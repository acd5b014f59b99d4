import EsNotebook.Lib.PyText
import Mathlib.Data.Option.Basic

/-!
# Words of the shell

How the shell cuts a line into words and operators, and what its expansions
make of a word.  A word of ordinary characters that is no pattern is read as it
is written.
-/

namespace EsNotebook.Shell

open Py

/-- A character of a word; the quoting marks are removed at the end. -/
inductive Piece where
  | plain (c : Char)
  | quoted (c : Char)
  | mark (c : Char)
  deriving DecidableEq, Repr

inductive Token where
  | word (w : List Piece)
  /-- the digits before a redirection -/
  | number (ds : List Piece)
  | operator (o : Str)
  deriving DecidableEq, Repr

inductive Mode where
  | plain
  | escaped
  | single
  | double
  | doubleEscaped
  | comment
  | operator (o : Str)
  deriving DecidableEq, Repr

/-- The word that is being read and the tokens before it, last one first. -/
structure LexState where
  mode : Mode
  word : List Piece
  tokens : List Token
  deriving DecidableEq, Repr

def operators : List Str :=
  ["\n", "&", "&&", "(", ")", ";", ";;", "|", "||", "<", ">", "<<", ">>", "<&", ">&", "<>",
    "<<-", ">|"].map String.toList

def isBlank (c : Char) : Bool := c = ' ' || c = '\t'

/-- The characters that need quoting in every place. -/
def isSpecial (c : Char) : Bool :=
  c ∈ ['|', '&', ';', '<', '>', '(', ')', '$', '\x60', '\\', '"', '\x27', ' ', '\t', '\n']

def isDigit : Piece → Bool
  | .plain c => c.isDigit
  | _ => false

def endWord (s : LexState) : LexState :=
  if s.word = [] then s else { s with word := [], tokens := .word s.word.reverse :: s.tokens }

/-- The operator that begins with `c`, after the word before it. -/
def beginOperator (s : LexState) (c : Char) : LexState :=
  if (c = '<' || c = '>') && s.word ≠ [] && s.word.all isDigit then
    ⟨.operator [c], [], .number s.word.reverse :: s.tokens⟩
  else { endWord s with mode := .operator [c] }

/-- Outside quotes; there is no model of substitutions. -/
def plainStep (s : LexState) (c : Char) : Option LexState :=
  if c = '$' || c = '\x60' then none
  else if c = '\\' then some { s with mode := .escaped }
  else if c = '\x27' then some { s with mode := .single, word := .mark c :: s.word }
  else if c = '"' then some { s with mode := .double, word := .mark c :: s.word }
  else if isBlank c then some { endWord s with mode := .plain }
  else if [c] ∈ operators then some (beginOperator s c)
  else if c = '#' && s.word = [] then some { s with mode := .comment }
  else some { s with mode := .plain, word := .plain c :: s.word }

/-- One more character of the line; `none` for what has no model: substitutions
and continued lines. -/
def step (s : LexState) (c : Char) : Option LexState :=
  match s.mode with
  | .plain => plainStep s c
  | .escaped =>
      if c = '\n' then none
      else some { s with mode := .plain, word := .quoted c :: .mark '\\' :: s.word }
  | .single =>
      if c = '\x27' then some { s with mode := .plain, word := .mark c :: s.word }
      else some { s with word := .quoted c :: s.word }
  | .double =>
      if c = '$' || c = '\x60' then none
      else if c = '\\' then some { s with mode := .doubleEscaped }
      else if c = '"' then some { s with mode := .plain, word := .mark c :: s.word }
      else some { s with word := .quoted c :: s.word }
  | .doubleEscaped =>
      if c = '\n' then none
      else if c ∈ ['$', '\x60', '"', '\\'] then
        some { s with mode := .double, word := .quoted c :: .mark '\\' :: s.word }
      else some { s with mode := .double, word := .quoted c :: .quoted '\\' :: s.word }
  | .comment => some (if c = '\n' then beginOperator s c else s)
  | .operator o =>
      if o ++ [c] ∈ operators then some { s with mode := .operator (o ++ [c]) }
      else plainStep { s with mode := .plain, tokens := .operator o :: s.tokens } c

/-- The end of the line; a quotation must be closed. -/
def finish (s : LexState) : Option (List Token) :=
  match s.mode with
  | .plain | .comment => some (endWord s).tokens.reverse
  | .operator o => some (.operator o :: s.tokens).reverse
  | _ => none

def start : LexState := ⟨.plain, [], []⟩

def lex (line : Str) : Option (List Token) := (line.foldlM step start).bind finish

/-! ## Expansions -/

def isGlob : Piece → Bool
  | .plain c => c = '*' || c = '?' || c = '['
  | _ => false

/-- The home directories and the paths that match a pattern, from the current
directory. -/
structure Env where
  home : Str → Option Str
  matching : List Piece → List Str

def Piece.char? : Piece → Option Char
  | .plain c | .quoted c => some c
  | .mark _ => none

def removeQuotes (w : List Piece) : Str := w.filterMap Piece.char?

def isPlain : Piece → Bool
  | .plain _ => true
  | _ => false

def Env.tilde (env : Env) (w : List Piece) : List Piece :=
  match w with
  | .plain '~' :: rest =>
      let user := rest.takeWhile (· ≠ .plain '/')
      if user.all isPlain then
        match env.home (removeQuotes user) with
        | some h => h.map .quoted ++ rest.dropWhile (· ≠ .plain '/')
        | none => w
      else w
  | _ => w

/-- The fields that a word becomes; a pattern that nothing matches stays. -/
def Env.expand (env : Env) (w : List Piece) : List Str :=
  let w := env.tilde w
  if w.any isGlob && env.matching w ≠ [] then env.matching w else [removeQuotes w]

/-- The file that a redirection names; it is not taken as a pattern. -/
def Env.target (env : Env) (w : List Piece) : Str := removeQuotes (env.tilde w)

/-- The word as it is written, without any quoting. -/
def verbatim (w : Str) : List Piece := w.map .plain

@[simp] theorem removeQuotes_verbatim (w : Str) : removeQuotes (verbatim w) = w := by
  rw [removeQuotes, verbatim, List.filterMap_map]
  exact List.filterMap_some

/-! ## Ordinary words -/

/-- A word that needs no quoting to be one word. -/
structure Ordinary (w : Str) : Prop where
  ne_nil : w ≠ []
  chars : ∀ c ∈ w, isSpecial c = false
  no_comment : w.head? ≠ some '#'

theorem not_special_ne {c c' : Char} (h : isSpecial c = false) (h' : isSpecial c' = true) :
    c ≠ c' := by
  rintro rfl
  rw [h] at h'
  cases h'

theorem operators_special {c : Char} (h : [c] ∈ operators) : isSpecial c = true := by
  have hall : ∀ o ∈ operators, o.all (fun c ↦ c = '-' || isSpecial c) = true := by decide
  have hc := hall _ h
  rw [List.all_cons, List.all_nil, Bool.and_true, Bool.or_eq_true, decide_eq_true_eq] at hc
  apply hc.resolve_left
  rintro rfl
  exact absurd h (by decide)

theorem blank_special {c : Char} (h : isBlank c = true) : isSpecial c = true := by
  rw [isBlank, Bool.or_eq_true, decide_eq_true_eq, decide_eq_true_eq] at h
  rcases h with rfl | rfl <;> decide

theorem plainStep_ordinary {s : LexState} {c : Char} (hc : isSpecial c = false)
    (hcomment : s.word = [] → c ≠ '#') :
    plainStep s c = some { s with mode := .plain, word := .plain c :: s.word } := by
  have hdollar : c ≠ '$' := not_special_ne hc (by decide)
  have hquote : c ≠ '\x60' := not_special_ne hc (by decide)
  have hescape : c ≠ '\\' := not_special_ne hc (by decide)
  have hsingle : c ≠ '\x27' := not_special_ne hc (by decide)
  have hdouble : c ≠ '"' := not_special_ne hc (by decide)
  have hblank : ¬isBlank c = true := fun h ↦ by simp [blank_special h] at hc
  have hop : [c] ∉ operators := fun h ↦ by simp [operators_special h] at hc
  have hhash : ¬(c = '#' ∧ s.word = []) := fun h ↦ hcomment h.2 h.1
  simp [plainStep, hdollar, hquote, hescape, hsingle, hdouble, hblank, hop, hhash]

theorem foldlM_ordinary {w : Str} {read : List Piece} {tokens : List Token}
    (hchars : ∀ c ∈ w, isSpecial c = false) (hcomment : read = [] → w.head? ≠ some '#') :
    w.foldlM step ⟨.plain, read, tokens⟩ = some ⟨.plain, (verbatim w).reverse ++ read, tokens⟩ := by
  induction w generalizing read with
  | nil => rfl
  | cons c w ih =>
      have hc := plainStep_ordinary (s := ⟨.plain, read, tokens⟩) (hchars c List.mem_cons_self)
        fun hread hhash ↦ hcomment hread (by rw [hhash]; rfl)
      have hnil : Piece.plain c :: read = [] → w.head? ≠ some '#' := fun hnil ↦ by cases hnil
      have hw := ih (fun c' h ↦ hchars c' (List.mem_cons_of_mem c h)) hnil
      rw [List.foldlM_cons, step, hc]
      rw [verbatim, List.map_cons, List.reverse_cons, List.append_assoc]
      exact hw

theorem foldlM_word {w : Str} {tokens : List Token} (h : Ordinary w) :
    w.foldlM step ⟨.plain, [], tokens⟩ = some ⟨.plain, (verbatim w).reverse, tokens⟩ := by
  rw [foldlM_ordinary h.chars fun _ ↦ h.no_comment, List.append_nil]

theorem endWord_verbatim {w : Str} {tokens : List Token} (h : Ordinary w) :
    endWord ⟨.plain, (verbatim w).reverse, tokens⟩ =
      ⟨.plain, [], .word (verbatim w) :: tokens⟩ := by
  have hne : (verbatim w).reverse ≠ [] := by
    rw [Ne, List.reverse_eq_nil_iff, verbatim, List.map_eq_nil_iff]
    exact h.ne_nil
  rw [endWord, if_neg hne, List.reverse_reverse]

theorem foldlM_words {ws : List Str} {tokens : List Token} (h : ∀ w ∈ ws, Ordinary w) :
    (ws.flatMap (· ++ [' '])).foldlM step ⟨.plain, [], tokens⟩ =
      some ⟨.plain, [], (ws.map fun w ↦ .word (verbatim w)).reverse ++ tokens⟩ := by
  induction ws generalizing tokens with
  | nil => rfl
  | cons w ws ih =>
      have hw : Ordinary w := h w List.mem_cons_self
      have hblank : [' '].foldlM step ⟨.plain, (verbatim w).reverse, tokens⟩ =
          some ⟨.plain, [], .word (verbatim w) :: tokens⟩ := by
        have hstep : step ⟨.plain, (verbatim w).reverse, tokens⟩ ' ' =
          some { endWord ⟨.plain, (verbatim w).reverse, tokens⟩ with mode := .plain } := rfl
        rw [List.foldlM_cons, hstep, endWord_verbatim hw]
        rfl
      rw [List.flatMap_cons, List.foldlM_append, List.foldlM_append, foldlM_word hw]
      rw [Option.bind_eq_bind, Option.bind_some, hblank, Option.bind_some]
      rw [ih fun w' h' ↦ h w' (List.mem_cons_of_mem w h')]
      rw [List.map_cons, List.reverse_cons, List.append_assoc]
      rfl

theorem lex_append {a b : Str} {s : LexState} (h : a.foldlM step start = some s) :
    lex (a ++ b) = (b.foldlM step s).bind finish := by
  rw [lex, List.foldlM_append, h]
  rfl

theorem lex_words {ws : List Str} {last : Str} (h : ∀ w ∈ ws ++ [last], Ordinary w) :
    lex (ws.flatMap (· ++ [' ']) ++ last) =
      some ((ws ++ [last]).map fun w ↦ .word (verbatim w)) := by
  have hlast : Ordinary last := h last (List.mem_append_right ws (List.mem_singleton_self last))
  rw [lex_append (foldlM_words fun w hw ↦ h w (List.mem_append_left [last] hw)),
    foldlM_word hlast, Option.bind_some, finish, endWord_verbatim hlast, List.append_nil]
  simp

theorem lex_redirected {ws : List Str} {f : Str} (h : ∀ w ∈ ws, Ordinary w) (hf : Ordinary f) :
    lex (ws.flatMap (· ++ [' ']) ++ ("> ".toList ++ f)) =
      some (ws.map (fun w ↦ .word (verbatim w)) ++ [.operator ['>'], .word (verbatim f)]) := by
  have hto (tokens : List Token) : "> ".toList.foldlM step ⟨.plain, [], tokens⟩ =
      some ⟨.plain, [], .operator ['>'] :: tokens⟩ := by
    have htext : "> ".toList = ['>', ' '] := by decide
    rw [htext]
    rfl
  rw [lex_append (foldlM_words h), List.foldlM_append, hto, Option.bind_eq_bind, Option.bind_some,
    foldlM_word hf, Option.bind_some, finish, endWord_verbatim hf, List.append_nil]
  simp

/-! ## What a word of the shell cannot contain -/

structure WordSound (w : List Piece) : Prop where
  ne_nil : w ≠ []
  chars : ∀ c, .plain c ∈ w → isSpecial c = false
  no_comment : w.head? ≠ some (.plain '#')

/-- The words so far, and the one that is being read. -/
structure StateSound (s : LexState) : Prop where
  tokens : ∀ w, .word w ∈ s.tokens → WordSound w
  chars : ∀ c, .plain c ∈ s.word → isSpecial c = false
  no_comment : s.word.getLast? ≠ some (.plain '#')

variable {s s' : LexState} {c : Char} {p : Piece}

theorem StateSound.mode (h : StateSound s) (m : Mode) : StateSound { s with mode := m } :=
  ⟨h.tokens, h.chars, h.no_comment⟩

theorem StateSound.operator (h : StateSound s) (o : Str) :
    StateSound { s with tokens := .operator o :: s.tokens } := by
  refine ⟨fun w hw ↦ ?_, h.chars, h.no_comment⟩
  rcases List.mem_cons.mp hw with heq | hw
  · cases heq
  · exact h.tokens w hw

theorem StateSound.push (h : StateSound s) (hchar : ∀ c, p = .plain c → isSpecial c = false)
    (hcomment : s.word = [] → p ≠ .plain '#') : StateSound { s with word := p :: s.word } := by
  refine ⟨h.tokens, fun c hc ↦ ?_, ?_⟩
  · rcases List.mem_cons.mp hc with heq | hc
    · exact hchar c heq.symm
    · exact h.chars c hc
  · cases hword : s.word with
    | nil =>
        intro hlast
        exact hcomment hword (Option.some.inj hlast)
    | cons q qs =>
        rw [List.getLast?_cons_cons, ← hword]
        exact h.no_comment

theorem StateSound.push_quoted (h : StateSound s) (c : Char) :
    StateSound { s with word := .quoted c :: s.word } :=
  h.push (fun _ heq ↦ by cases heq) fun _ heq ↦ by cases heq

theorem StateSound.push_mark (h : StateSound s) (c : Char) :
    StateSound { s with word := .mark c :: s.word } :=
  h.push (fun _ heq ↦ by cases heq) fun _ heq ↦ by cases heq

theorem StateSound.nil {m : Mode} {tokens : List Token}
    (h : ∀ w, .word w ∈ tokens → WordSound w) : StateSound ⟨m, [], tokens⟩ :=
  ⟨h, fun _ hc ↦ (List.not_mem_nil hc).elim, by simp⟩

theorem StateSound.endWord (h : StateSound s) : StateSound (endWord s) := by
  rw [Shell.endWord]
  split_ifs with hword
  · exact h
  · apply StateSound.nil
    intro w hw
    rcases List.mem_cons.mp hw with heq | hw
    · obtain rfl := Token.word.inj heq
      refine ⟨by simpa using hword, fun c hc ↦ h.chars c (List.mem_reverse.mp hc), ?_⟩
      rw [List.head?_reverse]
      exact h.no_comment
    · exact h.tokens w hw

theorem StateSound.beginOperator (h : StateSound s) (c : Char) :
    StateSound (beginOperator s c) := by
  rw [Shell.beginOperator]
  split_ifs
  · apply StateSound.nil
    intro w hw
    rcases List.mem_cons.mp hw with heq | hw
    · cases heq
    · exact h.tokens w hw
  · exact h.endWord.mode _

/-- The special characters all have a rule of their own. -/
theorem not_special (hdollar : ¬(c = '$' ∨ c = '\x60')) (hescape : c ≠ '\\')
    (hsingle : c ≠ '\x27') (hdouble : c ≠ '"') (hblank : ¬isBlank c = true)
    (hop : [c] ∉ operators) : isSpecial c = false := by
  by_contra h
  rw [Bool.not_eq_false, isSpecial, decide_eq_true_eq] at h
  have hrule : ∀ c ∈ ['|', '&', ';', '<', '>', '(', ')', '$', '\x60', '\\', '"', '\x27', ' ', '\t',
      '\n'], (c = '$' ∨ c = '\x60') ∨ c = '\\' ∨ c = '\x27' ∨ c = '"' ∨ isBlank c = true ∨
      [c] ∈ operators := forall_of_all (by decide)
  rcases hrule c h with hrule | hrule | hrule | hrule | hrule | hrule
  · exact hdollar hrule
  · exact hescape hrule
  · exact hsingle hrule
  · exact hdouble hrule
  · exact hblank hrule
  · exact hop hrule

theorem StateSound.plainStep (h : StateSound s) (hstep : plainStep s c = some s') :
    StateSound s' := by
  rw [Shell.plainStep] at hstep
  split_ifs at hstep with hdollar hescape hsingle hdouble hblank hop hcomment <;>
    obtain rfl := Option.some.inj hstep
  · exact h.mode _
  · exact (h.push_mark c).mode _
  · exact (h.push_mark c).mode _
  · exact h.endWord.mode _
  · exact h.beginOperator c
  · exact h.mode _
  · have hdollar' : ¬(c = '$' ∨ c = '\x60') := by simpa using hdollar
    have hordinary := not_special hdollar' hescape hsingle hdouble hblank hop
    refine (h.push (p := .plain c) ?_ ?_).mode _
    · intro c' heq
      obtain rfl := Piece.plain.inj heq
      exact hordinary
    · intro hword heq
      obtain rfl := Piece.plain.inj heq
      exact hcomment (by simp [hword])

theorem StateSound.step (h : StateSound s) (hstep : step s c = some s') : StateSound s' := by
  rw [Shell.step] at hstep
  cases hmode : s.mode with
  | plain =>
      rw [hmode] at hstep
      exact h.plainStep hstep
  | escaped =>
      rw [hmode] at hstep
      dsimp only at hstep
      split_ifs at hstep
      obtain rfl := Option.some.inj hstep
      exact ((h.push_mark _).push_quoted c).mode _
  | single =>
      rw [hmode] at hstep
      dsimp only at hstep
      split_ifs at hstep <;> obtain rfl := Option.some.inj hstep
      · exact (h.push_mark c).mode _
      · exact (h.push_quoted c).mode _
  | double =>
      rw [hmode] at hstep
      dsimp only at hstep
      split_ifs at hstep <;> obtain rfl := Option.some.inj hstep
      · exact h.mode _
      · exact (h.push_mark c).mode _
      · exact (h.push_quoted c).mode _
  | doubleEscaped =>
      rw [hmode] at hstep
      dsimp only at hstep
      split_ifs at hstep <;> obtain rfl := Option.some.inj hstep
      · exact ((h.push_mark _).push_quoted c).mode _
      · exact ((h.push_quoted _).push_quoted c).mode _
  | comment =>
      rw [hmode] at hstep
      obtain rfl := Option.some.inj hstep
      split_ifs
      · exact h.beginOperator c
      · exact h
  | operator o =>
      rw [hmode] at hstep
      dsimp only at hstep
      split_ifs at hstep
      · obtain rfl := Option.some.inj hstep
        exact h.mode _
      · exact ((h.operator o).mode _).plainStep hstep

theorem StateSound.foldlM {line : Str} (h : StateSound s)
    (hline : line.foldlM Shell.step s = some s') : StateSound s' := by
  induction line generalizing s with
  | nil =>
      obtain rfl := Option.some.inj hline
      exact h
  | cons c line ih =>
      rw [List.foldlM_cons] at hline
      obtain ⟨s₁, hstep, hrest⟩ := Option.bind_eq_some_iff.mp hline
      exact ih (h.step hstep) hrest

/-- A word that the shell reads as it is written is ordinary. -/
theorem ordinary_of_mem_lex {line : Str} {tokens : List Token} {w : Str}
    (hlex : lex line = some tokens) (hw : .word (verbatim w) ∈ tokens) : Ordinary w := by
  obtain ⟨s, hs, hfinish⟩ := Option.bind_eq_some_iff.mp hlex
  have hstart : StateSound start := StateSound.nil fun _ h ↦ (List.not_mem_nil h).elim
  have hsound := hstart.foldlM hs
  have hword : WordSound (verbatim w) := by
    rw [finish] at hfinish
    split at hfinish
    · obtain rfl := Option.some.inj hfinish
      exact hsound.endWord.tokens _ (List.mem_reverse.mp hw)
    · obtain rfl := Option.some.inj hfinish
      exact hsound.endWord.tokens _ (List.mem_reverse.mp hw)
    · obtain rfl := Option.some.inj hfinish
      exact (hsound.operator _).tokens _ (List.mem_reverse.mp hw)
    · cases hfinish
  constructor
  · rintro rfl
    exact hword.ne_nil rfl
  · exact fun c hc ↦ hword.chars c (List.mem_map_of_mem hc)
  · intro hhead
    apply hword.no_comment
    rw [verbatim, List.head?_map, hhead]
    rfl

theorem lex_words_iff (ws : List Str) (last : Str) :
    lex (ws.flatMap (· ++ [' ']) ++ last) =
      some ((ws ++ [last]).map fun w ↦ .word (verbatim w)) ↔ ∀ w ∈ ws ++ [last], Ordinary w :=
  ⟨fun h _ hw ↦ ordinary_of_mem_lex h (List.mem_map_of_mem hw), lex_words⟩

theorem lex_redirected_iff (ws : List Str) (f : Str) (h : ∀ w ∈ ws, Ordinary w) :
    lex (ws.flatMap (· ++ [' ']) ++ ("> ".toList ++ f)) =
      some (ws.map (fun w ↦ .word (verbatim w)) ++ [.operator ['>'], .word (verbatim f)]) ↔
      Ordinary f :=
  ⟨fun hlex ↦ ordinary_of_mem_lex hlex (by simp), lex_redirected h⟩

/-! ## Fields of ordinary words -/

theorem tilde_verbatim {env : Env} {w : Str} (h : w.head? ≠ some '~') :
    env.tilde (verbatim w) = verbatim w := by
  rw [Env.tilde]
  intro rest heq
  cases w with
  | nil => cases heq
  | cons c w =>
      obtain rfl := Piece.plain.inj (List.cons.inj heq).1
      exact absurd rfl h

theorem expand_verbatim {env : Env} {w : Str} (htilde : w.head? ≠ some '~')
    (hglob : (verbatim w).any isGlob = false) : env.expand (verbatim w) = [w] := by
  rw [Env.expand, tilde_verbatim htilde, hglob, Bool.false_and, if_neg Bool.false_ne_true,
    removeQuotes_verbatim]

/-- A pattern stays as it is where it matches nothing, or only itself. -/
theorem expand_pattern_iff {env : Env} {w : Str} (htilde : w.head? ≠ some '~')
    (hglob : (verbatim w).any isGlob = true) : env.expand (verbatim w) = [w] ↔
      env.matching (verbatim w) = [] ∨ env.matching (verbatim w) = [w] := by
  rw [Env.expand, tilde_verbatim htilde, hglob, Bool.true_and, removeQuotes_verbatim]
  by_cases h : env.matching (verbatim w) = []
  · simp [h]
  · simp [h]

end EsNotebook.Shell
