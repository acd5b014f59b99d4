import Mathlib.Data.List.DropRight
import Mathlib.Data.List.Infix
import Mathlib.Tactic.Common

/-!
# Byte strings of Python 2

`strip`, `split`, `int` and the iteration over the lines of a file, as
functions on lists of characters.  The rules say when a field survives being
joined with its neighbours and split again.
-/

namespace EsNotebook.Py

abbrev Str := List Char

/-! ## Blanks -/

/-- The blanks of the C locale. -/
def isSpace (c : Char) : Bool :=
  c = ' ' || c = '\t' || c = '\n' || c = '\x0b' || c = '\x0c' || c = '\r'

def strip (s : Str) : Str := (s.dropWhile isSpace).rdropWhile isSpace

/-- No blank at either end. -/
structure Stripped (s : Str) : Prop where
  head : ∀ c, s.head? = some c → isSpace c = false
  last : ∀ c, s.getLast? = some c → isSpace c = false

theorem stripped_of_any {s : Str} (h : s.head?.any isSpace = false)
    (h' : s.getLast?.any isSpace = false) : Stripped s := by
  constructor
  · intro c hc
    rwa [hc] at h
  · intro c hc
    rwa [hc] at h'

/-- What a string is checked for, character by character. -/
theorem forall_of_all {s : Str} {p : Char → Prop} [DecidablePred p]
    (h : s.all (fun c ↦ p c) = true) : ∀ c ∈ s, p c := by
  intro c hc
  exact of_decide_eq_true (List.all_eq_true.mp h c hc)

theorem infix_of_strip (s : Str) : strip s <:+: s :=
  (List.rdropWhile_prefix _ _).isInfix.trans (List.dropWhile_suffix _).isInfix

theorem strip_length_le (s : Str) : (strip s).length ≤ s.length :=
  (infix_of_strip s).length_le

theorem stripped_strip (s : Str) : Stripped (strip s) := by
  constructor
  · intro c hc
    obtain ⟨rest, hrest⟩ : strip s <+: s.dropWhile isSpace := List.rdropWhile_prefix _ _
    have hhead : (s.dropWhile isSpace).head? = some c := by
      rw [← hrest, List.head?_append, hc]
      rfl
    have hnot := List.head?_dropWhile_not isSpace s
    rw [hhead] at hnot
    exact hnot
  · intro c hc
    obtain ⟨init, hinit⟩ := List.getLast?_eq_some_iff.mp hc
    have hne : strip s ≠ [] := by simp [hinit]
    have hnot := List.rdropWhile_last_not isSpace (s.dropWhile isSpace) hne
    have hlast : (strip s).getLast hne = c := by simp [hinit]
    have hnot' : ¬isSpace ((strip s).getLast hne) := hnot
    rw [hlast] at hnot'
    simpa using hnot'

theorem strip_of_stripped {s : Str} (h : Stripped s) : strip s = s := by
  have hdrop : s.dropWhile isSpace = s := by
    cases s with
    | nil => rfl
    | cons c s => simp [h.head c rfl]
  rw [strip, hdrop, List.rdropWhile_eq_self_iff]
  intro hne
  simp [h.last _ (List.getLast?_eq_some_getLast hne)]

@[simp] theorem strip_nil : strip [] = [] := rfl

@[simp] theorem strip_strip (s : Str) : strip (strip s) = strip s :=
  strip_of_stripped (stripped_strip s)

theorem strip_cons_space {c : Char} {s : Str} (h : isSpace c) : strip (c :: s) = strip s := by
  simp [strip, h]

theorem strip_concat_space {c : Char} {s : Str} (h : isSpace c) : strip (s ++ [c]) = strip s := by
  rw [strip, strip, List.dropWhile_append]
  split
  case isTrue hempty =>
    have hnil : s.dropWhile isSpace = [] := by simpa using hempty
    simp [hnil, h]
  case isFalse => rw [List.rdropWhile_concat_pos _ _ _ h]

theorem mem_strip {c : Char} {s : Str} (h : c ∈ strip s) : c ∈ s :=
  (infix_of_strip s).subset h

/-- What begins and ends without blanks stays at the front. -/
theorem prefix_strip_append {w : Str} (h : Stripped w) (hne : w ≠ []) (s : Str) :
    w <+: strip (w ++ s) := by
  have hdrop : (w ++ s).dropWhile isSpace = w ++ s := by
    obtain ⟨c, w, rfl⟩ := List.exists_cons_of_ne_nil hne
    simp [h.head c rfl]
  rw [strip, hdrop]
  induction s using List.reverseRecOn with
  | nil =>
      have hself : w.rdropWhile isSpace = w := by
        rw [List.rdropWhile_eq_self_iff]
        intro hne
        simp [h.last _ (List.getLast?_eq_some_getLast hne)]
      rw [List.append_nil, hself]
  | append_singleton s c ih =>
      rw [← List.append_assoc, List.rdropWhile_concat]
      split
      · apply ih
        obtain ⟨b, w, rfl⟩ := List.exists_cons_of_ne_nil hne
        simp [h.head b rfl]
      · exact ⟨s ++ [c], by simp⟩

/-! ## Splitting at a separator -/

/-- `splitAux sep k s` skips `k` characters and then splits at every
occurrence of `sep`, leftmost first. -/
def splitAux (sep : Str) : ℕ → Str → List Str
  | _, [] => [[]]
  | k + 1, _ :: s => splitAux sep k s
  | 0, c :: s =>
      if sep.isPrefixOf (c :: s) then [] :: splitAux sep (sep.length - 1) s
      else (splitAux sep 0 s).modifyHead (c :: ·)

/-- `s.split(sep)` for a separator that is not empty. -/
def split (sep s : Str) : List Str := splitAux sep 0 s

theorem splitAux_ne_nil (sep : Str) (k : ℕ) (s : Str) : splitAux sep k s ≠ [] := by
  induction s generalizing k with
  | nil => simp [splitAux]
  | cons c s ih =>
      cases k with
      | succ k => exact ih k
      | zero =>
          rw [splitAux]
          split
          · simp
          · obtain ⟨f, fs, hfs⟩ := List.exists_cons_of_ne_nil (ih 0)
            simp [hfs]

variable {sep : Str}

theorem splitAux_append (k : ℕ) (pre s : Str) (h : pre.length = k) :
    splitAux sep k (pre ++ s) = splitAux sep 0 s := by
  induction pre generalizing k with
  | nil =>
      subst h
      rfl
  | cons c pre ih =>
      subst h
      exact ih _ rfl

/-- The separator does not begin inside `f`, also not with the separator
that follows it. -/
def Clear (sep f : Str) : Prop :=
  ∀ t, t <:+ f → t ≠ [] → ¬sep <+: t ++ sep

/-- A clear field before a separator is the first piece. -/
theorem split_append {f rest : Str} (hsep : sep ≠ []) (h : Clear sep f) :
    split sep (f ++ sep ++ rest) = f :: split sep rest := by
  induction f with
  | nil =>
      obtain ⟨c, sep', rfl⟩ := List.exists_cons_of_ne_nil hsep
      have hpre : (c :: sep').isPrefixOf (c :: (sep' ++ rest)) := by
        simp [List.isPrefixOf_iff_prefix]
      simp only [split, List.nil_append, List.cons_append, splitAux, if_pos hpre]
      rw [splitAux_append _ sep' rest (by simp)]
  | cons c f ih =>
      have hrest : Clear sep f := fun t ht hne ↦ h t (ht.trans (List.suffix_cons _ _)) hne
      have hhead : ¬sep <+: c :: f ++ sep := h _ (List.suffix_refl _) (by simp)
      have hno : ¬sep.isPrefixOf (c :: (f ++ sep ++ rest)) := by
        rw [List.isPrefixOf_iff_prefix]
        intro hp
        apply hhead
        have hlong : c :: f ++ sep <+: c :: (f ++ sep ++ rest) := by simp
        refine List.prefix_of_prefix_length_le hp hlong ?_
        simp only [List.length_cons, List.cons_append, List.length_append]
        omega
      have hsplit := ih hrest
      simp only [split, List.cons_append, splitAux, if_neg hno] at hsplit ⊢
      rw [hsplit]
      rfl

theorem split_of_not_infix {s : Str} (h : ¬sep <:+: s) : split sep s = [s] := by
  induction s with
  | nil => rfl
  | cons c s ih =>
      have hrest : ¬sep <:+: s := fun hs ↦ h (List.infix_cons hs)
      have hno : ¬sep.isPrefixOf (c :: s) := by
        rw [List.isPrefixOf_iff_prefix]
        exact fun hp ↦ h hp.isInfix
      have hsplit := ih hrest
      simp only [split, splitAux, if_neg hno] at hsplit ⊢
      rw [hsplit]
      rfl

/-- The first piece begins the string. -/
theorem splitAux_head_prefix {s f : Str} {fs : List Str} (h : splitAux sep 0 s = f :: fs) :
    f <+: s := by
  induction s generalizing f fs with
  | nil =>
      obtain ⟨rfl, -⟩ := List.cons.inj h
      exact List.nil_prefix
  | cons c s ih =>
      rw [splitAux] at h
      split at h
      · obtain ⟨rfl, -⟩ := List.cons.inj h
        exact List.nil_prefix
      · obtain ⟨g, gs, hgs⟩ := List.exists_cons_of_ne_nil (splitAux_ne_nil sep 0 s)
        rw [hgs] at h
        obtain ⟨rfl, -⟩ := List.cons.inj h
        exact List.cons_prefix_cons.mpr ⟨rfl, ih hgs⟩

/-- No piece contains the separator, and every piece lies in the string. -/
theorem splitAux_pieces (hsep : sep ≠ []) {k : ℕ} {s f : Str} (h : f ∈ splitAux sep k s) :
    ¬sep <:+: f ∧ f <:+: s := by
  have hnil : ¬sep <:+: [] := fun hs ↦ hsep (List.eq_nil_of_infix_nil hs)
  induction s generalizing k f with
  | nil =>
      obtain rfl : f = [] := by simpa [splitAux] using h
      exact ⟨hnil, List.infix_refl _⟩
  | cons c s ih =>
      have hlift {g : Str} (hg : ¬sep <:+: g ∧ g <:+: s) : ¬sep <:+: g ∧ g <:+: c :: s :=
        ⟨hg.1, List.infix_cons hg.2⟩
      cases k with
      | succ k => exact hlift (ih h)
      | zero =>
          rw [splitAux] at h
          split at h
          · rcases List.mem_cons.mp h with rfl | h
            · exact ⟨hnil, List.nil_infix⟩
            · exact hlift (ih h)
          · rename_i hpre
            obtain ⟨g, gs, hgs⟩ := List.exists_cons_of_ne_nil (splitAux_ne_nil sep 0 s)
            rw [hgs] at h
            rcases List.mem_cons.mp h with rfl | h
            · have hg : c :: g <+: c :: s := List.cons_prefix_cons.mpr ⟨rfl, splitAux_head_prefix hgs⟩
              refine ⟨fun hin ↦ ?_, hg.isInfix⟩
              rcases List.infix_cons_iff.mp hin with hp | hs
              · exact hpre (List.isPrefixOf_iff_prefix.mpr (hp.trans hg))
              · exact (ih (by rw [hgs]; simp)).1 hs
            · exact hlift (ih (by rw [hgs]; simp [h]))

/-! ## Substrings -/

/-- `s.find(sub)` -/
def find (sub : Str) : Str → Option ℕ
  | [] => if sub = [] then some 0 else none
  | c :: s =>
      if sub.isPrefixOf (c :: s) then some 0
      else (find sub s).map (· + 1)

/-- `s.rfind(sub)` -/
def rfind (sub : Str) : Str → Option ℕ
  | [] => if sub = [] then some 0 else none
  | c :: s =>
      match rfind sub s with
      | some i => some (i + 1)
      | none => if sub.isPrefixOf (c :: s) then some 0 else none

theorem find_eq_some {sub s : Str} {i : ℕ} (h : find sub s = some i) :
    sub <+: s.drop i ∧ ∀ j < i, ¬sub <+: s.drop j := by
  induction s generalizing i with
  | nil =>
      rw [find] at h
      split at h
      case isTrue hnil =>
        obtain rfl := Option.some.inj h
        simp [hnil]
      case isFalse => cases h
  | cons c s ih =>
      rw [find] at h
      split at h
      case isTrue hpre =>
        obtain rfl := Option.some.inj h
        exact ⟨List.isPrefixOf_iff_prefix.mp hpre, by simp⟩
      case isFalse hno =>
        obtain ⟨i, hi, rfl⟩ := Option.map_eq_some_iff.mp h
        obtain ⟨hfound, hfirst⟩ := ih hi
        refine ⟨hfound, fun j hj ↦ ?_⟩
        cases j with
        | zero => exact fun hp ↦ hno (List.isPrefixOf_iff_prefix.mpr hp)
        | succ j => exact hfirst j (by omega)

theorem find_eq_none_iff {sub s : Str} : find sub s = none ↔ ¬sub <:+: s := by
  induction s with
  | nil => simp [find]
  | cons c s ih =>
      rw [find, List.infix_cons_iff, ← List.isPrefixOf_iff_prefix]
      split
      case isTrue hpre => simp [hpre]
      case isFalse hno => simp [hno, ih]

theorem rfind_eq_none_iff {sub s : Str} : rfind sub s = none ↔ ¬sub <:+: s := by
  induction s with
  | nil => simp [rfind]
  | cons c s ih =>
      rw [rfind, List.infix_cons_iff, ← List.isPrefixOf_iff_prefix]
      cases hs : rfind sub s with
      | some i =>
          have hin : sub <:+: s := by
            by_contra hno
            rw [ih.mpr hno] at hs
            cases hs
          simp [hin]
      | none => simp [ih.mp hs]

theorem rfind_eq_some {sub s : Str} {i : ℕ} (hsub : sub ≠ []) (h : rfind sub s = some i) :
    sub <+: s.drop i ∧ ∀ j > i, ¬sub <+: s.drop j := by
  induction s generalizing i with
  | nil => simp [rfind, hsub] at h
  | cons c s ih =>
      rw [rfind] at h
      split at h
      case h_1 i' hi =>
        obtain rfl := Option.some.inj h
        obtain ⟨hfound, hlast⟩ := ih hi
        refine ⟨hfound, fun j hj ↦ ?_⟩
        obtain ⟨j, rfl⟩ : ∃ k, j = k + 1 := ⟨j - 1, by omega⟩
        exact hlast j (by omega)
      case h_2 hnone =>
        split at h
        case isTrue hpre =>
          obtain rfl := Option.some.inj h
          refine ⟨List.isPrefixOf_iff_prefix.mp hpre, fun j hj ↦ ?_⟩
          obtain ⟨j, rfl⟩ : ∃ k, j = k + 1 := ⟨j - 1, by omega⟩
          intro hp
          exact rfind_eq_none_iff.mp hnone (hp.isInfix.trans (List.drop_suffix j s).isInfix)
        case isFalse => cases h

/-! ## Deleting a substring -/

/-- `s.replace(sep, "")` -/
def remove (sep s : Str) : Str := (split sep s).flatten

theorem remove_of_not_occurs {s : Str} (h : ¬sep <:+: s) : remove sep s = s := by
  rw [remove, split_of_not_infix h]
  simp

theorem remove_append {rest : Str} (hsep : sep ≠ []) :
    remove sep (sep ++ rest) = remove sep rest := by
  have hclear : Clear sep [] := fun t ht hne ↦ absurd (List.suffix_nil.mp ht) hne
  have hsplit : split sep ([] ++ sep ++ rest) = [] :: split sep rest := split_append hsep hclear
  rw [List.nil_append] at hsplit
  rw [remove, hsplit, List.flatten_cons, List.nil_append, remove]

theorem remove_cons {c : Char} {s : Str} (h : sep.head? ≠ some c) (hsep : sep ≠ []) :
    remove sep (c :: s) = c :: remove sep s := by
  obtain ⟨b, sep, rfl⟩ := List.exists_cons_of_ne_nil hsep
  have hno : ¬(b :: sep).isPrefixOf (c :: s) := by
    rw [List.isPrefixOf_iff_prefix, List.cons_prefix_cons]
    rintro ⟨rfl, -⟩
    exact h rfl
  obtain ⟨f, fs, hfs⟩ := List.exists_cons_of_ne_nil (splitAux_ne_nil (b :: sep) 0 s)
  simp only [remove, split, splitAux, if_neg hno, hfs, List.modifyHead_cons, List.flatten_cons,
    List.cons_append]

theorem length_flatten_splitAux_le (k : ℕ) (s : Str) :
    (splitAux sep k s).flatten.length ≤ s.length := by
  induction s generalizing k with
  | nil => simp [splitAux]
  | cons c s ih =>
      cases k with
      | succ k => exact (ih k).trans (Nat.le_succ _)
      | zero =>
          rw [splitAux]
          split
          · simpa using (ih (sep.length - 1)).trans (Nat.le_succ _)
          · have hle := ih 0
            obtain ⟨f, fs, hfs⟩ := List.exists_cons_of_ne_nil (splitAux_ne_nil sep 0 s)
            rw [hfs] at hle ⊢
            simpa using hle

theorem length_remove_lt {s : Str} (hsep : sep ≠ []) (h : sep <:+: s) :
    (remove sep s).length < s.length := by
  induction s with
  | nil => exact absurd (List.eq_nil_of_infix_nil h) hsep
  | cons c s ih =>
      rw [remove, split, splitAux]
      split
      · have hle : (splitAux sep (sep.length - 1) s).flatten.length ≤ s.length :=
          length_flatten_splitAux_le _ s
        simp only [List.flatten_cons, List.nil_append, List.length_cons]
        omega
      · rename_i hno
        have hin : sep <:+: s := by
          rcases List.infix_cons_iff.mp h with hp | hin
          · exact absurd (List.isPrefixOf_iff_prefix.mpr hp) hno
          · exact hin
        have hlt := ih hin
        rw [remove, split] at hlt
        obtain ⟨f, fs, hfs⟩ := List.exists_cons_of_ne_nil (splitAux_ne_nil sep 0 s)
        rw [hfs] at hlt ⊢
        simpa using hlt

/-- Exactly the strings without blanks at their ends and without the substring
survive. -/
theorem strip_remove_eq_self_iff {s : Str} (hsep : sep ≠ []) :
    strip (remove sep s) = s ↔ Stripped s ∧ ¬sep <:+: s := by
  constructor
  · intro h
    have hno : ¬sep <:+: s := by
      intro hin
      have hlt := length_remove_lt hsep hin
      have hle := strip_length_le (remove sep s)
      rw [h] at hle
      omega
    rw [remove_of_not_occurs hno] at h
    exact ⟨h ▸ stripped_strip s, hno⟩
  · rintro ⟨hstripped, hno⟩
    rw [remove_of_not_occurs hno, strip_of_stripped hstripped]

/-! ## Numbers -/

/-- `s.isdigit()` -/
def isDigit (s : Str) : Bool := s ≠ [] && s.all Char.isDigit

/-- `int(s)` -/
def parseInt (s : Str) : Option ℤ :=
  match strip s with
  | '-' :: ds => if isDigit ds then some (-Nat.ofDigitChars 10 ds 0) else none
  | '+' :: ds => if isDigit ds then some (Nat.ofDigitChars 10 ds 0) else none
  | ds => if isDigit ds then some (Nat.ofDigitChars 10 ds 0) else none

/-- `"{}".format(n)` -/
def formatInt : ℤ → Str
  | .ofNat n => Nat.toDigits 10 n
  | .negSucc n => '-' :: Nat.toDigits 10 (n + 1)

theorem isDigit_toDigits (n : ℕ) : isDigit (Nat.toDigits 10 n) := by
  simp only [isDigit, Bool.and_eq_true, decide_eq_true_eq, List.all_eq_true]
  exact ⟨Nat.toDigits_ne_nil, fun c hc ↦ Nat.isDigit_of_mem_toDigits (by omega) (by omega) hc⟩

theorem not_isSpace_of_isDigit {c : Char} (h : c.isDigit) : isSpace c = false := by
  cases hspace : isSpace c with
  | false => rfl
  | true =>
      simp only [isSpace, Bool.or_eq_true, decide_eq_true_eq] at hspace
      obtain ((((rfl | rfl) | rfl) | rfl) | rfl) | rfl := hspace <;> simp at h

theorem mem_formatInt {n : ℤ} {c : Char} (h : c ∈ formatInt n) : c.isDigit ∨ c = '-' := by
  cases n with
  | ofNat n => exact .inl (Nat.isDigit_of_mem_toDigits (by omega) (by omega) h)
  | negSucc n =>
      rcases List.mem_cons.mp h with rfl | h
      · exact .inr rfl
      · exact .inl (Nat.isDigit_of_mem_toDigits (by omega) (by omega) h)

theorem formatInt_ne_nil (n : ℤ) : formatInt n ≠ [] := by
  cases n with
  | ofNat n => exact Nat.toDigits_ne_nil
  | negSucc n => simp [formatInt]

theorem not_isSpace_of_mem_formatInt {n : ℤ} {c : Char} (h : c ∈ formatInt n) :
    isSpace c = false := by
  rcases mem_formatInt h with hdigit | rfl
  · exact not_isSpace_of_isDigit hdigit
  · rfl

theorem parseInt_formatInt (n : ℤ) : parseInt (formatInt n) = some n := by
  have hstrip : strip (formatInt n) = formatInt n := by
    apply strip_of_stripped
    exact ⟨fun c hc ↦ not_isSpace_of_mem_formatInt (List.mem_of_head? hc),
      fun c hc ↦ not_isSpace_of_mem_formatInt (List.mem_of_getLast? hc)⟩
  rw [parseInt, hstrip]
  cases n with
  | ofNat n =>
      have hdigits := isDigit_toDigits n
      have hvalue : Nat.ofDigitChars 10 (Nat.toDigits 10 n) 0 = n := Nat.ofDigitChars_ten_toDigits
      simp only [formatInt]
      generalize Nat.toDigits 10 n = ds at hdigits hvalue
      split
      case h_1 => simp [isDigit] at hdigits
      case h_2 => simp [isDigit] at hdigits
      case h_3 =>
        rw [if_pos hdigits, hvalue]
        rfl
  | negSucc n =>
      simp only [formatInt, isDigit_toDigits, if_true, Nat.ofDigitChars_ten_toDigits]
      rfl

/-! ## Files -/

/-- The lines of an open file, each with its newline. -/
def readLines : Str → List Str
  | [] => []
  | c :: s =>
      if c = '\n' then [c] :: readLines s
      else
        match readLines s with
        | [] => [[c]]
        | l :: ls => (c :: l) :: ls

theorem readLines_append {l rest : Str} (h : '\n' ∉ l) :
    readLines (l ++ '\n' :: rest) = (l ++ ['\n']) :: readLines rest := by
  induction l with
  | nil => simp [readLines]
  | cons c l ih =>
      have hc : c ≠ '\n' := fun heq ↦ h (by simp [heq])
      have hl : '\n' ∉ l := fun hmem ↦ h (by simp [hmem])
      simp [readLines, hc, ih hl]

theorem newline_notMem_strip_of_mem_readLines {s l : Str} (h : l ∈ readLines s) :
    '\n' ∉ strip l := by
  have hline : ∃ b, '\n' ∉ b ∧ (l = b ∨ l = b ++ ['\n']) := by
    induction s generalizing l with
    | nil => simp [readLines] at h
    | cons c s ih =>
        rw [readLines] at h
        split at h
        case isTrue hc =>
          rcases List.mem_cons.mp h with rfl | h
          · exact ⟨[], by simp, .inr (by simp [hc])⟩
          · exact ih h
        case isFalse hc =>
          have hcons {b : Str} (hb : '\n' ∉ b) : '\n' ∉ c :: b := by
            simp [hb, Ne.symm hc]
          split at h
          case h_1 =>
            obtain rfl : l = [c] := by simpa using h
            exact ⟨[c], hcons (by simp), .inl rfl⟩
          case h_2 first rest hrest =>
            rcases List.mem_cons.mp h with rfl | h
            · obtain ⟨b, hb, rfl | rfl⟩ := ih (l := first) (by simp [hrest])
              · exact ⟨c :: first, hcons hb, .inl rfl⟩
              · exact ⟨c :: b, hcons hb, .inr rfl⟩
            · exact ih (by simp [hrest, h])
  obtain ⟨b, hb, rfl | rfl⟩ := hline
  · exact fun hmem ↦ hb (mem_strip hmem)
  · rw [strip_concat_space (by rfl)]
    exact fun hmem ↦ hb (mem_strip hmem)

theorem split_lines {lines : List Str} (h : ∀ l ∈ lines, '\n' ∉ l) :
    split ['\n'] (lines.flatMap (· ++ ['\n'])) = lines ++ [[]] := by
  induction lines with
  | nil => rfl
  | cons l lines ih =>
      have hclear : Clear ['\n'] l := by
        intro t ht hne hpre
        obtain ⟨c, t, rfl⟩ := List.exists_cons_of_ne_nil hne
        obtain rfl : '\n' = c := by simpa using hpre
        exact h l (by simp) (ht.subset (by simp))
      rw [List.flatMap_cons, split_append (by simp) hclear, ih fun l' hl' ↦ h l' (by simp [hl'])]
      rfl

end EsNotebook.Py
