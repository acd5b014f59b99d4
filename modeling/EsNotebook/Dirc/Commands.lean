import EsNotebook.Dirc.Gitignore
import EsNotebook.Lib.Shell

/-!
# The command lines of dirc

`dirc` puts names and paths into its command lines as they are.  The shell
reads such a line as it is meant exactly when the words that are put in need no
quoting and are no patterns that match something else.
-/

namespace EsNotebook.Dirc

open Py Shell

/-- The environment variables and the file system as `dirc` sees them;
without `ESNOTE_ROOT` the program does not start. -/
structure Settings where
  esnoteRoot : Str
  notePath : Option Str
  expanduser : Str → Str
  isdir : Str → Bool

/-- `os.path.join` -/
def pathJoin (a b : Str) : Str :=
  if b.head? = some '/' then b
  else if a = [] ∨ a.getLast? = some '/' then a ++ b
  else a ++ ['/'] ++ b

def Settings.template (s : Settings) : Str := pathJoin s.esnoteRoot "annual_template.tgz".toList

/-- The folders of the template that are copied. -/
inductive Folder where
  | sampleProject
  | company
  deriving DecidableEq, Repr

def Folder.path : Folder → Str
  | .sampleProject => "projects/sample_project".toList
  | .company => "company".toList

/-- The text of the path of a place. -/
def locText (l : Loc) : Str := if l = [] then ['/'] else l.reverse.flatMap ('/' :: ·)

/-- A command line for `os.system`. -/
inductive Command where
  | unpack (template : Str)
  | makeDir (dir : Str)
  | copy (folder : Folder) (dir : Str)
  | link (dir place : Str)
  | ignore (exactpath : Loc)
  | readme (file : Str)
  deriving DecidableEq, Repr

def gitfilePath (exactpath : Loc) : Str := pathJoin (locText exactpath) gitfile

def Command.line : Command → Str
  | .unpack template => "tar zxvf ".toList ++ template ++ " -C /tmp/".toList
  | .makeDir dir => "mkdir -p ".toList ++ dir
  | .copy folder dir =>
      "cp -rf /tmp/annual_template/".toList ++ folder.path ++ "/* ".toList ++ dir
  | .link dir place => "ln -s ".toList ++ dir ++ " ".toList ++ place
  | .ignore exactpath => "echo *.swp > ".toList ++ gitfilePath exactpath
  | .readme file => "cat ".toList ++ file

/-- The project or company in the directory that is asked for.  Without
`MYNOTE_PATH` the concatenation for `ln` raises; the end of the answers raises
as well. -/
def createLinked (s : Settings) (name : Str) (folder : Folder) (place : Option Str) :
    List Str → List Command
  | prj :: yn :: _ =>
      let prj_path := s.expanduser prj
      if s.isdir prj_path && yn = ['y'] then
        let dir := prj_path ++ ['/'] ++ name
        [.unpack s.template, .makeDir dir, .copy folder dir] ++ (place.map (.link dir)).toList
      else []
  | _ => []

/-- `dirc_create_project` with the answers that are typed. -/
def dircCreateProject (s : Settings) (name : Str) : List Str → List Command
  | ['2'] :: answers =>
      createLinked s name .sampleProject (s.notePath.map (· ++ "/projects".toList)) answers
  | ['1'] :: _ =>
      .unpack s.template ::
        match s.notePath with
        | none => []
        | some note_path =>
            let dir := note_path ++ "/projects/".toList ++ name
            [.makeDir dir, .copy .sampleProject dir]
  | _ => []

/-- `dirc_create_company` with the answers that are typed. -/
def dircCreateCompany (s : Settings) (name : Str) (answers : List Str) : List Command :=
  createLinked s name .company s.notePath answers

/-- A call of `dirc`; for `addgit` with the directories it reaches that have no
such file. -/
inductive Call where
  | info
  | addgit (reached : List Loc)
  | project (name : Str) (answers : List Str)
  | company (name : Str) (answers : List Str)
  deriving DecidableEq, Repr

def commands (s : Settings) : Call → List Command
  | .info => [.readme (s.esnoteRoot ++ ['/'] ++ "annual_template/readme.txt".toList)]
  | .addgit reached => reached.map .ignore
  | .project name answers => dircCreateProject s name answers
  | .company name answers => dircCreateCompany s name answers

/-! ## What the lines are meant to say -/

/-- A word of a command: itself, or the files that it matches. -/
inductive Arg where
  | exact (w : Str)
  | pattern (w : Str)
  deriving DecidableEq, Repr

def Arg.text : Arg → Str
  | .exact w | .pattern w => w

def exacts (ws : List String) : List Arg := ws.map fun w ↦ .exact w.toList

/-- The program and its arguments. -/
def Command.args : Command → List Arg
  | .unpack template => exacts ["tar", "zxvf"] ++ [.exact template] ++ exacts ["-C", "/tmp/"]
  | .makeDir dir => exacts ["mkdir", "-p"] ++ [.exact dir]
  | .copy folder dir =>
      exacts ["cp", "-rf"] ++
        [.pattern ("/tmp/annual_template/".toList ++ folder.path ++ "/*".toList), .exact dir]
  | .link dir place => exacts ["ln", "-s"] ++ [.exact dir, .exact place]
  | .ignore _ => exacts ["echo", "*.swp"]
  | .readme file => exacts ["cat"] ++ [.exact file]

/-- The file that takes the output. -/
def Command.redirect : Command → Option Str
  | .ignore exactpath => some (gitfilePath exactpath)
  | _ => none

/-- The shell reads a line as the words that are meant, and its expansions
leave each of them alone. -/
structure ReadAs (env : Env) (c : Command) : Prop where
  tokens : lex c.line = some (c.args.map (fun a ↦ .word (verbatim a.text)) ++
    c.redirect.toList.flatMap fun f ↦ [.operator ['>'], .word (verbatim f)])
  fields : ∀ w, .exact w ∈ c.args → env.expand (verbatim w) = [w]
  target : ∀ f, c.redirect = some f → env.target (verbatim f) = f

/-- A word that is read as it is written and matches nothing else. -/
structure Unchanged (env : Env) (w : Str) : Prop where
  ordinary : Ordinary w
  itself : env.expand (verbatim w) = [w]

/-- The words that are put into a line are ordinary; no file of the current
directory matches `*.swp`. -/
def Command.Safe (env : Env) : Command → Prop
  | .unpack template => Unchanged env template
  | .makeDir dir => Unchanged env dir
  | .copy _ dir => Unchanged env dir
  | .link dir place => Unchanged env dir ∧ Unchanged env place
  | .ignore exactpath => (∀ n ∈ exactpath, ∀ c ∈ n, isSpecial c = false) ∧
      (env.matching (verbatim "*.swp".toList) = [] ∨
        env.matching (verbatim "*.swp".toList) = ["*.swp".toList])
  | .readme file => Unchanged env file

variable {env : Env} {c : Command} {w : Str}

/-! ## The fixed words -/

/-- A fixed word of a line, as the shell sees it. -/
def isFixed (w : Str) : Bool :=
  w ≠ [] && w.all (fun c ↦ !isSpecial c) && w.head? ≠ some '#' && w.head? ≠ some '~' &&
    !(verbatim w).any isGlob

theorem ordinary_of_isFixed (h : isFixed w = true) : Ordinary w := by
  simp only [isFixed, Bool.and_eq_true, decide_eq_true_eq, List.all_eq_true,
    Bool.not_eq_true'] at h
  exact ⟨h.1.1.1.1, h.1.1.1.2, h.1.1.2⟩

theorem unchanged_of_isFixed (env : Env) (h : isFixed w = true) : Unchanged env w := by
  refine ⟨ordinary_of_isFixed h, ?_⟩
  simp only [isFixed, Bool.and_eq_true, decide_eq_true_eq, Bool.not_eq_true'] at h
  exact expand_verbatim h.1.2 h.2

/-! ## The path of .gitignore -/

theorem gitfilePath_eq (l : Loc) : ∃ sep : Str, (sep = [] ∨ sep = ['/']) ∧
    gitfilePath l = locText l ++ sep ++ gitfile := by
  have hrel : gitfile.head? ≠ some '/' := by decide
  rw [gitfilePath, pathJoin, if_neg hrel]
  split_ifs
  · exact ⟨[], .inl rfl, by simp⟩
  · exact ⟨['/'], .inr rfl, rfl⟩

theorem head?_locText (l : Loc) : (locText l).head? = some '/' := by
  rw [locText]
  split_ifs with hl
  · rfl
  · cases hrev : l.reverse with
    | nil => exact absurd (List.reverse_eq_nil_iff.mp hrev) hl
    | cons n ns => rfl

theorem head?_gitfilePath (l : Loc) : (gitfilePath l).head? = some '/' := by
  obtain ⟨sep, -, heq⟩ := gitfilePath_eq l
  rw [heq, List.append_assoc, List.head?_append, head?_locText]
  rfl

theorem not_special_locText (l : Loc) : (∀ c ∈ locText l, isSpecial c = false) ↔
    ∀ n ∈ l, ∀ c ∈ n, isSpecial c = false := by
  have hslash : isSpecial '/' = false := by decide
  rw [locText]
  split_ifs with hl
  · subst hl
    simp [hslash]
  · constructor
    · intro h n hn c hc
      apply h c
      rw [List.mem_flatMap]
      exact ⟨n, List.mem_reverse.mpr hn, List.mem_cons_of_mem '/' hc⟩
    · intro h c hc
      obtain ⟨n, hn, hc⟩ := List.mem_flatMap.mp hc
      rcases List.mem_cons.mp hc with rfl | hc
      · exact hslash
      · exact h n (List.mem_reverse.mp hn) c hc

theorem ordinary_gitfilePath_iff (l : Loc) : Ordinary (gitfilePath l) ↔
    ∀ n ∈ l, ∀ c ∈ n, isSpecial c = false := by
  obtain ⟨sep, hsep, heq⟩ := gitfilePath_eq l
  rw [← not_special_locText]
  constructor
  · intro h c hc
    apply h.chars
    rw [heq, List.append_assoc]
    exact List.mem_append_left _ hc
  · intro h
    have hhead := head?_gitfilePath l
    refine ⟨fun hnil ↦ ?_, fun c hc ↦ ?_, ?_⟩
    · rw [hnil] at hhead
      cases hhead
    · have hfixed : ∀ c ∈ '/' :: gitfile, isSpecial c = false := forall_of_all (by decide)
      rw [heq, List.mem_append, List.mem_append] at hc
      rcases hc with (hc | hc) | hc
      · exact h c hc
      · rcases hsep with rfl | rfl
        · cases hc
        · exact hfixed c (List.mem_cons.mpr (.inl (List.mem_singleton.mp hc)))
      · exact hfixed c (List.mem_cons_of_mem _ hc)
    · rw [hhead]
      decide

/-! ## The lines as words -/

/-- What a word needs to be read as it is meant. -/
def Arg.Ok (env : Env) : Arg → Prop
  | .exact w => Unchanged env w
  | .pattern w => Ordinary w

theorem forall_ok_iff {as : List Arg} : (∀ a ∈ as, a.Ok env) ↔
    (∀ a ∈ as, Ordinary a.text) ∧ ∀ w, .exact w ∈ as → env.expand (verbatim w) = [w] := by
  constructor
  · intro h
    refine ⟨fun a ha ↦ ?_, fun w hw ↦ (h _ hw).itself⟩
    cases a with
    | exact w => exact (h _ ha).ordinary
    | pattern w => exact h _ ha
  · rintro ⟨hordinary, hfields⟩ a ha
    cases a with
    | exact w => exact ⟨hordinary _ ha, hfields w ha⟩
    | pattern w => exact hordinary _ ha

theorem ok_exacts (env : Env) (ws : List String) (h : ws.all (fun w ↦ isFixed w.toList) = true) :
    ∀ a ∈ exacts ws, a.Ok env := by
  intro a ha
  obtain ⟨w, hw, rfl⟩ := List.mem_map.mp ha
  exact unchanged_of_isFixed env (List.all_eq_true.mp h w hw)

/-- Words with a blank behind each. -/
def spaced (as : List Arg) : Str := (as.map Arg.text).flatMap (· ++ [' '])

def fixedText (ws : List String) : Str := ws.flatMap fun w ↦ w.toList ++ [' ']

theorem spaced_exacts (ws : List String) : spaced (exacts ws) = fixedText ws := by
  rw [spaced, exacts, fixedText, List.map_map, List.flatMap_map]
  rfl

theorem spaced_append (as bs : List Arg) : spaced (as ++ bs) = spaced as ++ spaced bs := by
  rw [spaced, List.map_append, List.flatMap_append]
  rfl

theorem spaced_singleton (a : Arg) : spaced [a] = a.text ++ [' '] := by
  rw [spaced, List.map_singleton, List.flatMap_singleton]

/-- A line without a redirection is read as meant when each of its words is. -/
theorem readAs_iff_of_words {as : List Arg} {last : Arg} (hargs : c.args = as ++ [last])
    (hredirect : c.redirect = none) (hline : c.line = spaced as ++ last.text) :
    ReadAs env c ↔ ∀ a ∈ c.args, a.Ok env := by
  have htokens : lex c.line = some (c.args.map (fun a ↦ .word (verbatim a.text)) ++
      c.redirect.toList.flatMap fun f ↦ [.operator ['>'], .word (verbatim f)]) ↔
      ∀ a ∈ c.args, Ordinary a.text := by
    have hiff := lex_words_iff (as.map Arg.text) last.text
    have hmap : as.map Arg.text ++ [last.text] = c.args.map Arg.text := by simp [hargs]
    rw [hmap, List.map_map, List.forall_mem_map] at hiff
    rw [hline, hredirect, Option.toList_none, List.flatMap_nil, List.append_nil]
    exact hiff
  rw [forall_ok_iff]
  constructor
  · intro h
    exact ⟨htokens.mp h.tokens, h.fields⟩
  · rintro ⟨hordinary, hfields⟩
    exact ⟨htokens.mpr hordinary, hfields, fun f hf ↦ by rw [hredirect] at hf; cases hf⟩

theorem readAs_iff_of_redirect {f : Str} (hredirect : c.redirect = some f)
    (hline : c.line = spaced c.args ++ ("> ".toList ++ f)) (hf : f.head? ≠ some '~')
    (hargs : ∀ a ∈ c.args, Ordinary a.text) :
    ReadAs env c ↔ (∀ a ∈ c.args, a.Ok env) ∧ Ordinary f := by
  have htokens : lex c.line = some (c.args.map (fun a ↦ .word (verbatim a.text)) ++
      c.redirect.toList.flatMap fun f ↦ [.operator ['>'], .word (verbatim f)]) ↔
      Ordinary f := by
    have hiff := lex_redirected_iff (c.args.map Arg.text) f
      (List.forall_mem_map.mpr hargs)
    rw [List.map_map] at hiff
    rw [hline, hredirect, Option.toList_some, List.flatMap_singleton]
    exact hiff
  rw [forall_ok_iff]
  constructor
  · intro h
    exact ⟨⟨hargs, h.fields⟩, htokens.mp h.tokens⟩
  · rintro ⟨⟨-, hfields⟩, hordinary⟩
    refine ⟨htokens.mpr hordinary, hfields, fun f' hf' ↦ ?_⟩
    obtain rfl := Option.some.inj (hredirect.symm.trans hf')
    rw [Env.target, tilde_verbatim hf, removeQuotes_verbatim]

theorem readAs_unpack {template : Str} :
    ReadAs env (.unpack template) ↔ Unchanged env template := by
  have hline : (Command.unpack template).line =
      spaced (exacts ["tar", "zxvf"] ++ [.exact template] ++ exacts ["-C"]) ++
        (Arg.exact "/tmp/".toList).text := by
    have hsource : (Command.unpack template).line =
      "tar zxvf ".toList ++ template ++ " -C /tmp/".toList := rfl
    have hbefore : "tar zxvf ".toList = fixedText ["tar", "zxvf"] := by decide +kernel
    have hafter : " -C /tmp/".toList = [' '] ++ fixedText ["-C"] ++ "/tmp/".toList := by
      decide +kernel
    rw [hsource, hbefore, hafter, spaced_append, spaced_append, spaced_exacts, spaced_exacts,
      spaced_singleton]
    simp only [Arg.text, List.append_assoc]
  rw [readAs_iff_of_words rfl rfl hline]
  have hbefore := ok_exacts env ["tar", "zxvf"] (by decide +kernel)
  have hafter := ok_exacts env ["-C", "/tmp/"] (by decide +kernel)
  rw [Command.args, List.forall_mem_append, List.forall_mem_append, List.forall_mem_singleton]
  exact ⟨fun h ↦ h.1.2, fun h ↦ ⟨⟨hbefore, h⟩, hafter⟩⟩

theorem readAs_makeDir {dir : Str} : ReadAs env (.makeDir dir) ↔ Unchanged env dir := by
  have hline : (Command.makeDir dir).line =
      spaced (exacts ["mkdir", "-p"]) ++ (Arg.exact dir).text := by
    have hsource : (Command.makeDir dir).line = "mkdir -p ".toList ++ dir := rfl
    have hbefore : "mkdir -p ".toList = fixedText ["mkdir", "-p"] := by decide +kernel
    rw [hsource, hbefore, spaced_exacts, Arg.text]
  rw [readAs_iff_of_words rfl rfl hline]
  have hbefore := ok_exacts env ["mkdir", "-p"] (by decide +kernel)
  rw [Command.args, List.forall_mem_append, List.forall_mem_singleton]
  exact ⟨fun h ↦ h.2, fun h ↦ ⟨hbefore, h⟩⟩

theorem readAs_copy {folder : Folder} {dir : Str} :
    ReadAs env (.copy folder dir) ↔ Unchanged env dir := by
  have hline : (Command.copy folder dir).line =
      spaced (exacts ["cp", "-rf"] ++
        [.pattern ("/tmp/annual_template/".toList ++ folder.path ++ "/*".toList)]) ++
        (Arg.exact dir).text := by
    have hsource : (Command.copy folder dir).line =
      "cp -rf /tmp/annual_template/".toList ++ folder.path ++ "/* ".toList ++ dir := rfl
    have hbefore : "cp -rf /tmp/annual_template/".toList =
        fixedText ["cp", "-rf"] ++ "/tmp/annual_template/".toList := by decide +kernel
    have hafter : "/* ".toList = "/*".toList ++ [' '] := by decide +kernel
    rw [hsource, hbefore, hafter, spaced_append, spaced_exacts, spaced_singleton]
    simp only [Arg.text, List.append_assoc]
  have hbefore := ok_exacts env ["cp", "-rf"] (by decide +kernel)
  have hpattern : (Arg.pattern ("/tmp/annual_template/".toList ++ folder.path ++
      "/*".toList)).Ok env := by
    cases folder <;> exact ⟨by decide +kernel, forall_of_all (by decide +kernel), by decide +kernel⟩
  rw [readAs_iff_of_words rfl rfl hline]
  rw [Command.args, List.forall_mem_append, List.forall_mem_cons, List.forall_mem_singleton]
  exact ⟨fun h ↦ h.2.2, fun h ↦ ⟨hbefore, hpattern, h⟩⟩

theorem readAs_link {dir place : Str} :
    ReadAs env (.link dir place) ↔ Unchanged env dir ∧ Unchanged env place := by
  have hline : (Command.link dir place).line =
      spaced (exacts ["ln", "-s"] ++ [.exact dir]) ++ (Arg.exact place).text := by
    have hsource : (Command.link dir place).line =
      "ln -s ".toList ++ dir ++ " ".toList ++ place := rfl
    have hbefore : "ln -s ".toList = fixedText ["ln", "-s"] := by decide +kernel
    have hblank : " ".toList = [' '] := by decide +kernel
    rw [hsource, hbefore, hblank, spaced_append, spaced_exacts, spaced_singleton]
    simp only [Arg.text, List.append_assoc]
  have hbefore := ok_exacts env ["ln", "-s"] (by decide +kernel)
  rw [readAs_iff_of_words rfl rfl hline]
  rw [Command.args, List.forall_mem_append, List.forall_mem_cons, List.forall_mem_singleton]
  exact ⟨fun h ↦ h.2, fun h ↦ ⟨hbefore, h⟩⟩

theorem readAs_readme {file : Str} : ReadAs env (.readme file) ↔ Unchanged env file := by
  have hline : (Command.readme file).line = spaced (exacts ["cat"]) ++ (Arg.exact file).text := by
    have hsource : (Command.readme file).line = "cat ".toList ++ file := rfl
    have hbefore : "cat ".toList = fixedText ["cat"] := by decide +kernel
    rw [hsource, hbefore, spaced_exacts, Arg.text]
  have hbefore := ok_exacts env ["cat"] (by decide +kernel)
  rw [readAs_iff_of_words rfl rfl hline]
  rw [Command.args, List.forall_mem_append, List.forall_mem_singleton]
  exact ⟨fun h ↦ h.2, fun h ↦ ⟨hbefore, h⟩⟩

/-- `*.swp` is no fixed word: the shell puts the files there that match it. -/
theorem readAs_ignore {exactpath : Loc} : ReadAs env (.ignore exactpath) ↔
    (∀ n ∈ exactpath, ∀ c ∈ n, isSpecial c = false) ∧
      (env.matching (verbatim "*.swp".toList) = [] ∨
        env.matching (verbatim "*.swp".toList) = ["*.swp".toList]) := by
  have hswp : Ordinary "*.swp".toList :=
    ⟨by decide +kernel, forall_of_all (by decide +kernel), by decide +kernel⟩
  have hecho := unchanged_of_isFixed env (w := "echo".toList) (by decide +kernel)
  have hargs : (Command.ignore exactpath).args =
    [.exact "echo".toList, .exact "*.swp".toList] := rfl
  have hline : (Command.ignore exactpath).line =
      spaced (Command.ignore exactpath).args ++ ("> ".toList ++ gitfilePath exactpath) := by
    have hsource : (Command.ignore exactpath).line =
      "echo *.swp > ".toList ++ gitfilePath exactpath := rfl
    have hbefore : "echo *.swp > ".toList = fixedText ["echo", "*.swp"] ++ "> ".toList := by
      decide +kernel
    have hexacts : (Command.ignore exactpath).args = exacts ["echo", "*.swp"] := rfl
    rw [hsource, hbefore, hexacts, spaced_exacts, List.append_assoc]
  have htilde : (gitfilePath exactpath).head? ≠ some '~' := by
    rw [head?_gitfilePath]
    decide
  have hordinary : ∀ a ∈ (Command.ignore exactpath).args, Ordinary a.text := by
    rw [hargs, List.forall_mem_cons, List.forall_mem_singleton]
    exact ⟨hecho.ordinary, hswp⟩
  rw [readAs_iff_of_redirect rfl hline htilde hordinary, ordinary_gitfilePath_iff, hargs,
    List.forall_mem_cons, List.forall_mem_singleton,
    ← expand_pattern_iff (by decide +kernel) (by decide +kernel)]
  constructor
  · rintro ⟨⟨-, h⟩, hnames⟩
    exact ⟨hnames, h.itself⟩
  · rintro ⟨hnames, h⟩
    exact ⟨⟨hecho, ⟨hswp, h⟩⟩, hnames⟩

theorem readAs_iff_safe (env : Env) (c : Command) : ReadAs env c ↔ c.Safe env := by
  cases c with
  | unpack template => exact readAs_unpack
  | makeDir dir => exact readAs_makeDir
  | copy folder dir => exact readAs_copy
  | link dir place => exact readAs_link
  | ignore exactpath => exact readAs_ignore
  | readme file => exact readAs_readme

/-- The lines of a call, each read in the environment of its moment, say what
is meant exactly when what is put into them is safe. -/
theorem commands_read_as_meant_iff (s : Settings) (call : Call) (env : ℕ → Env) :
    (∀ (i : ℕ) (c : Command), (commands s call)[i]? = some c → ReadAs (env i) c) ↔
      ∀ (i : ℕ) (c : Command), (commands s call)[i]? = some c → c.Safe (env i) :=
  forall₃_congr fun i c _ ↦ readAs_iff_safe (env i) c

/-- Nothing has a home and nothing matches. -/
def bareEnv : Env := { home := fun _ ↦ none, matching := fun _ ↦ [] }

def noteSettings : Settings where
  esnoteRoot := "/es".toList
  notePath := some "/note".toList
  expanduser := id
  isdir := fun _ ↦ true

/-- The blank of the name makes two directories. -/
theorem not_read_as_meant_with_blank :
    ¬∀ (i : ℕ) (c : Command),
      (commands noteSettings (.project "my work".toList ["1".toList]))[i]? = some c →
        ReadAs bareEnv c := by
  intro h
  have hread := h 1 (.makeDir "/note/projects/my work".toList) (by decide +kernel)
  have hordinary := (readAs_makeDir.mp hread).ordinary
  exact absurd (hordinary.chars ' ' (by decide +kernel)) (by decide)

end EsNotebook.Dirc
