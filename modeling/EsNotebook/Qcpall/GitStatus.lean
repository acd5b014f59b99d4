import EsNotebook.Qcpall.Relocate

/-!
# Reading `git status`

`qcpall.py` takes every line that begins, apart from blanks, with the word
`modified` for a modified file and deletes the label from it wherever it
occurs.  Names of untracked files stand alone on their lines and may look like
a label, and names with blanks at their ends or with the label in them do not
survive.
-/

namespace EsNotebook.Qcpall

open Py

/-! ## What git prints -/

/-- A path that git prints without quotes. -/
structure PathName where
  path : Str
  ne_nil : path ≠ []
  unquoted : ∀ c ∈ path, 32 ≤ c.toNat ∧ c.toNat ≠ 127 ∧ c ≠ '"' ∧ c ≠ '\\'

inductive Change where
  | modified (p : PathName)
  | newFile (p : PathName)
  | deleted (p : PathName)
  | renamed (old new : PathName)

def Change.line : Change → Str
  | modified p => '\t' :: "modified:   ".toList ++ p.path
  | newFile p => '\t' :: "new file:   ".toList ++ p.path
  | deleted p => '\t' :: "deleted:    ".toList ++ p.path
  | renamed old new => '\t' :: "renamed:    ".toList ++ (old.path ++ " -> ".toList ++ new.path)

def untrackedLine (p : PathName) : Str := '\t' :: p.path

def Change.modified? : Change → Option Str
  | modified p => some p.path
  | _ => none

/-- The headings and hints around the entries. -/
structure Prose where
  lines : List Str
  one_line : ∀ l ∈ lines, '\n' ∉ l
  plain : ∀ l ∈ lines, ¬"modified".toList <+: strip l

/-- What git has to report. -/
structure Status where
  head : Prose
  staged : List Change
  between : Prose
  unstaged : List Change
  middle : Prose
  untracked : List PathName
  foot : Prose

namespace Status

def lines (s : Status) : List Str :=
  s.head.lines ++ s.staged.map Change.line ++ s.between.lines ++ s.unstaged.map Change.line ++
    s.middle.lines ++ s.untracked.map untrackedLine ++ s.foot.lines

/-- The output of `git status`. -/
def text (s : Status) : Str := s.lines.flatMap (· ++ ['\n'])

/-- The paths listed as modified, in the order of the list. -/
def modified (s : Status) : List Str := (s.staged ++ s.unstaged).filterMap Change.modified?

end Status

/-! ## What `qcpall` takes from it -/

def label : Str := "modified:".toList

/-- The test for a line with a modified file. -/
def IsModifiedLine (line : Str) : Prop := "modified".toList.isPrefixOf (strip line) = true

instance : DecidablePred IsModifiedLine := fun _ ↦ inferInstanceAs (Decidable (_ = true))

/-- `line.replace("modified:", "").strip()` -/
def filepathOf (line : Str) : Str := strip (remove label line)

/-- The arguments of `relocate_files` in the loop over the lines; an exception
ends the program. -/
def passed (isdir : Str → Bool) (mypath : Str) : List Str → List Str
  | [] => []
  | line :: lines =>
      if IsModifiedLine line then
        match relocateFiles isdir mypath (filepathOf line) with
        | some _ => filepathOf line :: passed isdir mypath lines
        | none => [filepathOf line]
      else passed isdir mypath lines

/-- The main program on this output, as the list of paths it passes on. -/
def passedPaths (isdir : Str → Bool) (mypath : Str) (status_raw : Str) : List Str :=
  passed isdir mypath (split ['\n'] status_raw)

/-- `relocate_files` raises: a top directory occurs and there is no SDK root. -/
def Raises (isdir : Str → Bool) (mypath p : Str) : Prop := ¬Located isdir mypath ∧ Occurs p

/-- Modified files keep their names, only the last of them ends the loop, and
if it does not, no untracked file looks like a modified one. -/
structure NamesSurvive (isdir : Str → Bool) (mypath : Str) (s : Status) : Prop where
  modified : ∀ p ∈ s.modified, Stripped p ∧ ¬label <:+: p
  goes_on : ∀ p ∈ s.modified.dropLast, ¬Raises isdir mypath p
  untracked : (∀ q ∈ s.untracked, ¬IsModifiedLine q.path) ∨
    ∃ p, s.modified.getLast? = some p ∧ Raises isdir mypath p

variable {isdir : Str → Bool} {mypath : Str}

/-! ## One line -/

theorem relocateFiles_eq_none_iff {p : Str} :
    relocateFiles isdir mypath p = none ↔ Raises isdir mypath p := by
  rw [relocateFiles, Raises, ← getQualcommSdkPath_eq_none_iff]
  cases hroot : getQualcommSdkPath isdir mypath with
  | some S =>
      obtain ⟨r, hr⟩ := relocateTo_isSome S p
      simp [hr]
  | none =>
      by_cases hoccurs : Occurs p
      · obtain ⟨name, pre, post, hhit⟩ := exists_hit hoccurs
        simp [relocateTo_of_hit hhit, hoccurs]
      · have hmanual : relocateTo none p topdirs = some (.manual p) :=
          relocateTo_of_not_occurs fun t ht hin ↦ hoccurs ⟨t, ht, hin⟩
        simp [hmanual, hoccurs]

theorem isModifiedLine_iff {line : Str} :
    IsModifiedLine line ↔ "modified".toList <+: strip line := List.isPrefixOf_iff_prefix

theorem isModifiedLine_tab {s : Str} : IsModifiedLine ('\t' :: s) ↔ IsModifiedLine s := by
  rw [IsModifiedLine, IsModifiedLine, strip_cons_space rfl]

theorem not_isModifiedLine_of_label {w s : Str} (hw : Stripped w) (hne : w ≠ [])
    (h : w.head? ≠ some 'm') : ¬IsModifiedLine (w ++ s) := by
  rw [isModifiedLine_iff]
  intro hpre
  obtain ⟨c, w, rfl⟩ := List.exists_cons_of_ne_nil hne
  obtain ⟨t, ht⟩ := prefix_strip_append hw hne s
  rw [← ht] at hpre
  have hc : 'm' = c := (List.cons_prefix_cons.mp hpre).1
  exact h (congrArg some hc.symm)

theorem Change.line_eq (ch : Change) : ∃ w s, ch.line = '\t' :: (w ++ s) ∧
    Stripped w ∧ w ≠ [] ∧ (w.head? = some 'm' ↔ ∃ p, ch = .modified p) := by
  cases ch with
  | modified p =>
      exact ⟨"modified:".toList, "   ".toList ++ p.path, by simp [Change.line],
        stripped_of_any (by decide) (by decide), by decide, iff_of_true (by decide) ⟨p, rfl⟩⟩
  | newFile p =>
      exact ⟨"new file:".toList, "   ".toList ++ p.path, by simp [Change.line],
        stripped_of_any (by decide) (by decide), by decide, iff_of_false (by decide) (by simp)⟩
  | deleted p =>
      exact ⟨"deleted:".toList, "    ".toList ++ p.path, by simp [Change.line],
        stripped_of_any (by decide) (by decide), by decide, iff_of_false (by decide) (by simp)⟩
  | renamed old new =>
      exact ⟨"renamed:".toList, "    ".toList ++ (old.path ++ " -> ".toList ++ new.path),
        by simp [Change.line], stripped_of_any (by decide) (by decide), by decide,
        iff_of_false (by decide) (by simp)⟩

theorem line_modified (p : PathName) :
    (Change.modified p).line = '\t' :: (label ++ (' ' :: ' ' :: ' ' :: p.path)) := by
  have hlabel : "modified:   ".toList = label ++ [' ', ' ', ' '] := by decide
  rw [Change.line, hlabel]
  simp

theorem isModifiedLine_modified (p : PathName) : IsModifiedLine (Change.modified p).line := by
  have hstripped : Stripped label := stripped_of_any (by decide) (by decide)
  rw [line_modified, isModifiedLine_tab, isModifiedLine_iff]
  have hlong := prefix_strip_append hstripped (by decide) (' ' :: ' ' :: ' ' :: p.path)
  exact List.IsPrefix.trans (by decide) hlong

theorem not_isModifiedLine_line {ch : Change} (h : ∀ p, ch ≠ .modified p) :
    ¬IsModifiedLine ch.line := by
  obtain ⟨w, s, hline, hw, hne, hhead⟩ := ch.line_eq
  rw [hline, isModifiedLine_tab]
  apply not_isModifiedLine_of_label hw hne
  intro hm
  obtain ⟨p, hp⟩ := hhead.mp hm
  exact h p hp

theorem filepathOf_modified (p : PathName) :
    filepathOf (Change.modified p).line = filepathOf p.path := by
  have hblank : remove label (' ' :: ' ' :: ' ' :: p.path) =
      ' ' :: ' ' :: ' ' :: remove label p.path := by
    rw [remove_cons (by decide) (by decide), remove_cons (by decide) (by decide),
      remove_cons (by decide) (by decide)]
  have htab : isSpace '\t' = true := rfl
  have hspace : isSpace ' ' = true := rfl
  rw [filepathOf, line_modified, remove_cons (by decide) (by decide), remove_append (by decide),
    hblank]
  simp only [strip_cons_space htab, strip_cons_space hspace, filepathOf]

theorem filepathOf_untracked (q : PathName) : filepathOf (untrackedLine q) = filepathOf q.path := by
  have htab : isSpace '\t' = true := rfl
  rw [filepathOf, untrackedLine, remove_cons (by decide) (by decide), strip_cons_space htab,
    filepathOf]

theorem filepathOf_eq_self_iff {p : Str} : filepathOf p = p ↔ Stripped p ∧ ¬label <:+: p :=
  strip_remove_eq_self_iff (by decide)

/-! ## All lines -/

theorem filter_lines (s : Status) : (s.lines.filter IsModifiedLine).map filepathOf =
    s.modified.map filepathOf ++
      (s.untracked.filter fun q ↦ IsModifiedLine q.path).map fun q ↦ filepathOf q.path := by
  have hprose (pr : Prose) : pr.lines.filter IsModifiedLine = [] := by
    apply List.filter_eq_nil_iff.mpr
    intro l hl
    simpa [isModifiedLine_iff] using pr.plain l hl
  have hchanges (chs : List Change) : ((chs.map Change.line).filter IsModifiedLine).map filepathOf =
      (chs.filterMap Change.modified?).map filepathOf := by
    induction chs with
    | nil => rfl
    | cons ch chs ih =>
        by_cases hch : ∃ p, ch = .modified p
        · obtain ⟨p, rfl⟩ := hch
          rw [List.map_cons, List.filter_cons_of_pos (by simpa using isModifiedLine_modified p),
            List.map_cons, ih, filepathOf_modified]
          rfl
        · have hline := not_isModifiedLine_line fun p hp ↦ hch ⟨p, hp⟩
          have hnone : ch.modified? = none := by
            cases ch with
            | modified p => exact absurd ⟨p, rfl⟩ hch
            | newFile p => rfl
            | deleted p => rfl
            | renamed old new => rfl
          rw [List.map_cons, List.filter_cons_of_neg (by simpa using hline), ih,
            List.filterMap_cons_none hnone]
  have huntracked (qs : List PathName) :
      ((qs.map untrackedLine).filter IsModifiedLine).map filepathOf =
        (qs.filter fun q ↦ IsModifiedLine q.path).map fun q ↦ filepathOf q.path := by
    induction qs with
    | nil => rfl
    | cons q qs ih =>
        by_cases hq : IsModifiedLine q.path
        · have hline : IsModifiedLine (untrackedLine q) := isModifiedLine_tab.mpr hq
          rw [List.map_cons, List.filter_cons_of_pos (by simpa using hline), List.map_cons, ih,
            List.filter_cons_of_pos (by simpa using hq), List.map_cons, filepathOf_untracked]
        · have hline : ¬IsModifiedLine (untrackedLine q) := fun h ↦ hq (isModifiedLine_tab.mp h)
          rw [List.map_cons, List.filter_cons_of_neg (by simpa using hline), ih,
            List.filter_cons_of_neg (by simpa using hq)]
  simp only [Status.lines, List.filter_append, List.map_append, hprose, List.nil_append,
    List.append_nil, hchanges, huntracked, Status.modified, List.filterMap_append]

/-! ## The loop -/

/-- The calls up to the first that raises. -/
def upToRaise (isdir : Str → Bool) (mypath : Str) : List Str → List Str
  | [] => []
  | p :: ps =>
      p :: match relocateFiles isdir mypath p with
        | some _ => upToRaise isdir mypath ps
        | none => []

theorem passed_eq (lines : List Str) : passed isdir mypath lines =
    upToRaise isdir mypath ((lines.filter IsModifiedLine).map filepathOf) := by
  induction lines with
  | nil => rfl
  | cons line lines ih =>
      rw [passed]
      by_cases hline : IsModifiedLine line
      · rw [if_pos hline, List.filter_cons_of_pos (by simpa using hline), List.map_cons, upToRaise]
        cases relocateFiles isdir mypath (filepathOf line) with
        | some r => exact congrArg _ ih
        | none => rfl
      · rw [if_neg hline, List.filter_cons_of_neg (by simpa using hline), ih]

/-- The paths that are passed are those whose files `qcpall` works on. -/
theorem filterMap_upToRaise (ps : List Str) :
    (upToRaise isdir mypath ps).filterMap (relocateFiles isdir mypath) =
      qcpall isdir mypath ps := by
  induction ps with
  | nil => rfl
  | cons p ps ih =>
      rw [upToRaise, qcpall]
      cases h : relocateFiles isdir mypath p with
      | some r => rw [List.filterMap_cons_some h, ih]
      | none => rw [List.filterMap_cons_none h, List.filterMap_nil]

theorem upToRaise_cons_of_raises {p : Str} (h : Raises isdir mypath p) (ps : List Str) :
    upToRaise isdir mypath (p :: ps) = [p] := by
  rw [upToRaise, relocateFiles_eq_none_iff.mpr h]

theorem upToRaise_cons_of_not_raises {p : Str} (h : ¬Raises isdir mypath p) (ps : List Str) :
    upToRaise isdir mypath (p :: ps) = p :: upToRaise isdir mypath ps := by
  rw [upToRaise]
  cases hr : relocateFiles isdir mypath p with
  | some r => rfl
  | none => exact absurd (relocateFiles_eq_none_iff.mp hr) h

theorem upToRaise_prefix (isdir : Str → Bool) (mypath : Str) (ps : List Str) :
    upToRaise isdir mypath ps <+: ps := by
  induction ps with
  | nil => exact List.prefix_refl _
  | cons p ps ih =>
      by_cases h : Raises isdir mypath p
      · rw [upToRaise_cons_of_raises h]
        exact ⟨ps, rfl⟩
      · rw [upToRaise_cons_of_not_raises h]
        exact List.cons_prefix_cons.mpr ⟨rfl, ih⟩

/-- The calls end with `ps` if none but its last raises, and that one does
unless there are no more. -/
theorem upToRaise_append_eq_iff {ps qs : List Str} : upToRaise isdir mypath (ps ++ qs) = ps ↔
    (∀ p ∈ ps.dropLast, ¬Raises isdir mypath p) ∧
      (qs = [] ∨ ∃ p, ps.getLast? = some p ∧ Raises isdir mypath p) := by
  induction ps with
  | nil =>
      cases qs with
      | nil => simp [upToRaise]
      | cons q qs => simp [upToRaise]
  | cons p ps ih =>
      rw [List.cons_append]
      by_cases hp : Raises isdir mypath p
      · rw [upToRaise_cons_of_raises hp]
        cases ps with
        | nil => simp [hp]
        | cons p' ps => simp [hp]
      · rw [upToRaise_cons_of_not_raises hp, List.cons_inj_right, ih]
        cases ps with
        | nil => simp [hp]
        | cons p' ps => simp [hp, List.getLast?_cons_cons]

theorem newline_notMem_lines (s : Status) : ∀ l ∈ s.lines, '\n' ∉ l := by
  have hname (p : PathName) : '\n' ∉ p.path := fun h ↦ absurd (p.unquoted _ h).1 (by decide)
  have hchange (ch : Change) : '\n' ∉ ch.line := by
    cases ch with
    | modified p => simpa [Change.line] using hname p
    | newFile p => simpa [Change.line] using hname p
    | deleted p => simpa [Change.line] using hname p
    | renamed old new => simpa [Change.line] using ⟨hname old, hname new⟩
  intro l hl
  simp only [Status.lines, List.mem_append, List.mem_map] at hl
  rcases hl with (((((hl | ⟨ch, -, rfl⟩) | hl) | ⟨ch, -, rfl⟩) | hl) | ⟨q, -, rfl⟩) | hl
  · exact s.head.one_line l hl
  · exact hchange ch
  · exact s.between.one_line l hl
  · exact hchange ch
  · exact s.middle.one_line l hl
  · simpa [untrackedLine] using hname q
  · exact s.foot.one_line l hl

theorem passedPaths_text (s : Status) : passedPaths isdir mypath s.text =
    upToRaise isdir mypath (s.modified.map filepathOf ++
      (s.untracked.filter fun q ↦ IsModifiedLine q.path).map fun q ↦ filepathOf q.path) := by
  have hempty : ¬IsModifiedLine [] := by decide
  rw [passedPaths, Status.text, split_lines (newline_notMem_lines s), passed_eq,
    List.filter_append, List.filter_cons_of_neg (by simpa using hempty), List.filter_nil,
    List.append_nil, filter_lines]

theorem map_filepathOf_eq_self_iff {ps : List Str} :
    ps.map filepathOf = ps ↔ ∀ p ∈ ps, Stripped p ∧ ¬label <:+: p := by
  induction ps with
  | nil => simp
  | cons p ps ih =>
      rw [List.map_cons, List.cons.injEq, ih, filepathOf_eq_self_iff, List.forall_mem_cons]

/-- The paths listed as modified are passed on, all of them and nothing else,
exactly if the names survive. -/
theorem passed_paths_modified_iff (isdir : Str → Bool) (mypath : Str) (s : Status) :
    (passedPaths isdir mypath s.text = s.modified ↔ NamesSurvive isdir mypath s) ∧
      (NamesSurvive isdir mypath s →
        ∀ p, p ∈ passedPaths isdir mypath s.text ↔ p ∈ s.modified) := by
  have huntracked : (s.untracked.filter fun q ↦ IsModifiedLine q.path).map
      (fun q ↦ filepathOf q.path) = [] ↔ ∀ q ∈ s.untracked, ¬IsModifiedLine q.path := by
    simp [List.filter_eq_nil_iff]
  have hiff : passedPaths isdir mypath s.text = s.modified ↔ NamesSurvive isdir mypath s := by
    rw [passedPaths_text]
    constructor
    · intro h
      have hpre := upToRaise_prefix isdir mypath
        (s.modified.map filepathOf ++
          (s.untracked.filter fun q ↦ IsModifiedLine q.path).map fun q ↦ filepathOf q.path)
      rw [h] at hpre
      have hmap : s.modified.map filepathOf = s.modified := by
        have hboth := List.prefix_of_prefix_length_le hpre (List.prefix_append _ _)
          (by rw [List.length_map])
        exact (hboth.eq_of_length (by rw [List.length_map])).symm
      rw [hmap, upToRaise_append_eq_iff, huntracked] at h
      exact ⟨map_filepathOf_eq_self_iff.mp hmap, h.1, h.2⟩
    · intro h
      rw [map_filepathOf_eq_self_iff.mpr h.modified, upToRaise_append_eq_iff, huntracked]
      exact ⟨h.goes_on, h.untracked⟩
  refine ⟨hiff, ?_⟩
  intro h p
  rw [hiff.mpr h]

/-- One modified file and notes on it that are not tracked. -/
def notesStatus : Status where
  head := ⟨["On branch master".toList, "Changes not staged for commit:".toList, []],
    by decide, by decide⟩
  staged := []
  between := ⟨[], by simp, by simp⟩
  unstaged := [.modified ⟨"main.c".toList, by decide, forall_of_all (by decide)⟩]
  middle := ⟨[[], "Untracked files:".toList, []], by decide, by decide⟩
  untracked := [⟨"modified.txt".toList, by decide, forall_of_all (by decide)⟩]
  foot := ⟨[[]], by decide, by decide⟩

/-- The notes are passed on as well. -/
theorem notes_passed : ¬∀ (isdir : Str → Bool) (mypath : Str) (s : Status) (p : Str),
    p ∈ passedPaths isdir mypath s.text ↔ p ∈ s.modified := by
  intro h
  have hmem : "modified.txt".toList ∈
      passedPaths (fun _ ↦ false) "/w/qualcomm_sdk/patch".toList notesStatus.text := by
    decide +kernel
  have hlisted := (h _ _ _ _).mp hmem
  exact absurd hlisted (by decide)

end EsNotebook.Qcpall
