import EsNotebook.Todo.TextFile

/-!
# Short lines of the todo file

`job_obj` leaves a line with fewer than three fields alone and reads four of
the others.  A line of exactly three passes the test, and if its first field
is an index the access to the fourth ends the whole load.
-/

namespace EsNotebook.Todo

open Py

/-- `lines.strip().split(COLUMN_SEP)` -/
def fields (line : Str) : List Str := split columnSep (strip line)

def IsComment (line : Str) : Prop := ['#'].isPrefixOf (strip line) = true

/-- `FIELD_COMMENT` is the last position read. -/
def fieldsRead : ℕ := 4

/-- The four fields that `job_obj` reads, and the two that it converts. -/
def JobFields (line : Str) (j : JobObj) : Prop :=
  ∃ f₀ f₁ f₂ f₃ rest date, fields line = f₀ :: f₁ :: f₂ :: f₃ :: rest ∧
    parseInt f₀ = some j.idx ∧ strptime '/' (strip f₁) = some date ∧
    j = { JobObj.blank with
      idx := j.idx, job_name := strip f₂, comments := strip f₃, datetime := some date }

/-- The index or the date of the line cannot be converted. -/
def ConversionFails (line : Str) : Prop :=
  (∃ f, (fields line)[0]? = some f ∧ parseInt f = none) ∨
    ∃ f, (fields line)[1]? = some f ∧ strptime '/' (strip f) = none

/-- What reading a line into a joblist may come to. -/
inductive LineOutcome (joblist : Joblist) (line : Str) : Except PyError Joblist → Prop
  | comment (h : IsComment line) : LineOutcome joblist line (.ok joblist)
  | conversion (h : ConversionFails line) : LineOutcome joblist line (.error .valueError)
  | short (h : (fields line).length < fieldsRead) : LineOutcome joblist line (.ok joblist)
  | indexZero (h : ∃ f, (fields line)[0]? = some f ∧ parseInt f = some 0) :
      LineOutcome joblist line (.ok joblist)
  | job (j : JobObj) (h : JobFields line j) (hidx : j.idx ≠ 0) :
      LineOutcome joblist line (.ok (joblist.insert j.idx j))

/-- Short lines are skipped: no line makes the access to a field fail. -/
structure SkipsShortLines (text : Str) : Prop where
  lines : ∀ line ∈ readLines text, ∀ joblist : Joblist,
    LineOutcome joblist line (loadLine joblist line)
  load : joblistLoadTxt text ≠ .error .indexError

/-- A line on the boundary of the test: three fields, of which the first is an
index. -/
structure OneShort (line : Str) : Prop where
  not_comment : ¬IsComment line
  three : (fields line).length = 3
  index : ∃ f i, (fields line)[0]? = some f ∧ parseInt f = some i

variable {joblist : Joblist} {line : Str}

theorem loadLine_of_comment (h : IsComment line) : loadLine joblist line = .ok joblist :=
  if_pos h

theorem loadLine_of_not_comment (h : ¬IsComment line) :
    loadLine joblist line = (JobObj.ofLine line >>= fun test1 ↦
      if test1.idx = 0 then .ok joblist else .ok (joblist.insert test1.idx test1)) := by
  have hstrip : JobObj.ofLine (strip line) = JobObj.ofLine line := by
    simp only [JobObj.ofLine, strip_strip]
  have hhash : ¬['#'].isPrefixOf (strip line) = true := h
  rw [loadLine, if_neg hhash, hstrip]

theorem ofLine_of_short (h : (fields line).length < 3) : JobObj.ofLine line = .ok .blank := by
  unfold JobObj.ofLine
  split
  · rename_i hsplit
    rw [fields, hsplit] at h
    simp only [List.length_cons] at h
    omega
  · rfl

/-- With three fields the index is converted before the access fails. -/
theorem ofLine_of_three {f₀ f₁ f₂ : Str} (h : fields line = [f₀, f₁, f₂]) :
    JobObj.ofLine line = (orValueError (parseInt f₀) >>= fun _ ↦ .error .indexError) := by
  rw [fields] at h
  rw [JobObj.ofLine, h]

theorem ofLine_of_four {f₀ f₁ f₂ f₃ : Str} {rest : List Str}
    (h : fields line = f₀ :: f₁ :: f₂ :: f₃ :: rest) :
    JobObj.ofLine line = (orValueError (parseInt f₀) >>= fun idx ↦
      orValueError (strptime '/' (strip f₁)) >>= fun date ↦
        .ok { JobObj.blank with
          idx := idx, job_name := strip f₂, comments := strip f₃, datetime := some date }) := by
  rw [fields] at h
  rw [JobObj.ofLine, h]

theorem loadLine_of_oneShort (h : OneShort line) :
    loadLine joblist line = .error .indexError := by
  obtain ⟨f₀, f₁, f₂, hfields⟩ := List.length_eq_three.mp h.three
  obtain ⟨f, i, hf, hi⟩ := h.index
  obtain rfl : f₀ = f := by simpa [hfields] using hf
  rw [loadLine_of_not_comment h.not_comment, ofLine_of_three hfields, hi]
  rfl

theorem outcome_of_four (hcomment : ¬IsComment line) {f₀ f₁ f₂ f₃ : Str} {rest : List Str}
    (h : fields line = f₀ :: f₁ :: f₂ :: f₃ :: rest) :
    LineOutcome joblist line (loadLine joblist line) := by
  rw [loadLine_of_not_comment hcomment, ofLine_of_four h]
  cases hidx : parseInt f₀ with
  | none => exact .conversion (.inl ⟨f₀, by simp [h], hidx⟩)
  | some idx =>
      cases hdate : strptime '/' (strip f₁) with
      | none => exact .conversion (.inr ⟨f₁, by simp [h], hdate⟩)
      | some date =>
          simp only [orValueError, bind, Except.bind]
          by_cases hzero : idx = 0
          · rw [if_pos hzero]
            exact .indexZero ⟨f₀, by simp [h], hzero ▸ hidx⟩
          · rw [if_neg hzero]
            let j : JobObj := { JobObj.blank with
              idx := idx, job_name := strip f₂, comments := strip f₃, datetime := some date }
            have hj : JobFields line j := ⟨f₀, f₁, f₂, f₃, rest, date, h, hidx, hdate, rfl⟩
            exact .job j hj hzero

theorem outcome_of_not_oneShort (h : ¬OneShort line) :
    LineOutcome joblist line (loadLine joblist line) := by
  by_cases hcomment : IsComment line
  · rw [loadLine_of_comment hcomment]
    exact .comment hcomment
  rcases Nat.lt_trichotomy (fields line).length 3 with hshort | hthree | hlong
  · have hskip : loadLine joblist line = .ok joblist := by
      rw [loadLine_of_not_comment hcomment, ofLine_of_short hshort]
      rfl
    rw [hskip]
    exact .short (by simp only [fieldsRead]; omega)
  · obtain ⟨f₀, f₁, f₂, hfields⟩ := List.length_eq_three.mp hthree
    have hindex : parseInt f₀ = none := by
      cases hi : parseInt f₀ with
      | none => rfl
      | some i => exact absurd ⟨hcomment, hthree, f₀, i, by simp [hfields], hi⟩ h
    rw [loadLine_of_not_comment hcomment, ofLine_of_three hfields, hindex]
    exact .conversion (.inl ⟨f₀, by simp [hfields], hindex⟩)
  · obtain ⟨f₀, f₁, f₂, f₃, rest, hfields⟩ :
        ∃ f₀ f₁ f₂ f₃ rest, fields line = f₀ :: f₁ :: f₂ :: f₃ :: rest := by
      cases hf : fields line with
      | nil => simp [hf] at hlong
      | cons f₀ t =>
          cases t with
          | nil => simp [hf] at hlong
          | cons f₁ t =>
              cases t with
              | nil => simp [hf] at hlong
              | cons f₂ t =>
                  cases t with
                  | nil => simp [hf] at hlong
                  | cons f₃ rest => exact ⟨f₀, f₁, f₂, f₃, rest, rfl⟩
    exact outcome_of_four hcomment hfields

theorem LineOutcome.ne_indexError {r : Except PyError Joblist} (h : LineOutcome joblist line r) :
    r ≠ .error .indexError := by
  cases h <;> simp

theorem exists_loadLine_of_error {lines : List Str} {e : PyError}
    (h : lines.foldlM loadLine joblist = .error e) :
    ∃ line ∈ lines, ∃ joblist' : Joblist, loadLine joblist' line = .error e := by
  induction lines generalizing joblist with
  | nil => cases h
  | cons line lines ih =>
      rw [List.foldlM_cons] at h
      cases hline : loadLine joblist line with
      | error e' =>
          rw [hline] at h
          obtain rfl : e' = e := Except.error.inj h
          exact ⟨line, by simp, joblist, hline⟩
      | ok joblist' =>
          rw [hline] at h
          obtain ⟨line', hmem, hstep⟩ := ih h
          exact ⟨line', by simp [hmem], hstep⟩

/-- The short lines of a file are skipped exactly when none of them is on the
boundary of the test. -/
theorem skips_short_lines_iff (text : Str) :
    SkipsShortLines text ↔ ∀ line ∈ readLines text, ¬OneShort line := by
  constructor
  · intro h line hmem hshort
    apply (h.lines line hmem ∅).ne_indexError
    exact loadLine_of_oneShort hshort
  · intro h
    have hlines : ∀ line ∈ readLines text, ∀ joblist : Joblist,
        LineOutcome joblist line (loadLine joblist line) :=
      fun line hmem joblist ↦ outcome_of_not_oneShort (h line hmem)
    refine ⟨hlines, ?_⟩
    intro herror
    obtain ⟨line, hmem, joblist, hline⟩ := exists_loadLine_of_error herror
    exact (hlines line hmem joblist).ne_indexError hline

/-- A line without a comment, not even an empty one. -/
theorem not_skips_one_short : ¬SkipsShortLines "1,, 2017/12/30,, mazda call-back\n".toList := by
  intro h
  apply h.load
  decide +kernel

end EsNotebook.Todo
