import EsNotebook.Todo.JobObj

/-!
# The todo file

`joblist_load_txt` and the lines that `show(1)` writes.  A job survives being
written and read again unless its name ends with a comma: the writer puts the
separator right behind the name, and the reader takes the first two commas.
-/

namespace EsNotebook.Todo

open Py

/-- One turn of the loop over the lines. -/
def loadLine (joblist : Joblist) (line : Str) : Except PyError Joblist :=
  let lstrip := strip line
  if ['#'].isPrefixOf lstrip then .ok joblist
  else do
    let test1 ← JobObj.ofLine lstrip
    if test1.idx = 0 then .ok joblist
    else .ok (joblist.insert test1.idx test1)

/-- `joblist_load_txt` on a file with this content. -/
def joblistLoadTxt (text : Str) : Except PyError Joblist :=
  (readLines text).foldlM loadLine ∅

/-- The jobs of a joblist, in the order of its entries. -/
def Joblist.jobs (joblist : Joblist) : List JobObj := joblist.entries.map Sigma.snd

/-- The text of `show(1)` for the jobs in this order, one per line. -/
def showAll (jobs : List JobObj) : Except PyError Str :=
  jobs.foldrM (fun j text ↦ do
    let line ← j.show1
    .ok (line ++ '\n' :: text)) []

/-- What a user sees of a job, apart from its index. -/
def JobObj.content (j : JobObj) : Option Date × Str × Str := (j.datetime, j.job_name, j.comments)

/-- The same indexes and, for each, the same date, name and comments. -/
def SameJobs (a b : Joblist) : Prop :=
  ∀ i, (a.lookup i).map JobObj.content = (b.lookup i).map JobObj.content

/-- Writing the jobs in any order and reading them again changes nothing. -/
def Lossless (joblist : Joblist) : Prop :=
  ∀ order, order.Perm joblist.jobs →
    ∃ text joblist', showAll order = .ok text ∧ joblistLoadTxt text = .ok joblist' ∧
      SameJobs joblist joblist'

/-- A field as `split` and `strip` leave it. -/
structure Field (s : Str) : Prop where
  stripped : Stripped s
  no_sep : ¬columnSep <:+: s
  no_newline : '\n' ∉ s

/-- A job as the reader makes it. -/
structure Loaded (i : ℤ) (j : JobObj) : Prop where
  idx : j.idx = i
  ne_zero : i ≠ 0
  datetime : ∃ d, j.datetime = some d ∧ d.year ≤ 9999
  job_name : Field j.job_name
  comments : Field j.comments

theorem field_of_mem_split {s f : Str} (h : f ∈ split columnSep s) (hs : '\n' ∉ s) :
    Field (strip f) := by
  obtain ⟨hsep, hin⟩ := splitAux_pieces (by decide) h
  exact
    { stripped := stripped_strip f
      no_sep := fun hin ↦ hsep (hin.trans (infix_of_strip f))
      no_newline := fun hmem ↦ hs (hin.subset (mem_strip hmem)) }

theorem loaded_of_ofLine {s : Str} {j : JobObj} (h : JobObj.ofLine s = .ok j)
    (hs : '\n' ∉ strip s) (hidx : j.idx ≠ 0) : Loaded j.idx j := by
  unfold JobObj.ofLine at h
  split at h
  case h_1 fieldId fieldDate fieldJobname rest hsplit =>
    obtain ⟨idx, -, h⟩ := bind_eq_ok_iff.mp h
    cases rest with
    | nil => cases h
    | cons fieldComment rest =>
        obtain ⟨date, hdate, h⟩ := bind_eq_ok_iff.mp h
        obtain rfl := Except.ok.inj h
        exact
          { idx := rfl
            ne_zero := hidx
            datetime := ⟨date, rfl, strptime_year_le (orValueError_eq_ok_iff.mp hdate)⟩
            job_name := field_of_mem_split (by rw [hsplit]; simp) hs
            comments := field_of_mem_split (by rw [hsplit]; simp) hs }
  case h_2 =>
    obtain rfl := Except.ok.inj h
    exact absurd rfl hidx

theorem loadLine_loaded {joblist joblist' : Joblist} {line : Str} (hline : '\n' ∉ strip line)
    (hall : ∀ i j, joblist.lookup i = some j → Loaded i j)
    (h : loadLine joblist line = .ok joblist') {i : ℤ} {j : JobObj}
    (hj : joblist'.lookup i = some j) : Loaded i j := by
  unfold loadLine at h
  dsimp only at h
  split at h
  · obtain rfl := Except.ok.inj h
    exact hall i j hj
  · obtain ⟨test1, htest, h⟩ := bind_eq_ok_iff.mp h
    split at h
    · obtain rfl := Except.ok.inj h
      exact hall i j hj
    · rename_i hidx
      obtain rfl := Except.ok.inj h
      by_cases hi : i = test1.idx
      · subst hi
        rw [AList.lookup_insert] at hj
        obtain rfl := Option.some.inj hj
        exact loaded_of_ofLine htest (by simpa using hline) hidx
      · rw [AList.lookup_insert_ne hi] at hj
        exact hall i j hj

theorem loaded_of_joblistLoadTxt {text : Str} {joblist : Joblist}
    (h : joblistLoadTxt text = .ok joblist) {i : ℤ} {j : JobObj}
    (hj : joblist.lookup i = some j) : Loaded i j := by
  have hlines (lines : List Str) (acc : Joblist) (hnl : ∀ l ∈ lines, '\n' ∉ strip l)
      (hacc : ∀ i j, acc.lookup i = some j → Loaded i j)
      (hload : lines.foldlM loadLine acc = .ok joblist) :
      ∀ i j, joblist.lookup i = some j → Loaded i j := by
    induction lines generalizing acc with
    | nil =>
        obtain rfl : acc = joblist := Except.ok.inj hload
        exact hacc
    | cons l lines ih =>
        rw [List.foldlM_cons] at hload
        obtain ⟨acc', hstep, hload⟩ := bind_eq_ok_iff.mp hload
        refine ih acc' (fun l hl ↦ hnl l (by simp [hl])) ?_ hload
        intro i j hj
        exact loadLine_loaded (hnl l (by simp)) hacc hstep hj
  refine hlines _ ∅ (fun l hl ↦ newline_notMem_strip_of_mem_readLines hl) ?_ h i j hj
  simp

/-! ## Reading a written line -/

theorem clear_columnSep {f : Str} (hsep : ¬columnSep <:+: f) (hlast : f.getLast? ≠ some ',') :
    Clear columnSep f := by
  intro t ht hne hpre
  match t, hne with
  | [c], _ =>
      obtain rfl : ',' = c := by simpa [columnSep] using hpre
      obtain ⟨init, rfl⟩ := ht
      simp at hlast
  | c :: c' :: t, _ =>
      obtain ⟨rfl, rfl⟩ : ',' = c ∧ ',' = c' := by simpa [columnSep] using hpre
      apply hsep
      have hshort : columnSep <+: ',' :: ',' :: t := by simp [columnSep]
      exact hshort.isInfix.trans ht.isInfix

theorem clear_of_notMem {f : Str} (h : ',' ∉ f) : Clear columnSep f := by
  apply clear_columnSep
  · exact fun hin ↦ h (hin.subset (by simp [columnSep]))
  · exact fun hlast ↦ h (List.mem_of_getLast? hlast)

theorem clear_cons_space {f : Str} (hsep : ¬columnSep <:+: f) (hlast : f.getLast? ≠ some ',') :
    Clear columnSep (' ' :: f) := by
  apply clear_columnSep
  · intro hin
    rcases List.infix_cons_iff.mp hin with hp | hin
    · simp [columnSep] at hp
    · exact hsep hin
  · cases f with
    | nil => simp
    | cons c f => simpa using hlast

theorem ofLine_of_fields {a d n tail f : Str} {rest : List Str} {idx : ℤ} {date : Date}
    (ha : Clear columnSep a) (hd : Clear columnSep (' ' :: d)) (hn : Clear columnSep (' ' :: n))
    (hidx : parseInt a = some idx) (hdate : strptime '/' (strip (' ' :: d)) = some date)
    (htail : split columnSep tail = f :: rest)
    (hstrip : Stripped (a ++ columnSep ++ (' ' :: d ++ columnSep ++ (' ' :: n ++ columnSep ++ tail)))) :
    JobObj.ofLine (a ++ columnSep ++ (' ' :: d ++ columnSep ++ (' ' :: n ++ columnSep ++ tail))) =
      .ok { JobObj.blank with
        idx := idx, job_name := strip (' ' :: n), comments := strip f, datetime := some date } := by
  have hsep : columnSep ≠ [] := by decide
  rw [JobObj.ofLine, strip_of_stripped hstrip, split_append hsep ha, split_append hsep hd,
    split_append hsep hn, htail]
  simp only [hidx, hdate, orValueError]
  rfl

/-- A printed line, up to what follows the name. -/
def linePrefix (idx : ℤ) (date name : Str) : Str :=
  formatInt idx ++ columnSep ++ (' ' :: date ++ columnSep ++ (' ' :: name ++ columnSep))

theorem stripped_linePrefix_append (idx : ℤ) (date name : Str) {tail : Str}
    (h : ∀ c, tail.getLast? = some c → isSpace c = false) :
    Stripped (linePrefix idx date name ++ tail) := by
  constructor
  · intro c hc
    obtain ⟨b, bs, hb⟩ := List.exists_cons_of_ne_nil (formatInt_ne_nil idx)
    have hmem : b ∈ formatInt idx := by simp [hb]
    obtain rfl : b = c := by simpa [linePrefix, hb] using hc
    exact not_isSpace_of_mem_formatInt hmem
  · intro c hc
    rw [List.getLast?_append] at hc
    cases htail : tail.getLast? with
    | some c' =>
        obtain rfl : c' = c := by simpa [htail] using hc
        exact h c' htail
    | none =>
        have hends : linePrefix idx date name = formatInt idx ++ columnSep ++
            (' ' :: date ++ columnSep ++ (' ' :: name ++ [','])) ++ [','] := by
          simp [linePrefix, columnSep]
        rw [htail, Option.none_or, hends, List.getLast?_concat] at hc
        obtain rfl := Option.some.inj hc
        rfl

theorem loadLine_append_newline {idx : ℤ} {date name tail body : Str} {j : JobObj}
    (hbody : strip body = linePrefix idx date name ++ tail)
    (hparse : JobObj.ofLine (linePrefix idx date name ++ tail) = .ok j) (hidx : j.idx ≠ 0)
    (joblist : Joblist) :
    loadLine joblist (body ++ ['\n']) = .ok (joblist.insert j.idx j) := by
  have hhash : ¬['#'].isPrefixOf (linePrefix idx date name ++ tail) := by
    obtain ⟨b, bs, hb⟩ := List.exists_cons_of_ne_nil (formatInt_ne_nil idx)
    have hmem : b ∈ formatInt idx := by simp [hb]
    have hne : '#' ≠ b := by
      rintro rfl
      rcases mem_formatInt hmem with h | h <;> revert h <;> decide
    simp [linePrefix, hb, hne]
  simp only [loadLine, strip_concat_space (c := '\n') rfl, hbody, if_neg hhash, hparse]
  simp only [bind, Except.bind, if_neg hidx]

/-- `j` is written as a line that is read as `j'`. -/
def Reads (j j' : JobObj) : Prop :=
  ∃ line, j.show1 = .ok line ∧ '\n' ∉ line ∧
    ∀ joblist : Joblist, loadLine joblist (line ++ ['\n']) = .ok (joblist.insert j.idx j')

/-- The end of a line: a comment behind its blank, or nothing. -/
def lineTail (comments : Str) : Str := if comments = [] then [] else ' ' :: comments

theorem lineTail_last {comments : Str} (h : Stripped comments) {c : Char}
    (hc : (lineTail comments).getLast? = some c) : isSpace c = false := by
  unfold lineTail at hc
  split at hc
  case isTrue => cases hc
  case isFalse hne =>
    apply h.last
    simpa [List.getLast?_cons, List.getLast?_eq_some_getLast hne] using hc

theorem append_lineTail_last {more comments : Str} (h : Stripped comments)
    (hmore : ∀ c, more.getLast? = some c → isSpace c = false) (c : Char)
    (hc : (more ++ lineTail comments).getLast? = some c) : isSpace c = false := by
  rw [List.getLast?_append] at hc
  cases htail : (lineTail comments).getLast? with
  | none =>
      rw [htail, Option.none_or] at hc
      exact hmore c hc
  | some c' =>
      rw [htail, Option.some_or] at hc
      obtain rfl := Option.some.inj hc
      exact lineTail_last h htail

/-- `more` is what the name adds behind the separator that is found first. -/
theorem strip_linePrefix {idx : ℤ} {date n more comments : Str} (h : Stripped comments)
    (hmore : ∀ c, more.getLast? = some c → isSpace c = false) :
    strip (linePrefix idx date n ++ more ++ ' ' :: comments) =
      linePrefix idx date n ++ (more ++ lineTail comments) := by
  have hstripped := stripped_linePrefix_append idx date n (append_lineTail_last h hmore)
  by_cases hnil : comments = []
  · subst hnil
    have htail : lineTail [] = [] := rfl
    rw [htail, List.append_nil] at hstripped ⊢
    rw [strip_concat_space rfl, strip_of_stripped hstripped]
  · have htail : lineTail comments = ' ' :: comments := if_neg hnil
    rw [htail] at hstripped ⊢
    rw [List.append_assoc, strip_of_stripped hstripped]

theorem show1_eq {j : JobObj} {d : Date} {date : Str} (hdate : j.datetime = some d)
    (hwrite : strftime '/' d = some date) :
    j.show1 = .ok (linePrefix j.idx date j.job_name ++ ' ' :: j.comments) := by
  simp [JobObj.show1, hdate, hwrite, orValueError, linePrefix, bind, Except.bind]

/-- Reading a printed line whose name, up to the separator, is `n`. -/
theorem ofLine_linePrefix (idx : ℤ) {d : Date} {date n tail f : Str} {rest : List Str}
    (hwrite : strftime '/' d = some date) (hread : strptime '/' date = some d)
    (hn : Clear columnSep (' ' :: n)) (htail : split columnSep tail = f :: rest)
    (hlast : ∀ c, tail.getLast? = some c → isSpace c = false) :
    JobObj.ofLine (linePrefix idx date n ++ tail) =
      .ok { JobObj.blank with
        idx := idx, job_name := strip (' ' :: n), comments := strip f, datetime := some d } := by
  have hdate {c : Char} (hc : c ∈ date) : isSpace c = false ∧ c ≠ ',' := by
    rcases mem_strftime hwrite hc with h | rfl
    · exact ⟨not_isSpace_of_isDigit h, by rintro rfl; simp at h⟩
    · decide
  have hstrip : strip (' ' :: date) = date := by
    rw [strip_cons_space rfl]
    exact strip_of_stripped ⟨fun c hc ↦ (hdate (List.mem_of_head? hc)).1,
      fun c hc ↦ (hdate (List.mem_of_getLast? hc)).1⟩
  have ha : Clear columnSep (formatInt idx) := by
    apply clear_of_notMem
    intro hmem
    rcases mem_formatInt hmem with h | h <;> revert h <;> decide
  have hd : Clear columnSep (' ' :: date) := by
    apply clear_of_notMem
    intro hmem
    rcases List.mem_cons.mp hmem with h | h
    · revert h
      decide
    · exact (hdate h).2 rfl
  have hwhole : linePrefix idx date n ++ tail = formatInt idx ++ columnSep ++
      (' ' :: date ++ columnSep ++ (' ' :: n ++ columnSep ++ tail)) := by
    simp [linePrefix]
  rw [hwhole]
  apply ofLine_of_fields ha hd hn (parseInt_formatInt idx) (hstrip.symm ▸ hread) htail
  rw [← hwhole]
  exact stripped_linePrefix_append idx date n hlast

theorem Loaded.newline_notMem {i : ℤ} {j : JobObj} {d : Date} {date : Str} (h : Loaded i j)
    (hwrite : strftime '/' d = some date) :
    '\n' ∉ linePrefix j.idx date j.job_name ++ ' ' :: j.comments := by
  have hidx : '\n' ∉ formatInt j.idx := by
    intro hmem
    rcases mem_formatInt hmem with h | h <;> revert h <;> decide
  have hdate : '\n' ∉ date := by
    intro hmem
    rcases mem_strftime hwrite hmem with h | h <;> revert h <;> decide
  simp [linePrefix, columnSep, hidx, hdate, h.job_name.no_newline, h.comments.no_newline]

theorem Loaded.reads {i : ℤ} {j : JobObj} {d : Date} {date n more f : Str} {rest : List Str}
    (h : Loaded i j) (hdate : j.datetime = some d) (hwrite : strftime '/' d = some date)
    (hread : strptime '/' date = some d)
    (hname : linePrefix j.idx date j.job_name = linePrefix j.idx date n ++ more)
    (hmore : ∀ c, more.getLast? = some c → isSpace c = false) (hn : Clear columnSep (' ' :: n))
    (htail : split columnSep (more ++ lineTail j.comments) = f :: rest) :
    Reads j { JobObj.blank with
      idx := j.idx, job_name := strip (' ' :: n), comments := strip f, datetime := some d } := by
  have hne : j.idx ≠ 0 := h.idx ▸ h.ne_zero
  have hparse := ofLine_linePrefix j.idx hwrite hread hn htail
    (append_lineTail_last h.comments.stripped hmore)
  refine ⟨_, show1_eq hdate hwrite, h.newline_notMem hwrite, ?_⟩
  rw [hname]
  exact loadLine_append_newline (strip_linePrefix h.comments.stripped hmore) hparse hne

theorem split_lineTail {comments : Str} (h : Field comments) :
    ∃ f, split columnSep (lineTail comments) = [f] ∧ strip f = comments := by
  unfold lineTail
  split
  case isTrue hnil => exact ⟨[], rfl, by simp [hnil]⟩
  case isFalse =>
    refine ⟨' ' :: comments, split_of_not_infix ?_, ?_⟩
    · intro hin
      rcases List.infix_cons_iff.mp hin with hp | hin
      · simp [columnSep] at hp
      · exact h.no_sep hin
    · rw [strip_cons_space rfl, strip_of_stripped h.stripped]

/-- What is read of a written job: all of it, unless the name ends with a
comma. -/
theorem exists_reads {i : ℤ} {j : JobObj} (h : Loaded i j)
    (hyear : ∀ d ∈ j.datetime, 1900 ≤ d.year) :
    ∃ j', Reads j j' ∧ (j'.content = j.content ↔ j.job_name.getLast? ≠ some ',') := by
  obtain ⟨d, hdate, hhigh⟩ := h.datetime
  obtain ⟨date, hwrite, hread⟩ := strptime_strftime '/' (hyear d hdate) hhigh
  by_cases hcomma : j.job_name.getLast? = some ','
  · -- the separator is found one comma too early
    obtain ⟨n, hname⟩ := List.getLast?_eq_some_iff.mp hcomma
    have hpre : linePrefix j.idx date j.job_name = linePrefix j.idx date n ++ [','] := by
      simp [hname, linePrefix, columnSep]
    have hclear : Clear columnSep (' ' :: n) := by
      apply clear_cons_space
      · intro hin
        apply h.job_name.no_sep
        rw [hname]
        exact hin.trans (List.prefix_append n [',']).isInfix
      · intro hlast
        obtain ⟨m, hm⟩ := List.getLast?_eq_some_iff.mp hlast
        apply h.job_name.no_sep
        exact ⟨m, [], by simp [hname, hm, columnSep]⟩
    obtain ⟨f, rest, htail⟩ := List.exists_cons_of_ne_nil
      (splitAux_ne_nil columnSep 0 ([','] ++ lineTail j.comments))
    have hlast : ∀ c, [','].getLast? = some c → isSpace c = false := by
      rintro c hc
      obtain rfl : ',' = c := by simpa using hc
      rfl
    refine ⟨_, h.reads hdate hwrite hread hpre hlast hclear htail, ?_⟩
    have hshort : strip (' ' :: n) ≠ j.job_name := by
      intro heq
      have hle := strip_length_le n
      rw [strip_cons_space rfl, hname] at heq
      rw [heq, List.length_append, List.length_singleton] at hle
      omega
    simp [JobObj.content, hcomma, hshort]
  · obtain ⟨f, htail, hf⟩ := split_lineTail h.comments
    refine ⟨_, h.reads hdate hwrite hread (List.append_nil _).symm (by simp)
      (clear_cons_space h.job_name.no_sep hcomma) htail, ?_⟩
    have hname : strip (' ' :: j.job_name) = j.job_name := by
      rw [strip_cons_space rfl, strip_of_stripped h.job_name.stripped]
    simp [JobObj.content, hdate, hf, hname, hcomma]

/-! ## Reading the whole file -/

theorem lookup_foldl_insert_of_notMem {jobs : List JobObj} {g : JobObj → JobObj} {i : ℤ}
    (h : i ∉ jobs.map JobObj.idx) (joblist : Joblist) :
    (jobs.foldl (fun acc j ↦ acc.insert j.idx (g j)) joblist).lookup i = joblist.lookup i := by
  induction jobs generalizing joblist with
  | nil => rfl
  | cons j jobs ih =>
      obtain ⟨hne, hrest⟩ : i ≠ j.idx ∧ i ∉ jobs.map JobObj.idx := by simpa using h
      rw [List.foldl_cons, ih hrest, AList.lookup_insert_ne hne]

theorem lookup_foldl_insert {jobs : List JobObj} {g : JobObj → JobObj} {j : JobObj}
    (hnodup : (jobs.map JobObj.idx).Nodup) (hj : j ∈ jobs) (joblist : Joblist) :
    (jobs.foldl (fun acc j ↦ acc.insert j.idx (g j)) joblist).lookup j.idx = some (g j) := by
  induction jobs generalizing joblist with
  | nil => cases hj
  | cons j' jobs ih =>
      obtain ⟨hnot, hrest⟩ := List.nodup_cons.mp hnodup
      rw [List.foldl_cons]
      rcases List.mem_cons.mp hj with rfl | hj
      · rw [lookup_foldl_insert_of_notMem hnot, AList.lookup_insert]
      · exact ih hrest hj _

/-- The file of jobs that are read as `g` says is read as their dict. -/
theorem load_showAll {jobs : List JobObj} {g : JobObj → JobObj}
    (h : ∀ j ∈ jobs, Reads j (g j)) :
    ∃ text, showAll jobs = .ok text ∧ ∀ joblist : Joblist,
      (readLines text).foldlM loadLine joblist =
        .ok (jobs.foldl (fun acc j ↦ acc.insert j.idx (g j)) joblist) := by
  induction jobs with
  | nil => exact ⟨[], rfl, fun _ ↦ rfl⟩
  | cons j jobs ih =>
      obtain ⟨text, htext, hload⟩ := ih fun j' hj' ↦ h j' (by simp [hj'])
      obtain ⟨line, hline, hnl, hstep⟩ := h j (by simp)
      refine ⟨line ++ '\n' :: text, ?_, fun joblist ↦ ?_⟩
      · rw [showAll] at htext ⊢
        rw [List.foldrM_cons, htext]
        simp only [bind, Except.bind, hline]
      · rw [readLines_append hnl, List.foldlM_cons, hstep]
        exact hload _

theorem Joblist.jobs_nodup {joblist : Joblist}
    (h : ∀ i j, joblist.lookup i = some j → Loaded i j) :
    (joblist.jobs.map JobObj.idx).Nodup := by
  have hkeys : joblist.jobs.map JobObj.idx = joblist.keys := by
    rw [Joblist.jobs, List.map_map]
    apply List.map_congr_left
    rintro ⟨i, j⟩ hmem
    exact (h i j (AList.mem_lookup_iff.mpr hmem)).idx
  rw [hkeys]
  exact joblist.keys_nodup

theorem Joblist.mem_jobs_iff {joblist : Joblist}
    (h : ∀ i j, joblist.lookup i = some j → Loaded i j) {j : JobObj} :
    j ∈ joblist.jobs ↔ joblist.lookup j.idx = some j := by
  rw [Joblist.jobs, List.mem_map]
  constructor
  · rintro ⟨⟨i, j'⟩, hmem, rfl⟩
    have hlookup : joblist.lookup i = some j' := AList.mem_lookup_iff.mpr hmem
    rw [(h i j' hlookup).idx]
    exact hlookup
  · intro hlookup
    exact ⟨⟨j.idx, j⟩, AList.mem_lookup_iff.mp hlookup, rfl⟩

/-- Rewriting a loaded file is lossless exactly when no name in it ends with
a comma. -/
theorem lossless_iff_no_name_ends_with_comma (text : Str) (joblist : Joblist)
    (hload : joblistLoadTxt text = .ok joblist)
    (hyear : ∀ j ∈ joblist.jobs, ∀ d ∈ j.datetime, 1900 ≤ d.year) :
    Lossless joblist ↔ ∀ j ∈ joblist.jobs, j.job_name.getLast? ≠ some ',' := by
  have hall : ∀ i j, joblist.lookup i = some j → Loaded i j :=
    fun i j ↦ loaded_of_joblistLoadTxt hload
  have hreads : ∀ j ∈ joblist.jobs, ∃ j', Reads j j' ∧
      (j'.content = j.content ↔ j.job_name.getLast? ≠ some ',') := by
    intro j hj
    exact exists_reads (hall _ j ((Joblist.mem_jobs_iff hall).mp hj)) (hyear j hj)
  choose! g hg using hreads
  have hnodup := Joblist.jobs_nodup hall
  constructor
  · intro h j hj
    obtain ⟨text', joblist', htext', hload', hsame⟩ := h _ (List.Perm.refl _)
    obtain ⟨text'', htext'', hfold⟩ := load_showAll fun j hj ↦ (hg j hj).1
    obtain rfl : text' = text'' := Except.ok.inj (htext'.symm.trans htext'')
    have hjoblist' := Except.ok.inj (hload'.symm.trans (hfold ∅))
    have hcontent := hsame j.idx
    rw [hjoblist', lookup_foldl_insert hnodup hj, (Joblist.mem_jobs_iff hall).mp hj] at hcontent
    exact (hg j hj).2.mp (Option.some.inj hcontent).symm
  · intro h order horder
    obtain ⟨text', htext', hfold⟩ := load_showAll fun j hj ↦ (hg j (horder.subset hj)).1
    refine ⟨text', _, htext', hfold ∅, fun i ↦ ?_⟩
    have hnodup' : (order.map JobObj.idx).Nodup :=
      (List.Perm.nodup_iff (horder.map _)).mpr hnodup
    cases hlookup : joblist.lookup i with
    | none =>
        have hnot : i ∉ order.map JobObj.idx := by
          intro hmem
          obtain ⟨j, hj, rfl⟩ := List.mem_map.mp hmem
          rw [(Joblist.mem_jobs_iff hall).mp (horder.subset hj)] at hlookup
          cases hlookup
        rw [lookup_foldl_insert_of_notMem hnot]
        rfl
    | some j =>
        obtain rfl : j.idx = i := (hall i j hlookup).idx
        have hj : j ∈ joblist.jobs := (Joblist.mem_jobs_iff hall).mpr hlookup
        rw [lookup_foldl_insert hnodup' (horder.mem_iff.mpr hj)]
        exact congrArg some ((hg j hj).2.mpr (h j hj)).symm

/-- Two lines of the stored file. -/
theorem lossless_two_lines :
    ∃ joblist : Joblist,
      joblistLoadTxt ("1,, 2017/12/30,, mazda call-back,, repair\n" ++
        "32,, 2018/01/11,, csi implement,, \n").toList = .ok joblist ∧ Lossless joblist := by
  have hload : (match joblistLoadTxt ("1,, 2017/12/30,, mazda call-back,, repair\n" ++
      "32,, 2018/01/11,, csi implement,, \n").toList with
      | .ok joblist => decide ((∀ j ∈ joblist.jobs, ∀ d ∈ j.datetime, 1900 ≤ d.year) ∧
          ∀ j ∈ joblist.jobs, j.job_name.getLast? ≠ some ',')
      | .error _ => false) = true := by decide +kernel
  split at hload
  case h_1 joblist hok =>
    obtain ⟨hyear, hname⟩ := of_decide_eq_true hload
    exact ⟨joblist, hok, (lossless_iff_no_name_ends_with_comma _ _ hok hyear).mpr hname⟩
  case h_2 => cases hload

/-- The name `a,` is read back as `a`. -/
theorem not_lossless_comma :
    ¬∀ text joblist, joblistLoadTxt text = .ok joblist →
      (∀ j ∈ joblist.jobs, ∀ d ∈ j.datetime, 1900 ≤ d.year) → Lossless joblist := by
  intro h
  have hload : (match joblistLoadTxt "1,, 2017/12/30,, a, ,, c\n".toList with
      | .ok joblist => decide (∀ j ∈ joblist.jobs, ∀ d ∈ j.datetime, 1900 ≤ d.year) &&
          match showAll joblist.jobs with
          | .ok text =>
              match joblistLoadTxt text with
              | .ok joblist' => decide ((joblist.lookup 1).map JobObj.content ≠
                  (joblist'.lookup 1).map JobObj.content)
              | .error _ => false
          | .error _ => false
      | .error _ => false) = true := by decide +kernel
  split at hload
  case h_1 joblist hok =>
    obtain ⟨hyear, hlost⟩ := Bool.and_eq_true_iff.mp hload
    obtain ⟨text, joblist', htext, hload', hsame⟩ :=
      h _ joblist hok (of_decide_eq_true hyear) _ (List.Perm.refl _)
    rw [htext] at hlost
    simp only [hload'] at hlost
    exact of_decide_eq_true hlost (hsame 1)
  case h_2 => cases hload

end EsNotebook.Todo
