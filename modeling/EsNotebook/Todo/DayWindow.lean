import EsNotebook.Lib.PyCalendar
import EsNotebook.Todo.Addressing

/-!
# The window of the display

`joblist_display` warns of every job that is overdue or due within a week,
whatever the number of days asked for, and lists the rest of the window behind
that.  A job whose year `strftime` refuses ends the display.
-/

namespace EsNotebook.Todo

open Py

/-- Midnight UTC of the day on which the job is due. -/
def JobObj.jtime (job : JobObj) : Option ℤ := job.datetime.bind timegm

def JobObj.dueBefore (job : JobObj) (limit : ℚ) : Bool :=
  job.jtime.any fun jtime : ℤ ↦ (jtime : ℚ) < limit

/-- The line of a job, marked by how urgent it is. -/
def JobObj.line (clock : Clock) (job : JobObj) : Option Shown := do
  let datetime ← job.datetime
  let jtime ← timegm datetime
  let date ← strftime '/' datetime
  some
    { level := if jtime < clock.now then .alert
        else if jtime < clock.now + 7 * 24 * 3600 then .notice else .plain
      idx := job.idx, date := date, job_name := job.job_name, comments := job.comments }

/-- The lines of the jobs with these keys that are due before `limit`. -/
def windowLines (clock : Clock) (joblist : Joblist) (limit : ℚ) (keys : List ℤ) : List Shown :=
  keys.filterMap fun x ↦ (joblist.lookup x).bind fun job ↦
    if job.dueBefore limit then job.line clock else none

/-- The keys before the first job that has no line. -/
def writableKeys (clock : Clock) (joblist : Joblist) (keys : List ℤ) : List ℤ :=
  keys.takeWhile fun x ↦ ((joblist.lookup x).bind (JobObj.line clock)).isSome

/-- What `joblist_display(joblist, days)` adds to the screen. -/
def displayed (env : Env) (clock : Clock) (session : Session) (days : ℤ) : List Shown :=
  (after (joblistDisplay env clock days) session).screen.drop session.screen.length

/-- The jobs due before `now + limitDays` days are shown, each once, as far as
they can be written. -/
structure ShowsWindow (env : Env) (clock : Clock) (session : Session) (days limitDays : ℤ) :
    Prop where
  shown : displayed env clock session days =
    windowLines clock session.joblist (clock.now + limitDays * 24 * 3600)
      (writableKeys clock session.joblist (env.keys session.joblist))
  once : (writableKeys clock session.joblist (env.keys session.joblist)).Nodup
  whole : (∀ x ∈ env.keys session.joblist, ∃ job line, session.joblist.lookup x = some job ∧
    job.line clock = some line) →
      writableKeys clock session.joblist (env.keys session.joblist) = env.keys session.joblist
  wider : ∀ days' ≥ days, ∀ line ∈ displayed env clock session days,
    line ∈ displayed env clock session days'

variable {env : Env} {clock : Clock} {joblist : Joblist} {job : JobObj} {days : ℤ}

/-! ## One job -/

theorem line_eq_some {d : Date} {jtime : ℤ} {date : Str} (hd : job.datetime = some d)
    (htime : timegm d = some jtime) (hdate : strftime '/' d = some date) :
    job.line clock = some
      { level := if jtime < clock.now then .alert
          else if jtime < clock.now + 7 * 24 * 3600 then .notice else .plain
        idx := job.idx, date := date, job_name := job.job_name, comments := job.comments } := by
  simp only [JobObj.line, hd, htime, hdate, Option.bind_eq_bind, Option.bind_some]

theorem lt_limit_iff (now : ℚ) (jtime days : ℤ) :
    (jtime : ℚ) < now + (max days 7 : ℤ) * 24 * 3600 ↔
      (jtime : ℚ) < now + 7 * 24 * 3600 ∨ (jtime : ℚ) < now + days * 24 * 3600 := by
  rcases le_total days 7 with hle | hle
  · have hcast : (days : ℚ) ≤ 7 := by exact_mod_cast hle
    rw [max_eq_right hle]
    constructor
    · intro h
      exact .inl (by exact_mod_cast h)
    · rintro (h | h)
      · exact_mod_cast h
      · push_cast
        linarith
  · have hcast : (7 : ℚ) ≤ days := by exact_mod_cast hle
    rw [max_eq_left hle]
    constructor
    · exact .inr
    · rintro (h | h)
      · linarith
      · exact h

/-- A job with a line is shown if it is due before the limit. -/
theorem displayJob_of_line (days : ℤ) {line : Shown} (h : job.line clock = some line) :
    displayJob clock days job = .ok
      (if job.dueBefore (clock.now + (max days 7 : ℤ) * 24 * 3600) then some line else none) := by
  obtain ⟨d, hd, h⟩ := Option.bind_eq_some_iff.mp h
  obtain ⟨jtime, htime, h⟩ := Option.bind_eq_some_iff.mp h
  obtain ⟨date, hdate, h⟩ := Option.bind_eq_some_iff.mp h
  obtain rfl := Option.some.inj h
  have hdue : job.dueBefore (clock.now + (max days 7 : ℤ) * 24 * 3600) = true ↔
      (jtime : ℚ) < clock.now + 7 * 24 * 3600 ∨ (jtime : ℚ) < clock.now + days * 24 * 3600 := by
    have hjtime : job.jtime = some jtime := by rw [JobObj.jtime, hd, Option.bind_some, htime]
    rw [JobObj.dueBefore, hjtime, Option.any_some, decide_eq_true_eq, lt_limit_iff]
  simp only [displayJob, hd, htime, hdate, orAttributeError, orValueError, bind, Except.bind, hdue]
  by_cases hover : (jtime : ℚ) < clock.now
  · have hweek : (jtime : ℚ) < clock.now + 7 * 24 * 3600 := by linarith
    simp [hover, hweek]
  · by_cases hweek : (jtime : ℚ) < clock.now + 7 * 24 * 3600
    · simp [hover, hweek]
    · by_cases hdays : (jtime : ℚ) < clock.now + days * 24 * 3600
      · simp [hover, hweek, hdays]
      · simp [hover, hweek, hdays]

/-- The days of 1899 are over where the year is 1900 or later. -/
theorem now_of_strftime_none {d : Date} {jtime : ℤ} (hoffset : clock.offset < 86400)
    (htime : timegm d = some jtime) (hdate : strftime '/' d = none) : (jtime : ℚ) < clock.now := by
  have hyear : d.year < 1900 := by
    by_contra hge
    rw [strftime_of_year_ge (Nat.le_of_not_lt hge)] at hdate
    cases hdate
  have hordinal := Date.year_lt_iff.mp hyear
  have htoday := Date.year_lt_iff.not.mp (Nat.not_lt.mpr clock.year_ge)
  have hlocal := ordinal_of_localtime clock.localtime_now
  unfold timegm at htime
  split_ifs at htime
  obtain rfl := Option.some.inj htime
  have hday : ((d.ordinal : ℤ) - epochOrdinal) * 86400 < ⌊clock.now⌋ := by omega
  exact lt_of_lt_of_le (by exact_mod_cast hday) (Int.floor_le clock.now)

/-- A job without a line ends the display. -/
theorem displayJob_of_line_eq_none (hoffset : clock.offset < 86400)
    (h : job.line clock = none) : ∃ e, displayJob clock days job = .error e := by
  cases hd : job.datetime with
  | none => exact ⟨.attributeError, by simp [displayJob, hd, orAttributeError, bind, Except.bind]⟩
  | some d =>
      cases htime : timegm d with
      | none =>
          exact ⟨.valueError, by
            simp [displayJob, hd, htime, orAttributeError, orValueError, bind, Except.bind]⟩
      | some jtime =>
          cases hdate : strftime '/' d with
          | none =>
              have hover := now_of_strftime_none hoffset htime hdate
              refine ⟨.valueError, ?_⟩
              simp [displayJob, hd, htime, hdate, hover, orAttributeError, orValueError, bind,
                Except.bind]
          | some date =>
              rw [line_eq_some hd htime hdate] at h
              cases h

/-! ## All jobs -/

theorem writableKeys_eq_self {keys : List ℤ}
    (h : ∀ x ∈ keys, ∃ job line, joblist.lookup x = some job ∧ job.line clock = some line) :
    writableKeys clock joblist keys = keys := by
  apply List.takeWhile_eq_self_iff.mpr
  intro x hx
  obtain ⟨job, line, hjob, hline⟩ := h x hx
  rw [hjob, Option.bind_some, hline]
  rfl

/-- The loop over the keys of a dict, up to the first job without a line. -/
theorem screen_displayJobs (hoffset : clock.offset < 86400) (keys : List ℤ) (session : Session) :
    (after (displayJobs clock days keys) session).screen = session.screen ++
      windowLines clock session.joblist (clock.now + (max days 7 : ℤ) * 24 * 3600)
        (writableKeys clock session.joblist keys) := by
  induction keys generalizing session with
  | nil => simp [after, displayJobs, EStateM.run_pure, writableKeys, windowLines]
  | cons x keys ih =>
      cases hjob : session.joblist.lookup x with
      | none =>
          simp [after, displayJobs, EStateM.run_bind, EStateM.run_get, hjob, orKeyError,
            run_ofExcept_error, writableKeys, windowLines]
      | some job =>
          cases hline : job.line clock with
          | none =>
              obtain ⟨e, he⟩ : ∃ e, displayJob clock days job = .error e :=
                displayJob_of_line_eq_none hoffset hline
              simp [after, displayJobs, EStateM.run_bind, EStateM.run_get, hjob, hline, he,
                orKeyError, run_ofExcept, run_ofExcept_error, writableKeys, windowLines]
          | some line =>
              have hshow := displayJob_of_line days hline
              have hrest := ih { session with screen := session.screen ++
                (if job.dueBefore (clock.now + (max days 7 : ℤ) * 24 * 3600)
                  then some line else none).toList }
              simp only [after, displayJobs, EStateM.run_bind, EStateM.run_get, hjob, orKeyError,
                run_ofExcept, hshow, EStateM.run_set] at hrest ⊢
              rw [hrest]
              have hwrites : writableKeys clock session.joblist (x :: keys) =
                  x :: writableKeys clock session.joblist keys := by
                rw [writableKeys, List.takeWhile_cons_of_pos (by simp [hjob, hline]), writableKeys]
              rw [hwrites, windowLines, windowLines, List.filterMap_cons, hjob, Option.bind_some,
                hline]
              split_ifs
              · rw [Option.toList_some, List.append_assoc, List.singleton_append]
              · rw [Option.toList_none, List.append_nil]

theorem displayed_eq (hoffset : clock.offset < 86400) (session : Session) (days : ℤ) :
    displayed env clock session days =
      windowLines clock session.joblist (clock.now + (max days 7 : ℤ) * 24 * 3600)
        (writableKeys clock session.joblist (env.keys session.joblist)) := by
  have hrun : after (joblistDisplay env clock days) session =
      after (displayJobs clock days (env.keys session.joblist)) session :=
    after_eq (joblistDisplay_run days session)
  rw [displayed, hrun, screen_displayJobs hoffset, List.drop_left]

theorem windowLines_mono {limit limit' : ℚ} (h : limit ≤ limit') {keys : List ℤ} {line : Shown}
    (hline : line ∈ windowLines clock joblist limit keys) :
    line ∈ windowLines clock joblist limit' keys := by
  obtain ⟨x, hx, hline⟩ := List.mem_filterMap.mp hline
  obtain ⟨job, hjob, hline⟩ := Option.bind_eq_some_iff.mp hline
  apply List.mem_filterMap.mpr
  refine ⟨x, hx, Option.bind_eq_some_iff.mpr ⟨job, hjob, ?_⟩⟩
  split_ifs at hline with hdue
  have hlater : job.dueBefore limit' = true := by
    unfold JobObj.dueBefore at *
    obtain ⟨jtime, hjtime, hlt⟩ := (Option.any_eq_true _ _).mp hdue
    apply (Option.any_eq_true _ _).mpr
    exact ⟨jtime, hjtime, decide_eq_true ((of_decide_eq_true hlt).trans_le h)⟩
  rw [if_pos hlater]
  exact hline

/-- A job that is due on 2018/01/15. -/
def nearJob : JobObj :=
  { JobObj.blank with idx := 1, job_name := ['p', 'a', 'y'], datetime := Date.of? 2018 1 15 }

def nearSession : Session :=
  { joblist := AList.insert 1 nearJob ∅, remote := twoTasks, answers := [], screen := [] }

end EsNotebook.Todo
