import EsNotebook.Todo.Addressing

/-!
# Adding a job

`joblist_add` leaves early for several reasons before it changes anything.
Once it is confirmed it puts the new job into the joblist and saves the whole
joblist, of which only the new job has an effect.
-/

namespace EsNotebook.Todo

open Py

/-- No job is new or marked, and each has a date. -/
structure JustLoaded (joblist : Joblist) : Prop where
  gid : ∀ i job, joblist.lookup i = some job → job.gid ≠ newGid
  actreq : ∀ i job, joblist.lookup i = some job → job.actreq = .none
  dated : ∀ i job, joblist.lookup i = some job → ∃ d, job.datetime = some d

/-- The dates of the jobs can be written. -/
def JobsPrintable (joblist : Joblist) : Prop :=
  ∀ i job d, joblist.lookup i = some job → job.datetime = some d → Printable d

/-- The answers name the date, the name and the comment of a job that is not
due in the past, and confirm it. -/
def Confirmed (clock : Clock) (answers : List Str) (datenew : Date) (job_name comments : Str) :
    Prop :=
  ∃ test got rest, answers = test :: job_name :: comments :: got :: rest ∧
    addDate clock test = .ok (some datenew) ∧ Printable datenew ∧ (got = ['y'] ∨ got = ['Y'])

/-- One job and one task are new, and everything else is as before. -/
structure Added (session : Session) (datenew : Date) (job_name comments : Str)
    (session' : Session) : Prop where
  job : ∃ i, i ∉ session.joblist ∧ (∀ x ∈ session.joblist, x < i) ∧
    session'.joblist.lookup i = some
      { idx := i, job_name := job_name, comments := comments, datetime := some datenew
        gid := newGid, actreq := .none } ∧
    ∀ x ≠ i, session'.joblist.lookup x = session.joblist.lookup x
  task : ∃ id due, id ∉ session.remote.tasks.map Task.id ∧ isoDate datenew = some due ∧
    session'.remote.tasks = session.remote.tasks ++
      [{ id := id, title := job_name, notes := some comments, due := some due
         status := .needsAction, completed := none }]

/-- What `joblist_add` does if it is confirmed, and nothing otherwise. -/
structure AllOrNothing (session : Session) (clock : Clock) (session' : Session) : Prop where
  all : ∀ datenew job_name comments, Confirmed clock session.answers datenew job_name comments →
    Added session datenew job_name comments session'
  nothing : (¬∃ datenew job_name comments,
      Confirmed clock session.answers datenew job_name comments) →
    session'.joblist = session.joblist ∧ session'.remote = session.remote

variable {env : Env} {clock : Clock} {session : Session} {joblist : Joblist}

/-! ## Leaving early -/

theorem printable_of_strftime {sep : Char} {d : Date} {s : Str} (h : strftime sep d = some s) :
    Printable d := by
  obtain ⟨y, hy, -⟩ := Option.bind_eq_some_iff.mp h
  unfold strftimeYear at hy
  unfold Printable
  split_ifs at hy <;> omega

theorem printable_of_show0 {job : JobObj} {d : Date} (hd : job.datetime = some d) {line : Str}
    (h : job.show0 = .ok line) : Printable d := by
  obtain ⟨d', hd', h⟩ := bind_eq_ok_iff.mp h
  obtain ⟨date, hdate, -⟩ := bind_eq_ok_iff.mp h
  obtain rfl := Option.some.inj (hd.symm.trans (orAttributeError_eq_ok_iff.mp hd'))
  exact printable_of_strftime (orValueError_eq_ok_iff.mp hdate)

/-- Nothing happens before the job is confirmed. -/
theorem joblistAdd_unconfirmed (env : Env)
    (h : ¬∃ datenew job_name comments,
      Confirmed clock session.answers datenew job_name comments) :
    (after (joblistAdd env clock) session).joblist = session.joblist ∧
      (after (joblistAdd env clock) session).remote = session.remote := by
  obtain ⟨joblist, remote, answers, screen⟩ := session
  -- the cases follow the program, which may end at each answer
  cases answers with
  | nil => exact ⟨rfl, rfl⟩
  | cons test answers =>
  by_cases hdate : ∃ datenew, addDate clock test = .ok (some datenew)
  case neg =>
    rw [joblistAdd_refused rfl fun datenew h' ↦ hdate ⟨datenew, h'⟩]
    exact ⟨rfl, rfl⟩
  obtain ⟨datenew, hdate⟩ := hdate
  simp only [after, joblistAdd, EStateM.run_bind, getInput_run_cons, hdate, run_ofExcept]
  cases answers with
  | nil => exact ⟨rfl, rfl⟩
  | cons job_name answers =>
  cases answers with
  | nil => exact ⟨rfl, rfl⟩
  | cons comments answers =>
  simp only [getInput_run_cons, EStateM.run_get]
  cases hshow : JobObj.show0 { JobObj.blank with
      idx := joblistNewIdx joblist, job_name := job_name, comments := comments
      datetime := some datenew } with
  | error e => exact ⟨rfl, rfl⟩
  | ok line =>
  cases answers with
  | nil => exact ⟨rfl, rfl⟩
  | cons got answers =>
  have hgot : ¬(got = ['y'] ∨ got = ['Y']) := by
    intro hgot
    apply h
    exact ⟨datenew, job_name, comments, test, got, answers, rfl, hdate,
      printable_of_show0 rfl hshow, hgot⟩
  simp only [run_ofExcept, getInput_run_cons, if_neg hgot]
  exact ⟨rfl, rfl⟩

/-! ## Saving -/

/-- The tasks when a function has ended, also by an exception. -/
def tasksLeft {α : Type} (x : RemoteM α) (remote : Remote) : List Task :=
  match x.run remote with
  | .ok _ remote' => remote'.tasks
  | .error _ remote' => remote'.tasks

theorem tasksLeft_bind {α β : Type} {x : RemoteM α} {f : α → RemoteM β} {remote remote' : Remote}
    {a : α} (h : x.run remote = .ok a remote') :
    tasksLeft (x >>= f) remote = tasksLeft (f a) remote' := by
  simp only [tasksLeft, EStateM.run_bind, h]

/-- Loading changes no task, whether it succeeds or not. -/
theorem tasksLeft_loadAllTask (service : Service) (showDone : Bool) (remote : Remote) :
    tasksLeft (loadAllTask service showDone) remote = remote.tasks := by
  simp only [tasksLeft, loadAllTask, setupCredentials, listItems, EStateM.run_bind,
    EStateM.run_get, EStateM.run_set]
  cases service.setup remote.calls with
  | error e => rfl
  | ok u =>
      simp only [run_ofExcept]
      cases service.listing (remote.calls + 1)
          (Remote.visible { remote with calls := remote.calls + 1 } showDone) with
      | error e => rfl
      | ok response =>
          simp only [run_ofExcept]
          cases response.items with
          | none => rfl
          | some tasks =>
              simp only [EStateM.run_pure]
              cases loadItems showDone tasks <;> rfl

theorem syncItem_unmarked (service : Service) (clock : Clock) {item : SyncItem}
    (h : item.actreq = .none) (remote : Remote) :
    ∃ remote', (syncItem service clock item).run remote = .ok () remote' ∧
      remote'.tasks = item.effect service clock remote.tasks := by
  unfold syncItem SyncItem.effect
  rw [h]
  split_ifs
  · exact ⟨_, rfl, rfl⟩
  · exact ⟨remote, rfl, rfl⟩

theorem tasksLeft_syncToTasklist (service : Service) (clock : Clock)
    (hsetup : ∀ n, service.setup n = .ok ()) {itemlist : List SyncItem}
    (h : ∀ item ∈ itemlist, item.actreq = .none) (remote : Remote) :
    tasksLeft (syncToTasklist service clock itemlist) remote =
      itemlist.foldl (fun tasks item ↦ item.effect service clock tasks) remote.tasks := by
  obtain ⟨remote', hsync, htasks⟩ :=
    syncItems_run clock itemlist (fun item hitem ↦ syncItem_unmarked service clock (h item hitem))
      { remote with calls := remote.calls + 1 }
  rw [syncToTasklist, tasksLeft_bind (setupCredentials_run (hsetup _)), tasksLeft_bind hsync,
    tasksLeft_loadAllTask, htasks]

theorem after_onRemote {α : Type} (x : RemoteM α) (session : Session) :
    (after (onRemote x) session).joblist = session.joblist ∧
      (after (onRemote x) session).remote.tasks = tasksLeft x session.remote := by
  simp only [after, onRemote, tasksLeft, EStateM.run]
  cases x session.remote <;> exact ⟨rfl, rfl⟩

theorem mem_itemList {keys : List ℤ} {itemlist : List SyncItem}
    (h : itemList joblist keys = .ok itemlist) {item : SyncItem} (hitem : item ∈ itemlist) :
    ∃ x job, joblist.lookup x = some job ∧ job.syncItem = .ok item := by
  induction keys generalizing itemlist with
  | nil =>
      obtain rfl := Except.ok.inj h
      cases hitem
  | cons x keys ih =>
      obtain ⟨job, newitem, rest, hjob, hnewitem, hrest, rfl⟩ := itemList_cons_eq_ok_iff.mp h
      rcases List.mem_cons.mp hitem with rfl | hitem
      · exact ⟨x, job, hjob, hnewitem⟩
      · exact ih hrest hitem

/-- A save without marks needs no list from the service. -/
theorem joblistSave_unmarked (env : Env) (clock : Clock)
    (hsetup : ∀ n, env.service.setup n = .ok ())
    (hactreq : ∀ x job, session.joblist.lookup x = some job → job.actreq = .none)
    {itemlist : List SyncItem}
    (hitems : itemList session.joblist (env.keys session.joblist) = .ok itemlist) :
    (after (joblistSave env clock false) session).joblist = session.joblist ∧
      (after (joblistSave env clock false) session).remote.tasks =
        (env.keys session.joblist).foldl (saveEffect env clock session.joblist)
          session.remote.tasks := by
  have hunmarked : ∀ item ∈ itemlist, item.actreq = .none := by
    intro item hitem
    obtain ⟨x, job, hjob, hsync⟩ := mem_itemList hitems hitem
    obtain ⟨d, date, -, -, rfl⟩ := syncItem_eq_ok_iff.mp hsync
    exact hactreq x job hjob
  have hsave : after (joblistSave env clock false) session =
      after (onRemote (syncToTasklist env.service clock itemlist)) session := by
    simp only [after, joblistSave, joblistSyncGoogle, Bool.false_eq_true, if_false,
      EStateM.run_bind, EStateM.run_get, hitems, run_ofExcept]
    cases (onRemote (syncToTasklist env.service clock itemlist)).run session <;> rfl
  obtain ⟨hjoblist, htasks⟩ := after_onRemote (syncToTasklist env.service clock itemlist) session
  rw [hsave, hjoblist, htasks, tasksLeft_syncToTasklist _ _ hsetup hunmarked,
    foldl_saveEffect hitems]
  exact ⟨rfl, rfl⟩

/-! ## The new job -/

theorem JustLoaded.insert_actreq (h : JustLoaded joblist) {i : ℤ} {newjob : JobObj}
    (hnew : newjob.actreq = .none) (x : ℤ) (job : JobObj)
    (hjob : (joblist.insert i newjob).lookup x = some job) : job.actreq = .none := by
  by_cases hxi : x = i
  · subst hxi
    rw [AList.lookup_insert, Option.some_inj] at hjob
    rw [← hjob, hnew]
  · rw [AList.lookup_insert_ne hxi] at hjob
    exact h.actreq x job hjob

theorem JustLoaded.itemList_insert (h : JustLoaded joblist) (hprintable : JobsPrintable joblist)
    (env : Env) (i : ℤ) {newjob : JobObj} {newitem : SyncItem}
    (hitem : newjob.syncItem = .ok newitem) :
    ∃ itemlist, itemList (joblist.insert i newjob) (env.keys (joblist.insert i newjob)) =
      .ok itemlist := by
  apply itemList_insert_ok env hitem
  intro x _ job hjob
  obtain ⟨d, hd⟩ := h.dated x job hjob
  obtain ⟨date, hdate⟩ := (hprintable x job d hjob hd).isoDate
  exact ⟨_, syncItem_eq_ok_iff.mpr ⟨d, date, hd, hdate, rfl⟩⟩

theorem JustLoaded.saveEffect_insert (h : JustLoaded joblist) {i : ℤ} (newjob : JobObj) {x : ℤ}
    (hx : x ≠ i) (tasks : List Task) :
    saveEffect env clock (joblist.insert i newjob) tasks x = tasks := by
  rw [saveEffect_insert_of_ne hx]
  apply saveEffect_of_unmarked
  intro job hjob
  exact ⟨h.gid x job hjob, h.actreq x job hjob⟩

theorem JustLoaded.added (h : JustLoaded session.joblist)
    (hprintable : JobsPrintable session.joblist) (hsetup : ∀ n, env.service.setup n = .ok ())
    {datenew : Date} {job_name comments : Str}
    (hconfirmed : Confirmed clock session.answers datenew job_name comments) :
    Added session datenew job_name comments (after (joblistAdd env clock) session) := by
  obtain ⟨test, got, rest, hanswers, hdate, hdateable, hgot⟩ := hconfirmed
  obtain ⟨due, hdue⟩ := hdateable.isoDate
  let i := joblistNewIdx session.joblist
  let newjob := session.joblist.newJob datenew job_name comments
  let session₁ : Session :=
    { session with joblist := session.joblist.insert i newjob, answers := rest }
  have hrun : (joblistAdd env clock).run session = (joblistSave env clock false).run session₁ :=
    joblistAdd_run hanswers hdate hdateable hgot
  have hitem : newjob.syncItem = .ok
      { jobname := job_name, id := newGid, description := comments, date := due
        actreq := .none } :=
    syncItem_eq_ok_iff.mpr ⟨datenew, due, rfl, hdue, rfl⟩
  obtain ⟨itemlist, hitems⟩ := h.itemList_insert hprintable env i hitem
  have hactreq : ∀ x job, session₁.joblist.lookup x = some job → job.actreq = .none :=
    h.insert_actreq rfl
  obtain ⟨hjoblist, htasks⟩ := joblistSave_unmarked env clock hsetup hactreq hitems
  have hi : i ∈ session₁.joblist := (AList.mem_insert _).mpr (.inl rfl)
  have hidle {x : ℤ} (hx : x ≠ i) (tasks : List Task) :
      saveEffect env clock session₁.joblist tasks x = tasks := h.saveEffect_insert newjob hx tasks
  have hlookup : session₁.joblist.lookup i = some newjob := AList.lookup_insert _
  rw [foldl_saveEffect_of_single hi (fun x hx ↦ hidle hx _) fun x hx ↦ hidle hx _,
    saveEffect_of_lookup hlookup hitem] at htasks
  rw [after_eq hrun]
  constructor
  case job =>
    refine ⟨i, AList.lookup_eq_none.mp (lookup_joblistNewIdx _), ?_, ?_, ?_⟩
    · intro x hx
      exact lt_joblistNewIdx (AList.mem_keys.mp hx)
    · rw [hjoblist]
      exact hlookup
    · intro x hx
      rw [hjoblist]
      exact AList.lookup_insert_ne hx
  case task =>
    refine ⟨_, due, env.service.freshId_notMem _, hdue, ?_⟩
    rw [htasks, SyncItem.effect, if_pos rfl]

/-- `joblist_add` does all or nothing if the dates of the jobs can be
written. -/
theorem add_all_or_nothing (env : Env) (hsetup : ∀ n, env.service.setup n = .ok ())
    (clock : Clock) (session : Session) (hloaded : JustLoaded session.joblist)
    (hprintable : JobsPrintable session.joblist) :
    AllOrNothing session clock (after (joblistAdd env clock) session) where
  all _ _ _ hconfirmed := hloaded.added hprintable hsetup hconfirmed
  nothing h := joblistAdd_unconfirmed env h

theorem justLoaded_of_load {remote : Remote} (hload : loadJobs remote.items 0 ∅ = .ok joblist)
    (hnew : ∀ t ∈ remote.visible false, t.id ≠ newGid) : JustLoaded joblist := by
  constructor
  case gid =>
    intro i job hjob
    obtain ⟨t, ht, due, d, -, -, rfl⟩ := loadedFrom_of_lookup hload hjob
    exact hnew t ht
  case actreq =>
    intro i job hjob
    obtain ⟨t, ht, due, d, -, -, rfl⟩ := loadedFrom_of_lookup hload hjob
    rfl
  case dated =>
    intro i job hjob
    obtain ⟨t, ht, due, d, -, -, rfl⟩ := loadedFrom_of_lookup hload hjob
    exact ⟨d, rfl⟩

theorem jobsPrintable_of_load {remote : Remote} (hload : loadJobs remote.items 0 ∅ = .ok joblist)
    (hdue : DuesPrintable remote) : JobsPrintable joblist := by
  intro i job d hjob hd
  obtain ⟨t, ht, due, d', htdue, hd', rfl⟩ := loadedFrom_of_lookup hload hjob
  obtain ⟨d'', hd'', hprintable⟩ := hdue t ht due htdue
  obtain rfl : d' = d := Option.some.inj hd
  exact Option.some.inj (hd''.symm.trans hd') ▸ hprintable

/-- A job in five days is added to the two tasks. -/
theorem add_all_or_nothing_two_tasks : ∃ joblist,
    loadJobs twoTasks.items 0 ∅ = .ok joblist ∧
      AllOrNothing ⟨joblist, twoTasks, [['5'], ['x'], [], ['y']], []⟩ january
        (after (joblistAdd turningEnv january)
          ⟨joblist, twoTasks, [['5'], ['x'], [], ['y']], []⟩) := by
  obtain ⟨joblist, hload⟩ := twoTasks_duesPrintable.load
  refine ⟨joblist, hload, ?_⟩
  apply add_all_or_nothing
  · exact fun _ ↦ rfl
  · exact justLoaded_of_load hload twoTasks_ids_ne_new
  · exact jobsPrintable_of_load hload twoTasks_duesPrintable

/-- With a job due in 1850 in the joblist, a new one is put there and then
`ValueError` is raised before it is inserted. -/
theorem add_fails_with_year_1850 :
    ¬∀ (env : Env) (clock : Clock) (session : Session), (∀ n, env.service.setup n = .ok ()) →
      JustLoaded session.joblist →
      AllOrNothing session clock (after (joblistAdd env clock) session) := by
  intro h
  let joblist : Joblist := (loadJobs oldTasks.items 0 ∅).toOption.getD ∅
  have hload : loadJobs oldTasks.items 0 ∅ = .ok joblist := by
    obtain ⟨joblist', hload⟩ : ∃ joblist', loadJobs oldTasks.items 0 ∅ = .ok joblist' :=
      loadJobs_ok fun ti hti ↦ oldTasks_duesReadable.item hti
    simp only [joblist, hload, Except.toOption, Option.getD_some]
  let session : Session := ⟨joblist, oldTasks, [['5'], ['x'], [], ['y']], []⟩
  obtain ⟨hall, -⟩ := h turningEnv january session (fun _ ↦ rfl)
    (justLoaded_of_load hload (by decide))
  have hfive : addDate january ['5'] =
      .ok (some ⟨2018, 1, 16, by decide, by decide, by decide, by decide, by decide⟩) := by
    decide +kernel
  obtain ⟨id, due, -, -, htasks⟩ := (hall _ ['x'] []
    ⟨['5'], ['y'], [], rfl, hfive, by decide, .inl rfl⟩).task
  have hunchanged : (after (joblistAdd turningEnv january) session).remote.tasks =
      oldTasks.tasks := by
    decide +kernel
  have hlength := congrArg List.length (hunchanged.symm.trans htasks)
  rw [List.length_append] at hlength
  simp [session] at hlength

end EsNotebook.Todo
