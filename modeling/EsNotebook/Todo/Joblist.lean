import EsNotebook.Todo.Tasks
import EsNotebook.Todo.TextFile

/-!
# The todo commands

`joblist.py` and `todo_manager.py`.  A session holds the joblist, the remote
tasks, the answers that will be typed and what has been displayed.
-/

namespace EsNotebook.Todo

open Py

inductive Level where
  | alert
  | notice
  | plain
  deriving DecidableEq, Repr

/-- A job on the screen. -/
structure Shown where
  level : Level
  idx : ℤ
  date : Str
  job_name : Str
  comments : Str
  deriving DecidableEq, Repr

structure Session where
  joblist : Joblist
  remote : Remote
  answers : List Str
  screen : List Shown

/-- The service, and the order in which a dict hands out its keys. -/
structure Env where
  service : Service
  keys : Joblist → List ℤ
  keys_perm : ∀ joblist, (keys joblist).Perm joblist.keys

abbrev SessionM := EStateM PyError Session

/-- A function of `quick_task_list.py`, called within a session. -/
def onRemote {α : Type} (x : RemoteM α) : SessionM α := fun session ↦
  match x.run session.remote with
  | .ok a remote => .ok a { session with remote := remote }
  | .error e remote => .error e { session with remote := remote }

/-- What raises `KeyError` when it has no result. -/
def orKeyError {α : Type*} : Option α → Except PyError α
  | some a => .ok a
  | none => .error .keyError

def orAttributeError {α : Type*} : Option α → Except PyError α
  | some a => .ok a
  | none => .error .attributeError

theorem orKeyError_eq_ok_iff {α : Type*} {o : Option α} {a : α} :
    orKeyError o = .ok a ↔ o = some a := by
  cases o <;> simp [orKeyError]

theorem orAttributeError_eq_ok_iff {α : Type*} {o : Option α} {a : α} :
    orAttributeError o = .ok a ↔ o = some a := by
  cases o <;> simp [orAttributeError]

/-- `get_input` ends the program when the input ends. -/
def getInput : SessionM Str := do
  let session ← get
  match session.answers with
  | [] => throw .systemExit
  | tests :: answers =>
      set { session with answers := answers }
      pure tests

/-! ## Loading and saving -/

/-- The loop of `joblist_load_google`. -/
def loadJobs : List Item → ℤ → Joblist → Except PyError Joblist
  | [], _, joblist => .ok joblist
  | ti :: rest, ji, joblist => do
      let datetime ← orValueError (strptime '-' (ti.date.take 10))
      loadJobs rest (ji + 1) (joblist.insert ji
        { JobObj.blank with
          idx := ji, gid := ti.id, job_name := ti.jobname, comments := ti.description.getD []
          datetime := some datetime })

/-- `joblist_load_google`; every item has the key `jobname`. -/
def joblistLoadGoogle (service : Service) (showDone : Bool) : RemoteM Joblist := do
  let tasks ← loadAllTask service showDone
  ofExcept (loadJobs (sortItems tasks) 0 ∅)

/-- `joblist_load` with the content of `loadfile`. -/
def joblistLoad (service : Service) (loadfile : Str) : RemoteM Joblist := do
  let joblist ← joblistLoadGoogle service false
  -- the result is never `None`
  match some joblist with
  | none => ofExcept (joblistLoadTxt loadfile)
  | some joblist => pure joblist

/-- The item of `joblist_sync_google` for a job. -/
def JobObj.syncItem (job : JobObj) : Except PyError SyncItem := do
  let datetime ← orAttributeError job.datetime
  let date ← orValueError (isoDate datetime)
  .ok { jobname := job.job_name, id := job.gid, description := job.comments, date := date
        actreq := job.actreq }

def itemList (joblist : Joblist) : List ℤ → Except PyError (List SyncItem)
  | [] => .ok []
  | x :: rest => do
      let job ← orKeyError (joblist.lookup x)
      let newitem ← job.syncItem
      let itemlist ← itemList joblist rest
      .ok (newitem :: itemlist)

variable (env : Env) (clock : Clock)

/-- `joblist_sync_google` -/
def joblistSyncGoogle : SessionM Unit := do
  let session ← get
  let itemlist ← ofExcept (itemList session.joblist (env.keys session.joblist))
  let _ ← onRemote (syncToTasklist env.service clock itemlist)

/-- `joblist_save` -/
def joblistSave (ask : Bool) : SessionM Unit := do
  if ask then
    let yn ← getInput
    if yn = ['Y'] ∨ yn = ['y'] then joblistSyncGoogle env clock
  else joblistSyncGoogle env clock

/-! ## Commands -/

def setJob (i : ℤ) (job : JobObj) : SessionM Unit :=
  modify fun session ↦ { session with joblist := session.joblist.insert i job }

/-- `show(0)` -/
def JobObj.show0 (j : JobObj) : Except PyError Str := do
  let datetime ← orAttributeError j.datetime
  let date ← orValueError (strftime '/' datetime)
  .ok ('[' :: formatInt j.idx ++ "] [".toList ++ date ++ "] [".toList ++ j.job_name ++
    "] [".toList ++ j.comments ++ [']'])

/-- The date that `joblist_add` takes from the first answer; `none` where the
job would be due in the past. -/
def addDate (test : Str) : Except PyError (Option Date) :=
  if test = [] then do
    let today ← orValueError (strftime '/' clock.today)
    let datenew ← orValueError (strptime '/' today)
    .ok (some datenew)
  else if isDigit test then do
    let days ← orValueError (parseInt test)
    let datenew ← orValueError (localtime clock.offset (clock.now + days * 24 * 3600))
    .ok (some datenew)
  else do
    let datenew ← orValueError (strptime '/' test)
    let jtime ← orValueError (timegm datenew)
    if clock.now > jtime then .ok none else .ok (some datenew)

/-- `joblist_add` -/
def joblistAdd : SessionM Unit := do
  let test ← getInput
  match ← ofExcept (addDate clock test) with
  | none => pure ()
  | some datenew =>
      let job_name ← getInput
      let comments ← getInput
      let session ← get
      let newjob : JobObj :=
        { JobObj.blank with
          idx := joblistNewIdx session.joblist, job_name := job_name, comments := comments
          datetime := some datenew }
      let _ ← ofExcept newjob.show0
      let got ← getInput
      if got = ['y'] ∨ got = ['Y'] then
        setJob newjob.idx newjob
        let _ ← ofExcept newjob.show0
        joblistSave env clock false

/-- `joblist_del` -/
def joblistDel (index : Str) : SessionM Unit := do
  let i ← ofExcept (orValueError (parseInt index))
  let session ← get
  let job ← ofExcept (orKeyError (session.joblist.lookup i))
  let yn ← getInput
  if yn = ['y'] then
    setJob i { job with actreq := .del }
    joblistSave env clock false

/-- The date that `joblist_edit` reads, `some none` where nothing is typed. -/
def newDue (duestr : Str) : Option (Option Date) :=
  if duestr = [] then some none else (strptime '/' duestr).map some

/-- `joblist_edit`; the job changes with every answer. -/
def joblistEdit (index : Str) : SessionM Unit := do
  let i ← ofExcept (orValueError (parseInt index))
  let session ← get
  let editjob ← ofExcept (orKeyError (session.joblist.lookup i))
  let duestr ← getInput
  let datenew ← ofExcept (orValueError (newDue duestr))
  let editjob := { editjob with datetime := datenew.or editjob.datetime }
  setJob i editjob
  let new_jobname ← getInput
  let editjob := if new_jobname ≠ [] then { editjob with job_name := new_jobname } else editjob
  setJob i editjob
  let new_cmmt ← getInput
  let editjob := if new_cmmt ≠ [] then { editjob with comments := new_cmmt } else editjob
  setJob i { editjob with actreq := .edit }
  joblistSave env clock false

/-! ## The display -/

/-- The line for a job, if it is due in the given days. -/
def displayJob (days : ℤ) (job : JobObj) : Except PyError (Option Shown) := do
  let datetime ← orAttributeError job.datetime
  let jtime ← orValueError (timegm datetime)
  let line (level : Level) : Except PyError (Option Shown) := do
    let date ← orValueError (strftime '/' datetime)
    .ok (some { level := level, idx := job.idx, date := date, job_name := job.job_name
                comments := job.comments })
  if jtime < clock.now then line .alert
  else if jtime < clock.now + 7 * 24 * 3600 then line .notice
  else if jtime < clock.now + days * 24 * 3600 then line .plain
  else .ok none

def displayJobs (days : ℤ) : List ℤ → SessionM Unit
  | [] => pure ()
  | x :: rest => do
      let session ← get
      let job ← ofExcept (orKeyError (session.joblist.lookup x))
      let line ← ofExcept (displayJob clock days job)
      set { session with screen := session.screen ++ line.toList }
      displayJobs days rest

/-- `joblist_display` -/
def joblistDisplay (days : ℤ) : SessionM Unit := do
  let session ← get
  let _ ← ofExcept (orValueError (strftime '/' clock.today))
  displayJobs clock days (env.keys session.joblist)

/-- The main program with the arguments after its name, once the joblist is
loaded. -/
def dispatch (argv : List Str) : SessionM Unit :=
  match argv with
  | [] => joblistDisplay env clock 31
  | command :: args =>
      if command = "all".toList then joblistDisplay env clock 365
      else if command = "add".toList then do
        joblistAdd env clock
        joblistDisplay env clock 31
      else if command = "fin".toList ∨ command = "del".toList then
        match args with
        | index :: _ => joblistDel env clock index
        | [] => throw .systemExit
      else if command = "done".toList then do
        let joblist ← onRemote (joblistLoadGoogle env.service true)
        modify fun session ↦ { session with joblist := joblist }
        joblistDisplay env clock 14
      else if command = "edit".toList then
        match args with
        | index :: _ => joblistEdit env clock index
        | [] => throw .systemExit
      else if command = "-h".toList then pure ()
      else
        -- every exception ends in `bad_exit`
        tryCatch (do
          let days ← ofExcept (orValueError (parseInt command))
          joblistDisplay env clock days) fun _ ↦ throw .systemExit

def todoManager (loadfile : Str) (argv : List Str) : SessionM Unit := do
  let joblist ← onRemote (joblistLoad env.service loadfile)
  modify fun session ↦ { session with joblist := joblist }
  dispatch env clock argv

/-- The session in which a command ends, also by an exception. -/
def after {α : Type} (x : SessionM α) (session : Session) : Session :=
  match x.run session with
  | .ok _ session' => session'
  | .error _ session' => session'

theorem after_eq {x y : SessionM Unit} {session session' : Session}
    (h : x.run session = y.run session') : after x session = after y session' := by
  simp only [after, h]

theorem after_of_ok {x : SessionM Unit} {session session' : Session}
    (h : x.run session = .ok () session') : after x session = session' := by
  simp only [after, h]

theorem after_of_error {x : SessionM Unit} {session session' : Session} {e : PyError}
    (h : x.run session = .error e session') : after x session = session' := by
  simp only [after, h]

/-! ## What is loaded -/

variable {env clock}

/-- The items of the open tasks that have a due date, in the order of `sort`. -/
def Remote.items (remote : Remote) : List Item :=
  sortItems ((remote.visible false).filterMap Task.item)

/-- The job that is made of an item. -/
def Item.job (i : ℤ) (ti : Item) (datetime : Date) : JobObj :=
  { JobObj.blank with
    idx := i, gid := ti.id, job_name := ti.jobname, comments := ti.description.getD []
    datetime := some datetime }

theorem loadJobs_ok {items : List Item} {ji : ℤ} {joblist : Joblist}
    (h : ∀ ti ∈ items, ∃ d, strptime '-' (ti.date.take 10) = some d) :
    ∃ joblist', loadJobs items ji joblist = .ok joblist' := by
  induction items generalizing ji joblist with
  | nil => exact ⟨joblist, rfl⟩
  | cons ti rest ih =>
      obtain ⟨d, hd⟩ := h ti (by simp)
      obtain ⟨joblist', hrest⟩ : ∃ joblist',
          loadJobs rest (ji + 1) (joblist.insert ji (ti.job ji d)) = .ok joblist' :=
        ih fun ti hti ↦ h ti (by simp [hti])
      refine ⟨joblist', ?_⟩
      rw [loadJobs, hd]
      exact hrest

theorem readable_of_loadJobs {items : List Item} {ji : ℤ} {joblist joblist' : Joblist}
    (h : loadJobs items ji joblist = .ok joblist') {ti : Item} (hti : ti ∈ items) :
    ∃ d, strptime '-' (ti.date.take 10) = some d := by
  induction items generalizing ji joblist with
  | nil => cases hti
  | cons ui rest ih =>
      obtain ⟨d, hd, hrest⟩ := bind_eq_ok_iff.mp h
      rcases List.mem_cons.mp hti with rfl | hti
      · exact ⟨d, orValueError_eq_ok_iff.mp hd⟩
      · exact ih hrest hti

theorem lookup_loadJobs {items : List Item} {ji : ℤ} {joblist joblist' : Joblist}
    (hlt : ∀ i ≥ ji, joblist.lookup i = none) (h : loadJobs items ji joblist = .ok joblist') (i : ℤ)
    (job : JobObj) :
    joblist'.lookup i = some job ↔ joblist.lookup i = some job ∨
      ∃ n ti d, items[n]? = some ti ∧ i = ji + (n : ℕ) ∧
        strptime '-' (ti.date.take 10) = some d ∧ job = ti.job i d := by
  induction items generalizing ji joblist with
  | nil =>
      obtain rfl := Except.ok.inj h
      simp
  | cons ti rest ih =>
      obtain ⟨d, hd, hrest⟩ := bind_eq_ok_iff.mp h
      rw [orValueError_eq_ok_iff] at hd
      have hnext : ∀ i ≥ ji + 1, (joblist.insert ji (ti.job ji d)).lookup i = none := by
        intro i hi
        rw [AList.lookup_insert_ne (by omega)]
        exact hlt i (by omega)
      refine (ih hnext hrest).trans ?_
      constructor
      · rintro (hjob | ⟨n, ti', d', hn, rfl, hd', rfl⟩)
        · by_cases hi : i = ji
          · subst hi
            rw [AList.lookup_insert, Option.some_inj] at hjob
            exact .inr ⟨0, ti, d, rfl, by simp, hd, hjob.symm⟩
          · rw [AList.lookup_insert_ne hi] at hjob
            exact .inl hjob
        · exact .inr ⟨n + 1, ti', d', hn, by push_cast; ring, hd', rfl⟩
      · rintro (hjob | ⟨n, ti', d', hn, rfl, hd', rfl⟩)
        · have hi : i ≠ ji := by
            rintro rfl
            rw [hlt i le_rfl] at hjob
            cases hjob
          rw [AList.lookup_insert_ne hi]
          exact .inl hjob
        · cases n with
          | zero =>
              obtain rfl : ti = ti' := Option.some.inj hn
              obtain rfl : d = d' := Option.some.inj (hd.symm.trans hd')
              refine .inl ?_
              rw [Nat.cast_zero, add_zero]
              exact AList.lookup_insert _
          | succ n => exact .inr ⟨n, ti', d', hn, by push_cast; ring, hd', rfl⟩

/-- The job with this index is made of an open task of `remote`. -/
def LoadedFrom (remote : Remote) (i : ℤ) (job : JobObj) : Prop :=
  ∃ t ∈ remote.visible false, ∃ due d, t.due = some due ∧
    strptime '-' (due.take 10) = some d ∧
    job = { idx := i, job_name := t.title, comments := t.notes.getD [], datetime := some d
            gid := t.id, actreq := .none }

theorem mem_items {remote : Remote} {ti : Item} :
    ti ∈ remote.items ↔ ∃ t ∈ remote.visible false, t.item = some ti :=
  mem_sortItems

theorem nodup_visible_id (remote : Remote) (showCompleted : Bool) :
    ((remote.visible showCompleted).map Task.id).Nodup :=
  remote.nodup.sublist (List.filter_sublist.map _)

theorem nodup_filterMap_item_id {tasks : List Task} (h : (tasks.map Task.id).Nodup) :
    ((tasks.filterMap Task.item).map Item.id).Nodup := by
  rw [List.Nodup, List.pairwise_map] at h
  rw [List.Nodup, List.pairwise_map, List.pairwise_filterMap]
  apply h.imp
  intro t u hne ti hti ui hui
  obtain ⟨due, -, rfl⟩ := Option.map_eq_some_iff.mp hti
  obtain ⟨due', -, rfl⟩ := Option.map_eq_some_iff.mp hui
  exact hne

theorem nodup_items_id (remote : Remote) : (remote.items.map Item.id).Nodup :=
  ((sortItems_perm _).map Item.id).nodup_iff.mpr
    (nodup_filterMap_item_id (nodup_visible_id remote false))

/-- The due dates that `load_all_task` finds can be read. -/
def DuesReadable (remote : Remote) : Prop :=
  ∀ t ∈ remote.visible false, ∀ due, t.due = some due → ∃ d, strptime '-' (due.take 10) = some d

theorem DuesReadable.item {remote : Remote} (h : DuesReadable remote) {ti : Item}
    (hti : ti ∈ remote.items) : ∃ d, strptime '-' (ti.date.take 10) = some d := by
  obtain ⟨t, ht, hitem⟩ := mem_items.mp hti
  obtain ⟨due, hdue, rfl⟩ := Option.map_eq_some_iff.mp hitem
  exact h t ht due hdue

theorem joblistLoadGoogle_of_fetches {service : Service} {remote : Remote} {items : List Task}
    (h : Fetches service false remote items) : (joblistLoadGoogle service false).run remote =
      (ofExcept (loadJobs (sortItems (items.filterMap Task.item)) 0 ∅) : RemoteM Joblist).run
        { remote with calls := remote.calls + 2 } := by
  simp only [joblistLoadGoogle, EStateM.run_bind, loadAllTask_of_fetches h, sortItems_sortItems]

/-- The result of the remote load is never `None`. -/
theorem joblistLoad_eq_google (service : Service) (loadfile : Str) :
    joblistLoad service loadfile = joblistLoadGoogle service false := by
  simp only [joblistLoad, bind_pure]

/-- Whatever the order in which the service lists the tasks, the same joblist
is loaded. -/
theorem joblistLoad_eq {service : Service} (h : OnePage service) (remote : Remote)
    (loadfile : Str) : (joblistLoad service loadfile).run remote =
      (ofExcept (loadJobs remote.items 0 ∅) : RemoteM Joblist).run
        { remote with calls := remote.calls + 2 } := by
  obtain ⟨items, hperm, hfetches⟩ := h.fetches false remote
  have hitems : sortItems (items.filterMap Task.item) = remote.items :=
    sortItems_eq_of_perm (hperm.filterMap _)
  rw [joblistLoad_eq_google, joblistLoadGoogle_of_fetches hfetches, hitems]

theorem joblistLoad_run {service : Service} (h : OnePage service) {remote : Remote}
    (loadfile : Str) {joblist : Joblist} (hload : loadJobs remote.items 0 ∅ = .ok joblist)
    (calls : ℕ) : (joblistLoad service loadfile).run { remote with calls := calls } =
      .ok joblist { remote with calls := calls + 2 } := by
  have hload' : loadJobs (Remote.items { remote with calls := calls }) 0 ∅ = .ok joblist := hload
  rw [joblistLoad_eq h, hload', run_ofExcept]

/-- What is known of a load that succeeds. -/
theorem loadJobs_of_joblistLoad {service : Service} (h : OnePage service)
    {remote remote' : Remote} {loadfile : Str} {joblist : Joblist}
    (hload : (joblistLoad service loadfile).run remote = .ok joblist remote') :
    loadJobs remote.items 0 ∅ = .ok joblist ∧ remote'.tasks = remote.tasks := by
  rw [joblistLoad_eq h] at hload
  cases hjobs : loadJobs remote.items 0 ∅ with
  | error e =>
      rw [hjobs, run_ofExcept_error] at hload
      cases hload
  | ok joblist' =>
      rw [hjobs, run_ofExcept] at hload
      cases hload
      exact ⟨rfl, rfl⟩

theorem loadedFrom_of_lookup {remote : Remote} {joblist : Joblist}
    (hload : loadJobs remote.items 0 ∅ = .ok joblist) {i : ℤ} {job : JobObj}
    (hjob : joblist.lookup i = some job) : LoadedFrom remote i job := by
  rcases (lookup_loadJobs (fun i _ ↦ AList.lookup_empty i) hload i job).mp hjob with
    hnone | ⟨n, ti, d, hn, -, hd, rfl⟩
  · cases hnone
  · obtain ⟨t, ht, hitem⟩ := mem_items.mp (List.mem_of_getElem? hn)
    obtain ⟨due, hdue, rfl⟩ := Option.map_eq_some_iff.mp hitem
    exact ⟨t, ht, due, d, hdue, hd, rfl⟩

theorem index_eq_of_gid_eq {remote : Remote} {joblist : Joblist}
    (hload : loadJobs remote.items 0 ∅ = .ok joblist) {i j : ℤ} {job job' : JobObj}
    (hjob : joblist.lookup i = some job) (hjob' : joblist.lookup j = some job')
    (hgid : job.gid = job'.gid) : i = j := by
  have hspec := lookup_loadJobs (fun i _ ↦ AList.lookup_empty i) hload
  rcases (hspec i job).mp hjob with hnone | ⟨n, ti, d, hn, rfl, -, rfl⟩
  · cases hnone
  rcases (hspec j job').mp hjob' with hnone | ⟨m, ui, d', hm, rfl, -, rfl⟩
  · cases hnone
  have hn' : (remote.items.map Item.id)[n]? = some ti.id := by rw [List.getElem?_map, hn]; rfl
  have hm' : (remote.items.map Item.id)[m]? = some ti.id := by
    rw [List.getElem?_map, hm]
    exact congrArg some hgid.symm
  have hlt : n < (remote.items.map Item.id).length := (List.getElem?_eq_some_iff.mp hn').1
  rw [(List.getElem?_inj hlt (nodup_items_id remote)).mp (hn'.trans hm'.symm)]

theorem lt_joblistNewIdx {joblist : Joblist} {x : ℤ} (hx : x ∈ joblist.keys) :
    x < joblistNewIdx joblist := by
  have hmono (keys : List ℤ) (ret : ℤ) :
      ret ≤ keys.foldl (fun ret x ↦ if ret ≤ x then x + 1 else ret) ret ∧
        ∀ x ∈ keys, x < keys.foldl (fun ret x ↦ if ret ≤ x then x + 1 else ret) ret := by
    induction keys generalizing ret with
    | nil => exact ⟨le_rfl, by simp⟩
    | cons y keys ih =>
        obtain ⟨hret, hkeys⟩ := ih (if ret ≤ y then y + 1 else ret)
        rw [List.foldl_cons]
        have hnext : ret ≤ (if ret ≤ y then y + 1 else ret) ∧ y < if ret ≤ y then y + 1 else ret := by
          split_ifs <;> omega
        refine ⟨hnext.1.trans hret, ?_⟩
        intro x hx
        rcases List.mem_cons.mp hx with rfl | hx
        · exact hnext.2.trans_le hret
        · exact hkeys x hx
  exact (hmono joblist.keys 1).2 x hx

theorem joblistNewIdx_of_perm {joblist : Joblist} {keys : List ℤ} (h : keys.Perm joblist.keys) :
    keys.foldl (fun ret x ↦ if ret ≤ x then x + 1 else ret) 1 = joblistNewIdx joblist := by
  apply h.foldl_eq'
  intro x _ y _ ret
  split_ifs <;> omega

theorem lookup_joblistNewIdx (joblist : Joblist) :
    joblist.lookup (joblistNewIdx joblist) = none := by
  rw [AList.lookup_eq_none, AList.mem_keys]
  exact fun hmem ↦ lt_irrefl _ (lt_joblistNewIdx hmem)

/-! ## What saving does -/

/-- What the key `x` contributes to a save. -/
def saveEffect (env : Env) (clock : Clock) (joblist : Joblist) (tasks : List Task) (x : ℤ) :
    List Task :=
  match joblist.lookup x with
  | none => tasks
  | some job =>
      match job.syncItem with
      | .error _ => tasks
      | .ok item => item.effect env.service clock tasks

theorem syncItem_eq_ok_iff {job : JobObj} {item : SyncItem} :
    job.syncItem = .ok item ↔ ∃ d date, job.datetime = some d ∧ isoDate d = some date ∧
      item = { jobname := job.job_name, id := job.gid, description := job.comments, date := date
               actreq := job.actreq } := by
  constructor
  · intro h
    obtain ⟨d, hd, h⟩ := bind_eq_ok_iff.mp h
    obtain ⟨date, hdate, h⟩ := bind_eq_ok_iff.mp h
    exact ⟨d, date, orAttributeError_eq_ok_iff.mp hd, orValueError_eq_ok_iff.mp hdate,
      (Except.ok.inj h).symm⟩
  · rintro ⟨d, date, hd, hdate, rfl⟩
    simp [JobObj.syncItem, hd, hdate, orAttributeError, orValueError, bind, Except.bind]

theorem saveEffect_of_lookup {joblist : Joblist} {x : ℤ} {job : JobObj} {item : SyncItem}
    (hjob : joblist.lookup x = some job) (hitem : job.syncItem = .ok item) (tasks : List Task) :
    saveEffect env clock joblist tasks x = item.effect env.service clock tasks := by
  simp only [saveEffect, hjob, hitem]

theorem saveEffect_insert_of_ne {joblist : Joblist} {i x : ℤ} (hx : x ≠ i) (job : JobObj)
    (tasks : List Task) :
    saveEffect env clock (joblist.insert i job) tasks x =
      saveEffect env clock joblist tasks x := by
  simp only [saveEffect, AList.lookup_insert_ne hx]

theorem saveEffect_of_unmarked {joblist : Joblist} {x : ℤ}
    (h : ∀ job, joblist.lookup x = some job → job.gid ≠ newGid ∧ job.actreq = .none)
    (tasks : List Task) : saveEffect env clock joblist tasks x = tasks := by
  cases hjob : joblist.lookup x with
  | none => simp only [saveEffect, hjob]
  | some job =>
      obtain ⟨hgid, hactreq⟩ := h job hjob
      cases hitem : job.syncItem with
      | error e => simp only [saveEffect, hjob, hitem]
      | ok item =>
          rw [saveEffect_of_lookup hjob hitem]
          obtain ⟨d, date, -, -, rfl⟩ := syncItem_eq_ok_iff.mp hitem
          simp only [SyncItem.effect, hgid, hactreq, if_false]

theorem itemList_cons_eq_ok_iff {joblist : Joblist} {x : ℤ} {keys : List ℤ}
    {itemlist : List SyncItem} :
    itemList joblist (x :: keys) = .ok itemlist ↔ ∃ job item rest,
      joblist.lookup x = some job ∧ job.syncItem = .ok item ∧ itemList joblist keys = .ok rest ∧
        itemlist = item :: rest := by
  constructor
  · intro h
    obtain ⟨job, hjob, h⟩ := bind_eq_ok_iff.mp h
    obtain ⟨item, hitem, h⟩ := bind_eq_ok_iff.mp h
    obtain ⟨rest, hrest, h⟩ := bind_eq_ok_iff.mp h
    exact ⟨job, item, rest, orKeyError_eq_ok_iff.mp hjob, hitem, hrest, (Except.ok.inj h).symm⟩
  · rintro ⟨job, item, rest, hjob, hitem, hrest, rfl⟩
    simp only [itemList, hjob, orKeyError, hitem, hrest, bind, Except.bind]

theorem foldl_saveEffect {joblist : Joblist} {keys : List ℤ} {itemlist : List SyncItem}
    (h : itemList joblist keys = .ok itemlist) (tasks : List Task) :
    itemlist.foldl (fun tasks item ↦ item.effect env.service clock tasks) tasks =
      keys.foldl (saveEffect env clock joblist) tasks := by
  induction keys generalizing itemlist tasks with
  | nil =>
      obtain rfl := Except.ok.inj h
      rfl
  | cons x keys ih =>
      obtain ⟨job, item, rest, hjob, hitem, hrest, rfl⟩ := itemList_cons_eq_ok_iff.mp h
      rw [List.foldl_cons, List.foldl_cons, ih hrest, saveEffect_of_lookup hjob hitem]

theorem itemList_ok {joblist : Joblist} {keys : List ℤ}
    (h : ∀ x ∈ keys, ∃ job item, joblist.lookup x = some job ∧ job.syncItem = .ok item) :
    ∃ itemlist, itemList joblist keys = .ok itemlist := by
  induction keys with
  | nil => exact ⟨[], rfl⟩
  | cons x keys ih =>
      obtain ⟨job, item, hjob, hitem⟩ := h x (by simp)
      obtain ⟨rest, hrest⟩ := ih fun x hx ↦ h x (by simp [hx])
      exact ⟨item :: rest, itemList_cons_eq_ok_iff.mpr ⟨job, item, rest, hjob, hitem, hrest, rfl⟩⟩

/-- One job is changed or new, and all jobs can be written. -/
theorem itemList_insert_ok (env : Env) {joblist : Joblist} {i : ℤ} {job : JobObj}
    {item : SyncItem} (hitem : job.syncItem = .ok item)
    (hothers : ∀ x ≠ i, ∀ job, joblist.lookup x = some job → ∃ item, job.syncItem = .ok item) :
    ∃ itemlist, itemList (joblist.insert i job) (env.keys (joblist.insert i job)) =
      .ok itemlist := by
  apply itemList_ok
  intro x hx
  by_cases hxi : x = i
  · subst hxi
    exact ⟨job, item, AList.lookup_insert _, hitem⟩
  · rw [(env.keys_perm _).mem_iff, ← AList.mem_keys, AList.mem_insert] at hx
    obtain ⟨job', hjob'⟩ := Option.isSome_iff_exists.mp
      (AList.lookup_isSome.mpr (hx.resolve_left hxi))
    obtain ⟨item', hitem'⟩ := hothers x hxi job' hjob'
    exact ⟨job', item', (AList.lookup_insert_ne hxi).trans hjob', hitem'⟩

theorem onRemote_run {α : Type} {x : RemoteM α} {session : Session} {a : α} {remote : Remote}
    (h : x.run session.remote = .ok a remote) :
    (onRemote x).run session = .ok a { session with remote := remote } := by
  simp only [onRemote, EStateM.run] at *
  rw [h]

/-- Saving applies the marks of all jobs in the order of the keys. -/
theorem joblistSave_run (clock : Clock) (h : OnePage env.service) {session : Session} {itemlist : List SyncItem}
    (hitems : itemList session.joblist (env.keys session.joblist) = .ok itemlist) :
    ∃ remote', (joblistSave env clock false).run session =
        .ok () { session with remote := remote' } ∧
      remote'.tasks =
        (env.keys session.joblist).foldl (saveEffect env clock session.joblist)
          session.remote.tasks := by
  obtain ⟨items, remote', hrun, htasks⟩ := syncToTasklist_run h clock itemlist session.remote
  refine ⟨remote', ?_, htasks.trans (foldl_saveEffect hitems _)⟩
  simp only [joblistSave, joblistSyncGoogle, Bool.false_eq_true, if_false, EStateM.run_bind,
    EStateM.run_get, hitems, run_ofExcept, onRemote_run hrun, EStateM.run_pure]

/-- A date that cannot be written keeps everything from being saved. -/
theorem joblistSave_error {session : Session} {e : PyError}
    (hitems : itemList session.joblist (env.keys session.joblist) = .error e) :
    (joblistSave env clock false).run session = .error e session := by
  simp only [joblistSave, joblistSyncGoogle, Bool.false_eq_true, if_false, EStateM.run_bind,
    EStateM.run_get, hitems, run_ofExcept_error]

/-- A save in which only one key has an effect. -/
theorem foldl_saveEffect_of_single {joblist : Joblist} {i : ℤ} (hi : i ∈ joblist)
    {tasks : List Task}
    (hbefore : ∀ x ≠ i, saveEffect env clock joblist tasks x = tasks)
    (hafter : ∀ x ≠ i, saveEffect env clock joblist (saveEffect env clock joblist tasks i) x =
      saveEffect env clock joblist tasks i) :
    (env.keys joblist).foldl (saveEffect env clock joblist) tasks =
      saveEffect env clock joblist tasks i := by
  have hidle {keys : List ℤ} {tasks : List Task} (hno : i ∉ keys)
      (h : ∀ x ≠ i, saveEffect env clock joblist tasks x = tasks) :
      keys.foldl (saveEffect env clock joblist) tasks = tasks := by
    induction keys with
    | nil => rfl
    | cons x keys ih =>
        rw [List.mem_cons, not_or] at hno
        rw [List.foldl_cons, h x (Ne.symm hno.1)]
        exact ih hno.2
  have hperm := env.keys_perm joblist
  have hnodup : (env.keys joblist).Nodup := hperm.nodup_iff.mpr joblist.keys_nodup
  obtain ⟨pre, post, hsplit⟩ := List.append_of_mem (hperm.mem_iff.mpr (AList.mem_keys.mp hi))
  rw [hsplit, List.nodup_append, List.nodup_cons] at hnodup
  obtain ⟨-, ⟨hpost, -⟩, hdisjoint⟩ := hnodup
  have hpre : i ∉ pre := fun hmem ↦ hdisjoint i hmem i (by simp) rfl
  rw [hsplit, List.foldl_append, List.foldl_cons, hidle hpre hbefore]
  exact hidle hpost hafter

/-! ## What the commands do -/

theorem getInput_run {session : Session} {tests : Str} {answers : List Str}
    (h : session.answers = tests :: answers) :
    getInput.run session = .ok tests { session with answers := answers } := by
  simp only [getInput, EStateM.run_bind, EStateM.run_get, h, EStateM.run_set, EStateM.run_pure]

theorem getInput_run_cons {joblist : Joblist} {remote : Remote} {tests : Str}
    {answers : List Str} {screen : List Shown} :
    getInput.run ⟨joblist, remote, tests :: answers, screen⟩ =
      .ok tests ⟨joblist, remote, answers, screen⟩ := rfl

/-- The job after the three answers of `joblist_edit`. -/
def JobObj.edited (job : JobObj) (due : Option Date) (new_jobname new_cmmt : Str) : JobObj :=
  { job with
    datetime := due.or job.datetime
    job_name := if new_jobname ≠ [] then new_jobname else job.job_name
    comments := if new_cmmt ≠ [] then new_cmmt else job.comments
    actreq := .edit }

theorem newDue_year_le {duestr : Str} {d : Date} (h : newDue duestr = some (some d)) :
    d.year ≤ 9999 := by
  unfold newDue at h
  split_ifs at h
  · cases h
  · obtain ⟨d', hd', hsome⟩ := Option.map_eq_some_iff.mp h
    obtain rfl := Option.some.inj hsome
    exact strptime_year_le hd'

section Commands

variable {session : Session} {index : Str} {i : ℤ} {job : JobObj}

theorem joblistDel_run {answers : List Str} (hindex : parseInt index = some i)
    (hjob : session.joblist.lookup i = some job) (hanswers : session.answers = ['y'] :: answers) :
    (joblistDel env clock index).run session =
      (joblistSave env clock false).run
        { session with
          joblist := session.joblist.insert i { job with actreq := .del }
          answers := answers } := by
  simp only [joblistDel, hindex, orValueError, run_ofExcept, EStateM.run_bind, EStateM.run_get,
    hjob, orKeyError, getInput_run hanswers, if_true, setJob, EStateM.run_modify]

theorem joblistDel_refused
    (h : ∀ i job, parseInt index = some i → session.joblist.lookup i ≠ some job) :
    after (joblistDel env clock index) session = session := by
  simp only [after, joblistDel, EStateM.run_bind]
  cases hindex : parseInt index with
  | none => rfl
  | some i =>
      cases hjob : session.joblist.lookup i with
      | none => simp only [orValueError, run_ofExcept, EStateM.run_get, hjob]; rfl
      | some job => exact absurd hjob (h i job hindex)

/-- The job that `joblist_add` makes. -/
def Joblist.newJob (joblist : Joblist) (datenew : Date) (job_name comments : Str) : JobObj :=
  { JobObj.blank with
    idx := joblistNewIdx joblist, job_name := job_name, comments := comments
    datetime := some datenew }

theorem joblistAdd_run {test job_name comments got : Str} {answers : List Str} {datenew : Date}
    (hanswers : session.answers = test :: job_name :: comments :: got :: answers)
    (hdate : addDate clock test = .ok (some datenew)) (hprintable : Printable datenew)
    (hgot : got = ['y'] ∨ got = ['Y']) :
    (joblistAdd env clock).run session =
      (joblistSave env clock false).run
        { session with
          joblist := session.joblist.insert (joblistNewIdx session.joblist)
            (session.joblist.newJob datenew job_name comments)
          answers := answers } := by
  obtain ⟨date, hwritten⟩ := hprintable.strftime '/'
  have hshow : ∃ line, (session.joblist.newJob datenew job_name comments).show0 = .ok line := by
    simp [JobObj.show0, Joblist.newJob, hwritten, orAttributeError, orValueError, bind,
      Except.bind]
  obtain ⟨line, hline⟩ := hshow
  unfold Joblist.newJob at hline
  simp only [joblistAdd, EStateM.run_bind, getInput_run hanswers, hdate, run_ofExcept,
    getInput_run_cons, EStateM.run_get, hline, if_pos hgot, setJob, EStateM.run_modify,
    Joblist.newJob]

theorem joblistAdd_refused {test : Str} {answers : List Str}
    (hanswers : session.answers = test :: answers)
    (hdate : ∀ datenew, addDate clock test ≠ .ok (some datenew)) :
    after (joblistAdd env clock) session = { session with answers := answers } := by
  simp only [after, joblistAdd, EStateM.run_bind, getInput_run hanswers]
  cases haddDate : addDate clock test with
  | error e => rfl
  | ok datenew =>
      cases datenew with
      | none => rfl
      | some datenew => exact absurd haddDate (hdate datenew)

theorem joblistEdit_run {duestr new_jobname new_cmmt : Str} {answers : List Str}
    {due : Option Date} (hindex : parseInt index = some i)
    (hjob : session.joblist.lookup i = some job)
    (hanswers : session.answers = duestr :: new_jobname :: new_cmmt :: answers)
    (hdue : newDue duestr = some due) :
    (joblistEdit env clock index).run session =
      (joblistSave env clock false).run
        { session with
          joblist := session.joblist.insert i (job.edited due new_jobname new_cmmt)
          answers := answers } := by
  simp only [joblistEdit, hindex, orValueError, run_ofExcept, EStateM.run_bind, EStateM.run_get,
    hjob, orKeyError, getInput_run hanswers, hdue, setJob, EStateM.run_modify, getInput_run_cons,
    AList.insert_insert]
  by_cases hname : new_jobname = [] <;> by_cases hcmmt : new_cmmt = [] <;>
    simp [JobObj.edited, hname, hcmmt]

theorem joblistEdit_refused {duestr : Str} {answers : List Str}
    (hanswers : session.answers = duestr :: answers)
    (h : ∀ i job due, parseInt index = some i → session.joblist.lookup i = some job →
      newDue duestr ≠ some due) :
    (after (joblistEdit env clock index) session).joblist = session.joblist ∧
      (after (joblistEdit env clock index) session).remote = session.remote := by
  simp only [after, joblistEdit, EStateM.run_bind]
  cases hindex : parseInt index with
  | none => exact ⟨rfl, rfl⟩
  | some i =>
      simp only [orValueError, run_ofExcept, EStateM.run_get]
      cases hjob : session.joblist.lookup i with
      | none => exact ⟨rfl, rfl⟩
      | some job =>
          simp only [orKeyError, run_ofExcept, getInput_run hanswers]
          cases hdue : newDue duestr with
          | none => exact ⟨rfl, rfl⟩
          | some due => exact absurd hdue (h i job due hindex hjob)

/-- `joblist_edit` saves only after all its answers. -/
theorem joblistEdit_remote (env : Env) (clock : Clock) (session : Session)
    (hindex : parseInt index = some i) (hjob : session.joblist.lookup i = some job) :
    (after (joblistEdit env clock index) session).remote = session.remote ∨
      ∃ duestr new_jobname new_cmmt answers due,
        session.answers = duestr :: new_jobname :: new_cmmt :: answers ∧
          newDue duestr = some due := by
  by_cases hsaved : ∃ duestr new_jobname new_cmmt answers due,
      session.answers = duestr :: new_jobname :: new_cmmt :: answers ∧ newDue duestr = some due
  · exact .inr hsaved
  refine .inl ?_
  obtain ⟨joblist, remote, answers, screen⟩ := session
  simp only [after, joblistEdit, hindex, orValueError, run_ofExcept, EStateM.run_bind,
    EStateM.run_get, hjob, orKeyError]
  cases answers with
  | nil => rfl
  | cons duestr answers =>
      simp only [getInput_run_cons]
      cases hdue : newDue duestr with
      | none => rfl
      | some due =>
          simp only [run_ofExcept, setJob, EStateM.run_modify]
          cases answers with
          | nil => rfl
          | cons new_jobname answers =>
              simp only [getInput_run_cons]
              cases answers with
              | nil => rfl
              | cons new_cmmt answers =>
                  exact absurd ⟨duestr, new_jobname, new_cmmt, answers, due, rfl, hdue⟩ hsaved

end Commands

theorem todoManager_run {session : Session} {loadfile : Str} {joblist : Joblist} {remote : Remote}
    (hload : (joblistLoad env.service loadfile).run session.remote = .ok joblist remote)
    (argv : List Str) :
    (todoManager env clock loadfile argv).run session =
      (dispatch env clock argv).run { session with joblist := joblist, remote := remote } := by
  simp only [todoManager, EStateM.run_bind, onRemote_run hload, EStateM.run_modify]

theorem dispatch_del (index : Str) :
    dispatch env clock ["del".toList, index] = joblistDel env clock index := by
  have hall : "del".toList ≠ "all".toList := by decide
  have hadd : "del".toList ≠ "add".toList := by decide
  simp only [dispatch, hall, hadd, if_false, or_true, if_true]

theorem dispatch_edit (index : Str) :
    dispatch env clock ["edit".toList, index] = joblistEdit env clock index := by
  have hall : "edit".toList ≠ "all".toList := by decide
  have hadd : "edit".toList ≠ "add".toList := by decide
  have hdel : ¬("edit".toList = "fin".toList ∨ "edit".toList = "del".toList) := by decide
  have hdone : "edit".toList ≠ "done".toList := by decide
  simp only [dispatch, hall, hadd, hdel, hdone, if_false, if_true]

theorem joblistDisplay_run (days : ℤ) (session : Session) :
    (joblistDisplay env clock days).run session =
      (displayJobs clock days (env.keys session.joblist)).run session := by
  simp only [joblistDisplay, EStateM.run_bind, EStateM.run_get, strftime_of_year_ge clock.year_ge,
    orValueError, run_ofExcept]

theorem displayJob_eq_some {days : ℤ} {job : JobObj} {line : Shown}
    (h : displayJob clock days job = .ok (some line)) :
    ∃ d date level, job.datetime = some d ∧ strftime '/' d = some date ∧
      line = { level := level, idx := job.idx, date := date, job_name := job.job_name
               comments := job.comments } := by
  obtain ⟨d, hd, h⟩ := bind_eq_ok_iff.mp h
  obtain ⟨jtime, -, h⟩ := bind_eq_ok_iff.mp h
  have hdatetime : job.datetime = some d := orAttributeError_eq_ok_iff.mp hd
  have hline {level : Level} (h : (do
      let date ← orValueError (strftime '/' d)
      .ok (some { level := level, idx := job.idx, date := date, job_name := job.job_name
                  comments := job.comments }) : Except PyError (Option Shown)) = .ok (some line)) :
      ∃ d date level, job.datetime = some d ∧ strftime '/' d = some date ∧
        line = { level := level, idx := job.idx, date := date, job_name := job.job_name
                 comments := job.comments } := by
    obtain ⟨date, hdate, h⟩ := bind_eq_ok_iff.mp h
    have hsome := Option.some.inj (Except.ok.inj h)
    exact ⟨d, date, level, hdatetime, orValueError_eq_ok_iff.mp hdate, hsome.symm⟩
  dsimp only at h
  split_ifs at h
  · exact hline h
  · exact hline h
  · exact hline h
  · cases Except.ok.inj h

theorem mem_screen_displayJobs {days : ℤ} {keys : List ℤ} {session : Session} {line : Shown}
    (h : line ∈ (after (displayJobs clock days keys) session).screen)
    (hnew : line ∉ session.screen) :
    ∃ x job, session.joblist.lookup x = some job ∧ displayJob clock days job = .ok (some line) := by
  induction keys generalizing session with
  | nil => exact absurd h hnew
  | cons x keys ih =>
      simp only [after, displayJobs, EStateM.run_bind, EStateM.run_get] at h
      cases hjob : session.joblist.lookup x with
      | none =>
          simp only [hjob, orKeyError, run_ofExcept_error] at h
          exact absurd h hnew
      | some job =>
          simp only [hjob, orKeyError, run_ofExcept] at h
          cases hline : displayJob clock days job with
          | error e =>
              simp only [hline, run_ofExcept_error] at h
              exact absurd h hnew
          | ok shown =>
              simp only [hline, run_ofExcept, EStateM.run_set] at h
              by_cases hshown : line ∈ shown.toList
              · rw [Option.mem_toList] at hshown
                exact ⟨x, job, hjob, by rw [hline, hshown]⟩
              · apply ih h
                simp [hnew, hshown]

end EsNotebook.Todo
