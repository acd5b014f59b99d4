import EsNotebook.Lib.PyDict
import EsNotebook.Todo.JobObj
import Mathlib.Data.Char

/-!
# The task service

The functions of `quick_task_list.py` over a store of tasks.  The service
may list the tasks in any order, and fail; an exception ends a function, but
what it has written stays.
-/

namespace EsNotebook.Todo

open Py

inductive Status where
  | needsAction
  | completed
  deriving DecidableEq, Repr

structure Task where
  id : Str
  title : Str
  notes : Option Str
  due : Option Str
  status : Status
  completed : Option Str
  deriving DecidableEq, Repr

/-- The tasks of the list `@default`; `calls` counts the requests. -/
structure Remote where
  tasks : List Task
  calls : ℕ
  nodup : (tasks.map Task.id).Nodup

/-- The answer to `list`. -/
structure Response where
  items : Option (List Task)
  nextPageToken : Option Str
  deriving DecidableEq, Repr

/-- Answers may depend on the number of the request. -/
structure Service where
  setup : ℕ → Except PyError Unit
  listing : ℕ → List Task → Except PyError Response
  freshId : List Str → Str
  freshId_notMem : ∀ ids, freshId ids ∉ ids

/-- A list is returned in one page, in some order. -/
structure OnePage (service : Service) : Prop where
  setup : ∀ n, service.setup n = .ok ()
  listing : ∀ n tasks, ∃ items, service.listing n tasks = .ok ⟨some items, none⟩ ∧
    items.Perm tasks

abbrev RemoteM := EStateM PyError Remote

def ofExcept {σ α : Type} : Except PyError α → EStateM PyError σ α
  | .ok a => pure a
  | .error e => throw e

/-! ## Requests -/

/-- The tasks that `list` covers. -/
def Remote.visible (remote : Remote) (showCompleted : Bool) : List Task :=
  remote.tasks.filter fun t ↦ showCompleted ∨ t.status ≠ .completed

/-- The task with the id of `body` is replaced. -/
def Remote.update (remote : Remote) (body : Task) : Remote where
  tasks := remote.tasks.map fun t ↦ if t.id = body.id then body else t
  calls := remote.calls + 1
  nodup := by
    have hids : (remote.tasks.map fun t ↦ if t.id = body.id then body else t).map Task.id =
        remote.tasks.map Task.id := by
      rw [List.map_map]
      apply List.map_congr_left
      intro t _
      by_cases h : t.id = body.id <;> simp [h]
    rw [hids]
    exact remote.nodup

/-- A new task with a fresh id. -/
def Remote.insert (service : Service) (remote : Remote) (title notes due : Str) : Remote where
  tasks := remote.tasks ++
    [{ id := service.freshId (remote.tasks.map Task.id), title := title, notes := some notes
       due := some due, status := .needsAction, completed := none }]
  calls := remote.calls + 1
  nodup := by
    rw [List.map_append, List.nodup_append]
    refine ⟨remote.nodup, by simp, ?_⟩
    intro a ha b hb
    obtain rfl := List.mem_singleton.mp hb
    exact fun h ↦ service.freshId_notMem _ (h ▸ ha)

variable (service : Service)

/-- `setup_credentials` -/
def setupCredentials : RemoteM Unit := do
  let remote ← get
  set { remote with calls := remote.calls + 1 }
  ofExcept (service.setup remote.calls)

/-- `service.tasks().list(showCompleted=..).execute()['items']` -/
def listItems (showCompleted : Bool) : RemoteM (List Task) := do
  let remote ← get
  set { remote with calls := remote.calls + 1 }
  let tasks ← ofExcept (service.listing remote.calls (remote.visible showCompleted))
  match tasks.items with
  | some items => pure items
  | none => throw .keyError

/-! ## Items -/

/-- `"%Y-%m-%dT00:00:00.000Z"` -/
def isoDate (d : Date) : Option Str :=
  (strftime '-' d).map (· ++ "T00:00:00.000Z".toList)

/-- `strftime` writes years from 1900 on and two-digit years. -/
def Printable (d : Date) : Prop := ¬(100 ≤ d.year ∧ d.year < 1900)

instance : DecidablePred Printable := fun d ↦
  inferInstanceAs (Decidable ¬(100 ≤ d.year ∧ d.year < 1900))

theorem Printable.strftime {d : Date} (h : Printable d) (sep : Char) :
    ∃ s, strftime sep d = some s := by
  unfold Printable at h
  unfold Py.strftime strftimeYear
  split_ifs
  all_goals first | exact ⟨_, rfl⟩ | omega

theorem Printable.isoDate {d : Date} (h : Printable d) : ∃ s, isoDate d = some s := by
  obtain ⟨s, hs⟩ := h.strftime '-'
  exact ⟨_, by rw [Todo.isoDate, hs]; rfl⟩

/-- An item that `load_all_task` returns. -/
structure Item where
  jobname : Str
  date : Str
  id : Str
  description : Option Str
  deriving DecidableEq, Repr

/-- The dict that the item is, by key. -/
def Item.dict (item : Item) : List (Str × Str) :=
  match item.description with
  | none =>
      [("date".toList, item.date), ("id".toList, item.id), ("jobname".toList, item.jobname)]
  | some description =>
      [("date".toList, item.date), ("description".toList, description), ("id".toList, item.id),
        ("jobname".toList, item.jobname)]

/-- `a` does not come after `b`. -/
def Item.Le (a b : Item) : Prop := ¬dictLt b.dict a.dict

instance : DecidableRel Item.Le := fun _ _ ↦ inferInstanceAs (Decidable (¬_ = true))

/-- `list.sort` of items. -/
def sortItems (items : List Item) : List Item := items.insertionSort Item.Le

/-- The turn of the loop of `load_all_task` for one task. -/
def loadItem (showDone : Bool) (task : Task) : Except PyError (Option Item) :=
  match task.due with
  | none => .ok none
  | some due =>
      if showDone ∧ task.status ≠ .completed then .ok none
      else
        match if showDone then task.completed else some due with
        | none => .error .keyError
        | some date =>
            .ok (some { jobname := task.title, date := date, id := task.id, description := task.notes })

def loadItems (showDone : Bool) : List Task → Except PyError (List Item)
  | [] => .ok []
  | task :: rest => do
      let item ← loadItem showDone task
      let items ← loadItems showDone rest
      .ok (item.toList ++ items)

/-- `load_all_task` -/
def loadAllTask (showDone : Bool) : RemoteM (List Item) := do
  setupCredentials service
  let tasks ← listItems service showDone
  let mytasks ← ofExcept (loadItems showDone tasks)
  pure (sortItems mytasks)

/-- `compelte_task` -/
def compelteTask (clock : Clock) (gid : Str) : RemoteM Bool := do
  setupCredentials service
  let tasks ← listItems service false
  match tasks.find? fun ti ↦ ti.id = gid with
  | none => pure false
  | some ti =>
      let completed ← ofExcept (orValueError (isoDate clock.today))
      modify fun remote ↦
        remote.update { ti with status := .completed, completed := some completed }
      pure true

/-- `update_task` -/
def updateTask (gid title note due : Str) : RemoteM Bool := do
  setupCredentials service
  let tasks ← listItems service false
  match tasks.find? fun ti ↦ ti.id = gid with
  | none => pure false
  | some ti =>
      modify fun remote ↦
        remote.update { ti with title := title, notes := some note, due := some due }
      pure true

/-- An item that `sync_to_tasklist` is given. -/
structure SyncItem where
  jobname : Str
  id : Str
  description : Str
  date : Str
  actreq : ActReq
  deriving DecidableEq, Repr

/-- The turn of the loop of `sync_to_tasklist` for one item. -/
def syncItem (clock : Clock) (item : SyncItem) : RemoteM Unit :=
  if item.id = newGid then
    modify fun remote ↦ remote.insert service item.jobname item.description item.date
  else
    match item.actreq with
    | .del => do
        let _ ← compelteTask service clock item.id
    | .edit => do
        let _ ← updateTask service item.id item.jobname item.description item.date
    | .none => pure ()

def syncItems (clock : Clock) : List SyncItem → RemoteM Unit
  | [] => pure ()
  | item :: rest => do
      syncItem service clock item
      syncItems clock rest

/-- `sync_to_tasklist` -/
def syncToTasklist (clock : Clock) (itemlist : List SyncItem) : RemoteM (List Item) := do
  setupCredentials service
  syncItems service clock itemlist
  loadAllTask service false

/-! ## What the requests do -/

variable {service}

/-- `f` on the open task with this id. -/
def onOpen (gid : Str) (f : Task → Task) (tasks : List Task) : List Task :=
  tasks.map fun t ↦ if t.id = gid ∧ t.status ≠ .completed then f t else t

/-- The task as `compelte_task` sends it. -/
def Task.complete (clock : Clock) (t : Task) : Task :=
  { t with status := .completed, completed := isoDate clock.today }

/-- The task as `update_task` sends it. -/
def Task.rewrite (title note due : Str) (t : Task) : Task :=
  { t with title := title, notes := some note, due := some due }

theorem run_ofExcept {σ α : Type} {a : α} {s : σ} :
    (ofExcept (.ok a : Except PyError α) : EStateM PyError σ α).run s = .ok a s := rfl

theorem run_ofExcept_error {σ α : Type} {e : PyError} {s : σ} :
    (ofExcept (.error e : Except PyError α) : EStateM PyError σ α).run s = .error e s := rfl

theorem isoDate_today (clock : Clock) : ∃ s, isoDate clock.today = some s :=
  ⟨_, by rw [isoDate, strftime_of_year_ge clock.year_ge]; rfl⟩

theorem mem_visible_false {remote : Remote} {t : Task} :
    t ∈ remote.visible false ↔ t ∈ remote.tasks ∧ t.status ≠ .completed := by
  simp [Remote.visible]

theorem eq_of_id_eq {tasks : List Task} (hnodup : (tasks.map Task.id).Nodup) {t u : Task}
    (ht : t ∈ tasks) (hu : u ∈ tasks) (h : t.id = u.id) : t = u :=
  List.inj_on_of_nodup_map hnodup ht hu h

theorem find?_of_mem {tasks : List Task} (hnodup : (tasks.map Task.id).Nodup) {t : Task}
    (ht : t ∈ tasks) : tasks.find? (fun u ↦ u.id = t.id) = some t := by
  cases hfind : tasks.find? (fun u ↦ u.id = t.id) with
  | none => exact absurd (decide_eq_true rfl) (List.find?_eq_none.mp hfind t ht)
  | some u =>
      have hid : u.id = t.id := by simpa using List.find?_some hfind
      rw [eq_of_id_eq hnodup (List.mem_of_find?_eq_some hfind) ht hid]

theorem onOpen_eq_self {gid : Str} {f : Task → Task} {tasks : List Task}
    (h : ∀ t ∈ tasks, t.id = gid → t.status ≠ .completed → f t = t) :
    onOpen gid f tasks = tasks := by
  refine (List.map_congr_left fun t ht ↦ ?_).trans (List.map_id' tasks)
  split_ifs with hopen
  · exact h t ht hopen.1 hopen.2
  · rfl

theorem update_tasks {remote : Remote} {ti body : Task} {f : Task → Task}
    (hti : ti ∈ remote.visible false) (hbody : body = f ti) (hid : body.id = ti.id) :
    (remote.update body).tasks = onOpen ti.id f remote.tasks := by
  obtain ⟨hmem, hopen⟩ := mem_visible_false.mp hti
  apply List.map_congr_left
  intro t ht
  by_cases h : t.id = ti.id
  · obtain rfl := eq_of_id_eq remote.nodup ht hmem h
    rw [if_pos hid.symm, if_pos ⟨rfl, hopen⟩, hbody]
  · rw [if_neg (hid ▸ h), if_neg fun h' ↦ h h'.1]

theorem setupCredentials_run {remote : Remote} (h : service.setup remote.calls = .ok ()) :
    (setupCredentials service).run remote = .ok () { remote with calls := remote.calls + 1 } := by
  simp only [setupCredentials, EStateM.run_bind, EStateM.run_get, EStateM.run_set, h, run_ofExcept]

/-- The two requests with which most functions begin are answered, the second
one with these tasks. -/
structure Fetches (service : Service) (showCompleted : Bool) (remote : Remote)
    (items : List Task) : Prop where
  setup : service.setup remote.calls = .ok ()
  listing : ∃ token, service.listing (remote.calls + 1) (remote.visible showCompleted) =
    .ok ⟨some items, token⟩

theorem Fetches.run {showCompleted : Bool} {remote : Remote} {items : List Task}
    (h : Fetches service showCompleted remote items) {α : Type} (f : List Task → RemoteM α) :
    (do setupCredentials service; let tasks ← listItems service showCompleted; f tasks).run
      remote = (f items).run { remote with calls := remote.calls + 2 } := by
  obtain ⟨token, hlisting⟩ := h.listing
  have hlisting' : service.listing (remote.calls + 1)
      (Remote.visible { remote with calls := remote.calls + 1 } showCompleted) =
        .ok ⟨some items, token⟩ := hlisting
  simp only [EStateM.run_bind, setupCredentials_run h.setup, listItems, EStateM.run_get,
    EStateM.run_set, hlisting', run_ofExcept, EStateM.run_pure]

/-- A function that ends well has got its answers. -/
theorem exists_fetches {showCompleted : Bool} {remote remote' : Remote} {α : Type} {a : α}
    {f : List Task → RemoteM α}
    (h : (do setupCredentials service; let tasks ← listItems service showCompleted; f tasks).run
      remote = .ok a remote') :
    ∃ items, Fetches service showCompleted remote items ∧
      (f items).run { remote with calls := remote.calls + 2 } = .ok a remote' := by
  suffices hfetches : ∃ items, Fetches service showCompleted remote items by
    obtain ⟨items, hitems⟩ := hfetches
    exact ⟨items, hitems, (hitems.run f).symm.trans h⟩
  simp only [setupCredentials, EStateM.run_bind, EStateM.run_get, EStateM.run_set] at h
  cases hsetup : service.setup remote.calls with
  | error e =>
      rw [hsetup, run_ofExcept_error] at h
      cases h
  | ok u =>
      simp only [hsetup, run_ofExcept, listItems, EStateM.run_bind, EStateM.run_get,
        EStateM.run_set] at h
      cases hlisting : service.listing (remote.calls + 1)
          (Remote.visible { remote with calls := remote.calls + 1 } showCompleted) with
      | error e =>
          rw [hlisting, run_ofExcept_error] at h
          cases h
      | ok response =>
          obtain ⟨items, token⟩ := response
          cases items with
          | none =>
              rw [hlisting, run_ofExcept] at h
              cases h
          | some items => exact ⟨items, hsetup, token, hlisting⟩

theorem OnePage.fetches (h : OnePage service) (showCompleted : Bool) (remote : Remote) :
    ∃ items, items.Perm (remote.visible showCompleted) ∧
      Fetches service showCompleted remote items := by
  obtain ⟨items, hlisting, hperm⟩ :=
    h.listing (remote.calls + 1) (remote.visible showCompleted)
  exact ⟨items, hperm, h.setup _, none, hlisting⟩

/-- The search of `compelte_task` and `update_task` in what `list` returned. -/
theorem find?_gid {remote : Remote} {items : List Task} (hperm : items.Perm (remote.visible false))
    (gid : Str) (f : Task → Task) :
    (items.find? (fun ti ↦ ti.id = gid) = none ∧ onOpen gid f remote.tasks = remote.tasks) ∨
      ∃ ti, items.find? (fun ti ↦ ti.id = gid) = some ti ∧ ti ∈ remote.visible false ∧
        ti.id = gid := by
  cases hfind : items.find? (fun ti ↦ ti.id = gid) with
  | none =>
      refine .inl ⟨rfl, onOpen_eq_self ?_⟩
      intro t ht hid hopen
      have hmem := hperm.mem_iff.mpr (mem_visible_false.mpr ⟨ht, hopen⟩)
      have hnone := List.find?_eq_none.mp hfind t hmem
      exact absurd (decide_eq_true hid) hnone
  | some ti =>
      have hmem := hperm.mem_iff.mp (List.mem_of_find?_eq_some hfind)
      exact .inr ⟨ti, rfl, hmem, by simpa using List.find?_some hfind⟩

theorem compelteTask_of_fetches {remote : Remote} {items : List Task}
    (h : Fetches service false remote items) (clock : Clock) {gid : Str} {ti : Task}
    (hfind : items.find? (fun ti ↦ ti.id = gid) = some ti) :
    (compelteTask service clock gid).run remote =
      .ok true (Remote.update { remote with calls := remote.calls + 2 } (ti.complete clock)) := by
  obtain ⟨stamp, hstamp⟩ := isoDate_today clock
  unfold compelteTask
  rw [h.run]
  simp only [hfind, hstamp, orValueError, EStateM.run_bind, run_ofExcept, EStateM.run_modify,
    EStateM.run_pure, Task.complete]

theorem updateTask_of_fetches {remote : Remote} {items : List Task}
    (h : Fetches service false remote items) (title note due : Str) {gid : Str} {ti : Task}
    (hfind : items.find? (fun ti ↦ ti.id = gid) = some ti) :
    (updateTask service gid title note due).run remote =
      .ok true (Remote.update { remote with calls := remote.calls + 2 }
        (ti.rewrite title note due)) := by
  unfold updateTask
  rw [h.run]
  simp only [hfind, EStateM.run_bind, EStateM.run_modify, EStateM.run_pure, Task.rewrite]

theorem compelteTask_run (h : OnePage service) (clock : Clock) (gid : Str) (remote : Remote) :
    ∃ found remote', (compelteTask service clock gid).run remote = .ok found remote' ∧
      remote'.tasks = onOpen gid (.complete clock) remote.tasks := by
  obtain ⟨items, hperm, hfetches⟩ := h.fetches false remote
  rcases find?_gid hperm gid (.complete clock) with ⟨hnone, hsame⟩ | ⟨ti, hsome, hti, rfl⟩
  · refine ⟨false, { remote with calls := remote.calls + 2 }, ?_, hsame.symm⟩
    unfold compelteTask
    rw [hfetches.run]
    simp only [hnone, EStateM.run_pure]
  · exact ⟨true, _, compelteTask_of_fetches hfetches clock hsome, update_tasks hti rfl rfl⟩

theorem updateTask_run (h : OnePage service) (gid title note due : Str) (remote : Remote) :
    ∃ found remote', (updateTask service gid title note due).run remote = .ok found remote' ∧
      remote'.tasks = onOpen gid (.rewrite title note due) remote.tasks := by
  obtain ⟨items, hperm, hfetches⟩ := h.fetches false remote
  rcases find?_gid hperm gid (.rewrite title note due) with
    ⟨hnone, hsame⟩ | ⟨ti, hsome, hti, rfl⟩
  · refine ⟨false, { remote with calls := remote.calls + 2 }, ?_, hsame.symm⟩
    unfold updateTask
    rw [hfetches.run]
    simp only [hnone, EStateM.run_pure]
  · exact ⟨true, _, updateTask_of_fetches hfetches title note due hsome, update_tasks hti rfl rfl⟩

/-- What an item does to the tasks. -/
def SyncItem.effect (service : Service) (clock : Clock) (item : SyncItem) (tasks : List Task) :
    List Task :=
  if item.id = newGid then
    tasks ++ [{ id := service.freshId (tasks.map Task.id), title := item.jobname
                notes := some item.description, due := some item.date, status := .needsAction
                completed := none }]
  else
    match item.actreq with
    | .del => onOpen item.id (.complete clock) tasks
    | .edit => onOpen item.id (.rewrite item.jobname item.description item.date) tasks
    | .none => tasks

theorem syncItem_run (h : OnePage service) (clock : Clock) (item : SyncItem) (remote : Remote) :
    ∃ remote', (syncItem service clock item).run remote = .ok () remote' ∧
      remote'.tasks = item.effect service clock remote.tasks := by
  unfold syncItem SyncItem.effect
  split_ifs
  · exact ⟨_, rfl, rfl⟩
  · cases item.actreq with
    | del =>
        obtain ⟨found, remote', hrun, htasks⟩ := compelteTask_run h clock item.id remote
        refine ⟨remote', ?_, htasks⟩
        simp only [EStateM.run_bind, hrun, EStateM.run_pure]
    | edit =>
        obtain ⟨found, remote', hrun, htasks⟩ :=
          updateTask_run h item.id item.jobname item.description item.date remote
        refine ⟨remote', ?_, htasks⟩
        simp only [EStateM.run_bind, hrun, EStateM.run_pure]
    | none => exact ⟨remote, rfl, rfl⟩

/-- The effects of the items add up if each of them takes its effect. -/
theorem syncItems_run (clock : Clock) (itemlist : List SyncItem)
    (h : ∀ item ∈ itemlist, ∀ remote, ∃ remote',
      (syncItem service clock item).run remote = .ok () remote' ∧
        remote'.tasks = item.effect service clock remote.tasks) (remote : Remote) :
    ∃ remote', (syncItems service clock itemlist).run remote = .ok () remote' ∧
      remote'.tasks = itemlist.foldl (fun tasks item ↦ item.effect service clock tasks)
        remote.tasks := by
  induction itemlist generalizing remote with
  | nil => exact ⟨remote, rfl, rfl⟩
  | cons item rest ih =>
      obtain ⟨remote₁, hrun₁, htasks₁⟩ := h item (by simp) remote
      obtain ⟨remote₂, hrun₂, htasks₂⟩ := ih (fun item hitem ↦ h item (by simp [hitem])) remote₁
      refine ⟨remote₂, ?_, by rw [htasks₂, htasks₁, List.foldl_cons]⟩
      simp only [syncItems, EStateM.run_bind, hrun₁, hrun₂]

/-- The item of a task that has a due date. -/
def Task.item (t : Task) : Option Item :=
  t.due.map fun due ↦ { jobname := t.title, date := due, id := t.id, description := t.notes }

theorem loadItems_false (tasks : List Task) :
    loadItems false tasks = .ok (tasks.filterMap Task.item) := by
  induction tasks with
  | nil => rfl
  | cons t tasks ih =>
      cases hdue : t.due with
      | none => simp [loadItems, loadItem, Task.item, hdue, ih, bind, Except.bind]
      | some due => simp [loadItems, loadItem, Task.item, hdue, ih, bind, Except.bind]

/-- `load_all_task(False)` finds the tasks with a due date in what `list`
returned. -/
theorem loadAllTask_of_fetches {remote : Remote} {items : List Task}
    (h : Fetches service false remote items) : (loadAllTask service false).run remote =
      .ok (sortItems (items.filterMap Task.item)) { remote with calls := remote.calls + 2 } := by
  unfold loadAllTask
  rw [h.run]
  simp only [loadItems_false, EStateM.run_bind, run_ofExcept, EStateM.run_pure]

theorem loadAllTask_run (h : OnePage service) (remote : Remote) :
    ∃ items : List Task, items.Perm (remote.visible false) ∧ (loadAllTask service false).run remote =
      .ok (sortItems (items.filterMap Task.item)) { remote with calls := remote.calls + 2 } := by
  obtain ⟨items, hperm, hfetches⟩ := h.fetches false remote
  exact ⟨items, hperm, loadAllTask_of_fetches hfetches⟩

theorem syncToTasklist_run (h : OnePage service) (clock : Clock) (itemlist : List SyncItem)
    (remote : Remote) :
    ∃ items remote', (syncToTasklist service clock itemlist).run remote = .ok items remote' ∧
      remote'.tasks = itemlist.foldl (fun tasks item ↦ item.effect service clock tasks)
        remote.tasks := by
  obtain ⟨remote', hsync, htasks⟩ :=
    syncItems_run clock itemlist (fun item _ ↦ syncItem_run h clock item)
      { remote with calls := remote.calls + 1 }
  obtain ⟨items, -, hload⟩ := loadAllTask_run h remote'
  refine ⟨sortItems (items.filterMap Task.item), { remote' with calls := remote'.calls + 2 }, ?_,
    htasks⟩
  simp only [syncToTasklist, EStateM.run_bind, setupCredentials_run (h.setup _), hsync, hload]

/-! ## The order of items -/

/-- The values of the item, by key. -/
def Item.values (item : Item) : List Str := item.dict.map Prod.snd

/-- Items with a description come after those without; otherwise date,
description, id and name decide. -/
def Item.rank (item : Item) : ℕ ×ₗ List Str := toLex (item.dict.length, item.values)

theorem Item.keys_sorted (item : Item) : (item.dict.map Prod.fst).Pairwise (· < ·) := by
  unfold Item.dict
  cases item.description with
  | none => exact (by decide +kernel : ["date".toList, "id".toList, "jobname".toList].Pairwise (· < ·))
  | some description =>
      exact (by decide +kernel :
        ["date".toList, "description".toList, "id".toList, "jobname".toList].Pairwise (· < ·))

theorem Item.keys_eq_of_length {a b : Item} (h : a.dict.length = b.dict.length) :
    a.dict.map Prod.fst = b.dict.map Prod.fst := by
  unfold Item.dict at *
  cases ha : a.description <;> cases hb : b.description <;> simp_all

theorem Item.le_iff_rank_le {a b : Item} : Item.Le a b ↔ a.rank ≤ b.rank := by
  rw [Item.Le, ← not_lt]
  apply not_congr
  rw [Item.rank, Item.rank, Prod.Lex.toLex_lt_toLex]
  by_cases hlen : b.dict.length = a.dict.length
  · have hkeys := Item.keys_eq_of_length hlen
    simp [dictLt_iff_of_keys_eq hkeys b.keys_sorted, hlen, Item.values]
  · simp [dictLt, hlen]

theorem Item.rank_injective : Function.Injective Item.rank := by
  rintro ⟨jobname, date, id, description⟩ ⟨jobname', date', id', description'⟩ h
  have hvalues := congrArg (fun rank ↦ (ofLex rank).2) h
  cases description <;> cases description' <;> simp_all [Item.rank, Item.values, Item.dict]

instance : Std.Total Item.Le := ⟨fun a b ↦ by
  simp only [Item.le_iff_rank_le]
  exact le_total _ _⟩

instance : IsTrans Item Item.Le := ⟨fun a b c hab hbc ↦ by
  rw [Item.le_iff_rank_le] at *
  exact hab.trans hbc⟩

instance : Std.Antisymm Item.Le := ⟨fun a b hab hba ↦ by
  rw [Item.le_iff_rank_le] at *
  exact Item.rank_injective (le_antisymm hab hba)⟩

theorem sortItems_perm (items : List Item) : (sortItems items).Perm items :=
  List.perm_insertionSort _ _

theorem mem_sortItems {tasks : List Task} {ti : Item} :
    ti ∈ sortItems (tasks.filterMap Task.item) ↔ ∃ t ∈ tasks, t.item = some ti := by
  rw [(sortItems_perm _).mem_iff, List.mem_filterMap]

theorem sortItems_eq_of_perm {items items' : List Item} (h : items.Perm items') :
    sortItems items = sortItems items' := by
  apply List.Perm.eq_of_pairwise' (List.pairwise_insertionSort _ _) (List.pairwise_insertionSort _ _)
  exact ((sortItems_perm _).trans h).trans (sortItems_perm _).symm

theorem sortItems_sortItems (items : List Item) : sortItems (sortItems items) = sortItems items :=
  sortItems_eq_of_perm (sortItems_perm _)

end EsNotebook.Todo
