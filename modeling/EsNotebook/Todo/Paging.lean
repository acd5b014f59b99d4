import EsNotebook.Todo.Addressing

/-!
# Lists longer than a page

`load_all_task`, `compelte_task` and `update_task` ask for the list once and
look at the tasks of the first page only.  An answer without tasks has no
items, which all three take for granted.
-/

namespace EsNotebook.Todo

open Py

/-- `list` returns at most `page` tasks, a token while more remain, and no
items when there is none to return. -/
structure Paged (page : ℕ) (service : Service) : Prop where
  setup : ∀ n, service.setup n = .ok ()
  listing : ∀ n tasks, ∃ items token,
    service.listing n tasks = .ok ⟨if items = [] then none else some items, token⟩ ∧
      items.Subperm tasks ∧ items.length ≤ page ∧ (token = none ↔ items.length = tasks.length)

/-- The open tasks with a due date are loaded, and can be completed and
changed. -/
structure EveryOpenTaskSeen (service : Service) (remote : Remote) : Prop where
  loaded : ∃ items remote', (loadAllTask service false).run remote = .ok items remote' ∧
    items.Perm ((remote.visible false).filterMap Task.item) ∧ remote'.tasks = remote.tasks
  completed : ∀ t ∈ remote.visible false, t.due ≠ none → ∀ clock, ∃ remote',
    (compelteTask service clock t.id).run remote = .ok true remote' ∧
      remote'.tasks = onOpen t.id (.complete clock) remote.tasks
  updated : ∀ t ∈ remote.visible false, t.due ≠ none → ∀ title note due, ∃ remote',
    (updateTask service t.id title note due).run remote = .ok true remote' ∧
      remote'.tasks = onOpen t.id (.rewrite title note due) remote.tasks

/-- The first page has items, and all open tasks with a due date among them. -/
def FirstPageSuffices (service : Service) (remote : Remote) : Prop :=
  ∃ items, Fetches service false remote items ∧
    ∀ t ∈ remote.visible false, t.due ≠ none → t ∈ items

variable {page : ℕ} {service : Service} {remote : Remote} {items : List Task}

theorem Task.item_eq_some_iff {t : Task} {ti : Item} :
    t.item = some ti ↔ t.due = some ti.date ∧ ti.jobname = t.title ∧ ti.id = t.id ∧
      ti.description = t.notes := by
  obtain ⟨jobname, date, id, description⟩ := ti
  cases hdue : t.due with
  | none => simp [Task.item, hdue]
  | some due => simp [Task.item, hdue]; tauto

theorem Paged.subperm (h : Paged page service) (hfetches : Fetches service false remote items) :
    items.Subperm (remote.visible false) ∧ items.length ≤ page ∧ items ≠ [] := by
  obtain ⟨token, hlisting⟩ := hfetches.listing
  obtain ⟨items', token', hlisting', hsubperm, hlength, -⟩ :=
    h.listing (remote.calls + 1) (remote.visible false)
  have hresponse := Except.ok.inj (hlisting'.symm.trans hlisting)
  have hitems : (if items' = [] then none else some items') = some items :=
    congrArg Response.items hresponse
  split_ifs at hitems with hnil
  obtain rfl := Option.some.inj hitems
  exact ⟨hsubperm, hlength, hnil⟩

theorem nodup_page_id (hsubperm : items.Subperm (remote.visible false)) :
    (items.map Task.id).Nodup := by
  obtain ⟨items', hperm, hsublist⟩ := hsubperm
  apply (hperm.map Task.id).nodup_iff.mp
  exact (nodup_visible_id remote false).sublist (hsublist.map Task.id)

/-- The items of a page that has all the tasks with a due date. -/
theorem perm_filterMap_item (hsubperm : items.Subperm (remote.visible false))
    (hall : ∀ t ∈ remote.visible false, t.due ≠ none → t ∈ items) :
    (items.filterMap Task.item).Perm ((remote.visible false).filterMap Task.item) := by
  have hpage := (nodup_filterMap_item_id (nodup_page_id hsubperm)).of_map
  have hvisible := (nodup_filterMap_item_id (nodup_visible_id remote false)).of_map
  apply (List.perm_ext_iff_of_nodup hpage hvisible).mpr
  intro ti
  simp only [List.mem_filterMap]
  constructor
  · rintro ⟨t, ht, hitem⟩
    exact ⟨t, hsubperm.subset ht, hitem⟩
  · rintro ⟨t, ht, hitem⟩
    refine ⟨t, hall t ht ?_, hitem⟩
    rw [(Task.item_eq_some_iff.mp hitem).1]
    exact Option.some_ne_none _

theorem FirstPageSuffices.seen (h : FirstPageSuffices service remote) (hpaged : Paged page service) :
    EveryOpenTaskSeen service remote := by
  obtain ⟨items, hfetches, hall⟩ := h
  have hsubperm := (hpaged.subperm hfetches).1
  constructor
  case loaded =>
    exact ⟨_, _, loadAllTask_of_fetches hfetches,
      (sortItems_perm _).trans (perm_filterMap_item hsubperm hall), rfl⟩
  case completed =>
    intro t ht hdue clock
    have hfind := find?_of_mem (nodup_page_id hsubperm) (hall t ht hdue)
    exact ⟨_, compelteTask_of_fetches hfetches clock hfind, update_tasks ht rfl rfl⟩
  case updated =>
    intro t ht hdue title note due
    have hfind := find?_of_mem (nodup_page_id hsubperm) (hall t ht hdue)
    exact ⟨_, updateTask_of_fetches hfetches title note due hfind, update_tasks ht rfl rfl⟩

theorem EveryOpenTaskSeen.firstPageSuffices (h : EveryOpenTaskSeen service remote)
    (hpaged : Paged page service) : FirstPageSuffices service remote := by
  obtain ⟨mytasks, remote', hrun, hperm, -⟩ := h.loaded
  obtain ⟨items, hfetches, -⟩ := exists_fetches hrun
  have hsubperm := (hpaged.subperm hfetches).1
  refine ⟨items, hfetches, ?_⟩
  intro t ht hdue
  obtain ⟨due, hdue⟩ := Option.ne_none_iff_exists'.mp hdue
  rw [loadAllTask_of_fetches hfetches] at hrun
  cases hrun
  let ti : Item := { jobname := t.title, date := due, id := t.id, description := t.notes }
  have hti : ti ∈ sortItems (items.filterMap Task.item) := by
    rw [hperm.mem_iff, List.mem_filterMap]
    exact ⟨t, ht, Task.item_eq_some_iff.mpr ⟨hdue, rfl, rfl, rfl⟩⟩
  obtain ⟨u, hu, hitem⟩ := mem_sortItems.mp hti
  obtain ⟨-, -, hid, -⟩ := Task.item_eq_some_iff.mp hitem
  have hopen := (mem_visible_false.mp (hsubperm.subset hu)).1
  rwa [eq_of_id_eq remote.nodup (mem_visible_false.mp ht).1 hopen hid]

/-- An empty list raises `KeyError`. -/
theorem not_seen_of_visible_nil (hpaged : Paged page service) (h : remote.visible false = []) :
    ¬EveryOpenTaskSeen service remote := by
  intro hseen
  obtain ⟨items, hfetches, -⟩ := hseen.firstPageSuffices hpaged
  obtain ⟨hsubperm, -, hne⟩ := hpaged.subperm hfetches
  rw [h, List.subperm_nil] at hsubperm
  exact hne hsubperm

/-- More tasks than fit on a page are not all seen. -/
theorem not_seen_of_page_lt (hpaged : Paged page service)
    (h : page < ((remote.visible false).filterMap Task.item).length) :
    ¬EveryOpenTaskSeen service remote := by
  intro hseen
  obtain ⟨items, hfetches, hall⟩ := hseen.firstPageSuffices hpaged
  obtain ⟨hsubperm, hlength, -⟩ := hpaged.subperm hfetches
  have hperm := perm_filterMap_item hsubperm hall
  have hle := List.length_filterMap_le Task.item items
  rw [hperm.length_eq] at hle
  omega

/-- A list without a next page is seen, unless it is empty. -/
theorem seen_of_last_page (hpaged : Paged page service) (hne : remote.visible false ≠ [])
    {response : Response}
    (hlisting : service.listing (remote.calls + 1) (remote.visible false) = .ok response)
    (htoken : response.nextPageToken = none) : EveryOpenTaskSeen service remote := by
  obtain ⟨items, token, hpage, hsubperm, -, hlast⟩ :=
    hpaged.listing (remote.calls + 1) (remote.visible false)
  obtain rfl := Except.ok.inj (hlisting.symm.trans hpage)
  have hperm := hsubperm.perm_of_length_le (hlast.mp htoken).ge
  have hitems : items ≠ [] := by
    rintro rfl
    exact hne hperm.nil_eq.symm
  rw [if_neg hitems] at hpage
  apply FirstPageSuffices.seen _ hpaged
  exact ⟨items, ⟨hpaged.setup _, token, hpage⟩, fun t ht _ ↦ hperm.mem_iff.mpr ht⟩

/-- Every open task is seen exactly if the first page shows them. -/
theorem every_open_task_seen_iff (page : ℕ) (service : Service) (hpaged : Paged page service)
    (remote : Remote) : EveryOpenTaskSeen service remote ↔ FirstPageSuffices service remote :=
  ⟨fun h ↦ h.firstPageSuffices hpaged, fun h ↦ h.seen hpaged⟩

/-- A service with twenty tasks on a page. -/
def twentyService : Service :=
  { turningService with
    listing := fun _ tasks ↦
      .ok ⟨if tasks.take 20 = [] then none else some (tasks.take 20),
        if tasks.length ≤ 20 then none else some ['p']⟩ }

theorem twentyService_paged : Paged 20 twentyService where
  setup _ := rfl
  listing n tasks := by
    refine ⟨tasks.take 20, _, rfl, (List.take_sublist 20 tasks).subperm, List.length_take_le 20 tasks,
      ?_⟩
    rw [List.length_take]
    split_ifs with h
    · simp [h]
    · simp
      omega

theorem every_open_task_seen_two_tasks : EveryOpenTaskSeen twentyService twoTasks := by
  apply (every_open_task_seen_iff 20 twentyService twentyService_paged twoTasks).mpr
  have hvisible : twoTasks.visible false = [letters, bills] := by decide
  refine ⟨[letters, bills], ⟨rfl, none, ?_⟩, ?_⟩
  · rw [hvisible]
    rfl
  · intro t ht _
    rwa [hvisible] at ht

/-- `todo` fails when no task is left. -/
theorem empty_list_raises :
    ¬∀ (page : ℕ) (service : Service), Paged page service → ∀ remote : Remote,
      EveryOpenTaskSeen service remote := by
  intro h
  have hseen := h 20 twentyService twentyService_paged ⟨[], 0, List.nodup_nil⟩
  exact not_seen_of_visible_nil twentyService_paged rfl hseen

end EsNotebook.Todo
