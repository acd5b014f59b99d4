import EsNotebook.Todo.Addressing

/-!
# The local file

`joblist_load` would read the todo file if the remote load returned `None`.
The remote load has no such result: it returns a joblist or raises, and what
it raises passes through `joblist_load`.
-/

namespace EsNotebook.Todo

open Py

/-- The remote jobs if they can be loaded, and otherwise those of the file. -/
def FallsBack (service : Service) (loadfile : Str) (remote : Remote) : Prop :=
  ∃ joblist remote', (joblistLoad service loadfile).run remote = .ok joblist remote' ∧
    (∀ joblist' remote₁, (joblistLoadGoogle service false).run remote = .ok joblist' remote₁ →
      joblist = joblist') ∧
    ∀ e remote₁, (joblistLoadGoogle service false).run remote = .error e remote₁ →
      joblistLoadTxt loadfile = .ok joblist

/-- The service lets the program in, its list has tasks, and their due dates
can be read. -/
def RemoteLoads (service : Service) (remote : Remote) : Prop :=
  ∃ tasks, Fetches service false remote tasks ∧
    ∀ t ∈ tasks, ∀ due, t.due = some due → ∃ d, strptime '-' (due.take 10) = some d

variable {service : Service} {remote : Remote}

theorem forall_item_iff {tasks : List Task} :
    (∀ ti ∈ sortItems (tasks.filterMap Task.item), ∃ d, strptime '-' (ti.date.take 10) = some d) ↔
      ∀ t ∈ tasks, ∀ due, t.due = some due → ∃ d, strptime '-' (due.take 10) = some d := by
  constructor
  · intro h t ht due hdue
    apply h { jobname := t.title, date := due, id := t.id, description := t.notes }
    exact mem_sortItems.mpr ⟨t, ht, by rw [Task.item, hdue, Option.map_some]⟩
  · intro h ti hti
    obtain ⟨t, ht, hitem⟩ := mem_sortItems.mp hti
    obtain ⟨due, hdue, rfl⟩ := Option.map_eq_some_iff.mp hitem
    exact h t ht due hdue

theorem RemoteLoads.joblistLoadGoogle_run (h : RemoteLoads service remote) :
    ∃ joblist, (joblistLoadGoogle service false).run remote =
      .ok joblist { remote with calls := remote.calls + 2 } := by
  obtain ⟨tasks, hfetches, hreadable⟩ := h
  obtain ⟨joblist, hload⟩ : ∃ joblist,
      loadJobs (sortItems (tasks.filterMap Task.item)) 0 ∅ = .ok joblist :=
    loadJobs_ok (forall_item_iff.mpr hreadable)
  refine ⟨joblist, ?_⟩
  rw [joblistLoadGoogle_of_fetches hfetches, hload, run_ofExcept]

theorem remoteLoads_of_run {joblist : Joblist} {remote' : Remote}
    (h : (joblistLoadGoogle service false).run remote = .ok joblist remote') :
    RemoteLoads service remote := by
  have hfetch : (do
      setupCredentials service
      let tasks ← listItems service false
      let mytasks ← ofExcept (loadItems false tasks)
      ofExcept (loadJobs (sortItems (sortItems mytasks)) 0 ∅)).run remote =
        .ok joblist remote' := by
    simpa only [joblistLoadGoogle, loadAllTask, bind_assoc, pure_bind] using h
  obtain ⟨tasks, hfetches, -⟩ := exists_fetches hfetch
  refine ⟨tasks, hfetches, forall_item_iff.mp ?_⟩
  intro ti hti
  rw [joblistLoadGoogle_of_fetches hfetches] at h
  cases hload : loadJobs (sortItems (tasks.filterMap Task.item)) 0 ∅ with
  | error e =>
      rw [hload, run_ofExcept_error] at h
      cases h
  | ok joblist' => exact readable_of_loadJobs hload hti

/-- `joblist_load` keeps its promise exactly if the file is not needed. -/
theorem falls_back_iff_remote_loads (service : Service) (loadfile : Str) (remote : Remote) :
    FallsBack service loadfile remote ↔ RemoteLoads service remote := by
  unfold FallsBack
  rw [joblistLoad_eq_google]
  constructor
  · rintro ⟨joblist, remote', hrun, -, -⟩
    exact remoteLoads_of_run hrun
  · intro h
    obtain ⟨joblist, hrun⟩ := h.joblistLoadGoogle_run
    refine ⟨joblist, _, hrun, ?_, ?_⟩
    · intro joblist' remote₁ hrun'
      cases hrun.symm.trans hrun'
      rfl
    · intro e remote₁ herror
      cases hrun.symm.trans herror

/-- Without a network no request is answered. -/
def offlineService : Service :=
  { turningService with
    setup := fun _ ↦ .error .serviceError
    listing := fun _ _ ↦ .error .serviceError }

/-- Offline the exception of the service ends `joblist_load`, although the
file could be read. -/
theorem offline_load_raises :
    ¬∀ (service : Service) (loadfile : Str) (remote : Remote) (jobs : Joblist),
      joblistLoadTxt loadfile = .ok jobs → FallsBack service loadfile remote := by
  intro h
  obtain ⟨joblist, remote', hrun, -⟩ :=
    h offlineService "1,, 2018/01/11,, post,, ".toList ⟨[], 0, List.nodup_nil⟩ _ rfl
  cases hrun

end EsNotebook.Todo
