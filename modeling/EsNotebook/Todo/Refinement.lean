import EsNotebook.Todo.Addressing
import EsNotebook.Todo.TodoList

/-!
# A session refines the list

Every save replays the whole joblist.  That is harmless for marks that are
applied already, but a new job is inserted again.  While no new job is left
from before, each command does to the abstract list what it means, once.
-/

namespace EsNotebook.Todo

open Py

/-! ## Clean operations -/

/-- No job is still to be inserted. -/
def NothingNew (joblist : Joblist) : Prop :=
  ∀ x job, joblist.lookup x = some job → job.gid ≠ newGid

/-- The dates of the other jobs can be written. -/
def OthersPrintable (joblist : Joblist) (i : ℤ) : Prop :=
  ∀ x ≠ i, ∀ job d, joblist.lookup x = some job → job.datetime = some d → Printable d

/-- If the command is carried out, no job is new before it, all dates can be
written, and an edited job is not one that was completed. -/
def Command.Clean (clock : Clock) (joblist : Joblist) : Command → Prop
  | .add due _ _ => ∀ datenew, addDate clock due = .ok (some datenew) →
      NothingNew joblist ∧ OthersPrintable joblist (joblistNewIdx joblist) ∧
        1900 ≤ datenew.year ∧ datenew.year ≤ 9999
  | .edit index due _ _ => ∀ i job typed, parseInt index = some i →
      joblist.lookup i = some job → newDue due = some typed →
      NothingNew joblist ∧ OthersPrintable joblist i ∧ job.actreq ≠ .del ∧
        ∀ d, typed.or job.datetime = some d → 1900 ≤ d.year
  | .del index => ∀ i job, parseInt index = some i → joblist.lookup i = some job →
      NothingNew joblist ∧ OthersPrintable joblist i ∧
        ∀ d, job.datetime = some d → Printable d

/-- The remote tasks are what the operations, each applied once and in order,
make of the list at the beginning. -/
def Refines (joblist : Joblist) (tasks : List Task) (es : List (Clock × Command))
    (session : Session) : Prop :=
  ∃ list : TodoList,
    (Register.system (TodoList.loaded joblist tasks)).Run (TodoList.loaded joblist tasks)
      (es.filterMap fun e ↦ e.2.meaning e.1) list ∧
    list.entries = entriesOf session.remote.tasks

variable {env : Env} {clock : Clock} {list : TodoList} {session : Session}

/-! ## One save -/

theorem map_id_onOpen {gid : Str} {f : Task → Task} (hf : ∀ t, (f t).id = t.id)
    (tasks : List Task) : (onOpen gid f tasks).map Task.id = tasks.map Task.id := by
  rw [onOpen, List.map_map]
  exact List.map_congr_left fun t _ ↦ Task.onOpen_id hf gid t

theorem nodup_effect {item : SyncItem} {tasks : List Task} (h : (tasks.map Task.id).Nodup) :
    ((item.effect env.service clock tasks).map Task.id).Nodup := by
  unfold SyncItem.effect
  split_ifs
  · rw [List.map_append, List.nodup_append]
    refine ⟨h, by simp, ?_⟩
    intro a ha b hb
    obtain rfl := List.mem_singleton.mp hb
    exact fun hab ↦ env.service.freshId_notMem _ (hab ▸ ha)
  · cases item.actreq with
    | none => exact h
    | del => exact (map_id_onOpen (f := .complete clock) (fun _ ↦ rfl) tasks).symm ▸ h
    | edit =>
        exact (map_id_onOpen (f := .rewrite item.jobname item.description item.date)
          (fun _ ↦ rfl) tasks).symm ▸ h

theorem mem_effect_of_ne {item : SyncItem} {tasks : List Task} {t : Task} (ht : t ∈ tasks)
    (hne : t.id ≠ item.id) : t ∈ item.effect env.service clock tasks := by
  unfold SyncItem.effect
  split_ifs
  · exact List.mem_append_left _ ht
  · cases item.actreq with
    | none => exact ht
    | del => exact mem_onOpen_of_ne ht hne
    | edit => exact mem_onOpen_of_ne ht hne

/-- Among settled jobs only the one that was marked has an effect. -/
theorem save_settled (clock : Clock) (hone : OnePage env.service) {joblist : Joblist}
    (hlinked : Linked joblist session.remote.tasks list) (hnew : NothingNew joblist) {i : ℤ}
    (hprintable : OthersPrintable joblist i) {marked : JobObj} {item : SyncItem}
    (hitem : marked.syncItem = .ok item) (hsession : session.joblist = joblist.insert i marked)
    (hother : ∀ x ≠ i, ∀ job, joblist.lookup x = some job → job.gid ≠ item.id) :
    (after (joblistSave env clock false) session).joblist = joblist.insert i marked ∧
      (after (joblistSave env clock false) session).remote.tasks =
        item.effect env.service clock session.remote.tasks := by
  have hmarked : session.joblist.lookup i = some marked := by rw [hsession, AList.lookup_insert]
  obtain ⟨itemlist, hitems⟩ : ∃ itemlist,
      itemList session.joblist (env.keys session.joblist) = .ok itemlist := by
    rw [hsession]
    apply itemList_insert_ok env hitem
    intro x hx job hjob
    obtain ⟨t, -, -, hsettled⟩ := hlinked.present x job hjob
    obtain ⟨d, hd, -⟩ := (hsettled (hnew x job hjob)).dated
    obtain ⟨date, hdate⟩ := (hprintable x hx job d hjob hd).isoDate
    exact ⟨_, syncItem_eq_ok_iff.mpr ⟨d, date, hd, hdate, rfl⟩⟩
  obtain ⟨remote', hrun, htasks⟩ := joblistSave_run clock hone hitems
  have hidle (x : ℤ) (hx : x ≠ i) {tasks : List Task} (hnodup : (tasks.map Task.id).Nodup)
      (hkept : ∀ t ∈ session.remote.tasks, t.id ≠ item.id → t ∈ tasks) :
      saveEffect env clock session.joblist tasks x = tasks := by
    rw [hsession, saveEffect_insert_of_ne hx]
    cases hjob : joblist.lookup x with
    | none => simp only [saveEffect, hjob]
    | some job =>
        obtain ⟨t, ht, -, hsettled⟩ := hlinked.present x job hjob
        have hsettled := hsettled (hnew x job hjob)
        have hne : t.id ≠ item.id := hsettled.gid ▸ hother x hx job hjob
        exact saveEffect_of_settled hnodup hjob (hkept t ht hne) hsettled (hnew x job hjob)
  have heffect : saveEffect env clock session.joblist session.remote.tasks i =
      item.effect env.service clock session.remote.tasks := saveEffect_of_lookup hmarked hitem _
  have hi : i ∈ session.joblist := by
    rw [hsession]
    exact (AList.mem_insert _).mpr (.inl rfl)
  rw [after_of_ok hrun]
  refine ⟨hsession, ?_⟩
  rw [htasks, foldl_saveEffect_of_single hi, heffect]
  · intro x hx
    exact hidle x hx session.remote.nodup fun t ht _ ↦ ht
  · intro x hx
    rw [heffect]
    exact hidle x hx (nodup_effect session.remote.nodup) fun t ht hne ↦ mem_effect_of_ne ht hne

/-! ## One command -/

/-- One step of the list, or none where nothing is asked of it. -/
def Stepped (list : TodoList) (op : Option (Register.Op ℤ Entry)) (list' : TodoList) : Prop :=
  match op with
  | none => list' = list
  | some op => Register.Step list op list'

theorem meaning_add {due job_name comments : Str} {datenew : Date}
    (h : addDate clock due = .ok (some datenew)) :
    (Command.add due job_name comments).meaning clock = some (.insert
      { title := job_name, notes := comments, due := some datenew, status := .needsAction
        completed := none }) := by
  simp only [Command.meaning, h]

theorem meaning_add_refused {due job_name comments : Str}
    (h : ∀ datenew, addDate clock due ≠ .ok (some datenew)) :
    (Command.add due job_name comments).meaning clock = none := by
  cases hdate : addDate clock due with
  | error e => simp only [Command.meaning, hdate]
  | ok datenew =>
      cases datenew with
      | none => simp only [Command.meaning, hdate]
      | some datenew => exact absurd hdate (h datenew)

theorem add_refines (hone : OnePage env.service)
    (hlinked : Linked session.joblist session.remote.tasks list) {due job_name comments : Str}
    (hclean : (Command.add due job_name comments).Clean clock session.joblist) :
    ∃ list', Stepped list ((Command.add due job_name comments).meaning clock) list' ∧
      Linked ((Command.add due job_name comments).run env clock session).joblist
        ((Command.add due job_name comments).run env clock session).remote.tasks list' := by
  by_cases hdate : ∃ datenew, addDate clock due = .ok (some datenew)
  · obtain ⟨datenew, hdate⟩ := hdate
    obtain ⟨hnew, hprintable, hlow, hhigh⟩ := hclean datenew hdate
    have hdateable : Printable datenew := fun h ↦ absurd hlow (by omega)
    obtain ⟨date, hwritten⟩ := hdateable.isoDate
    let i := joblistNewIdx session.joblist
    let newjob := session.joblist.newJob datenew job_name comments
    let session₁ : Session :=
      { session with joblist := session.joblist.insert i newjob, answers := [] }
    have hrun : (joblistAdd env clock).run
        { session with answers := [due, job_name, comments, ['y']] } =
          (joblistSave env clock false).run session₁ :=
      joblistAdd_run rfl hdate hdateable (.inl rfl)
    have hitem : newjob.syncItem = .ok
        { jobname := job_name, id := newGid, description := comments, date := date
          actreq := .none } :=
      syncItem_eq_ok_iff.mpr ⟨datenew, date, rfl, hwritten, rfl⟩
    have hlinked₁ : Linked session.joblist session₁.remote.tasks list := hlinked
    obtain ⟨hjoblist, htasks⟩ := save_settled clock hone hlinked₁ hnew hprintable
      hitem rfl fun x _ job hjob ↦ hnew x job hjob
    let t : Task :=
      { id := env.service.freshId (session.remote.tasks.map Task.id), title := job_name
        notes := some comments, due := some date, status := .needsAction, completed := none }
    have hfresh : t.id ∉ session.remote.tasks.map Task.id := env.service.freshId_notMem _
    have hentry : t.entry = { title := job_name, notes := comments, due := some datenew
                              status := .needsAction, completed := none } := by
      simp only [Task.entry, t, Option.bind_some, dueDate_isoDate hlow hhigh hwritten,
        Option.getD_some]
    refine ⟨⟨Function.update list.entries t.id (some t.entry),
      Function.update list.address i (some t.id)⟩, ?_, ?_⟩
    · rw [meaning_add hdate, hentry]
      apply Register.Step.insert t.id i
      · rw [hlinked.entries, entriesOf, List.find?_eq_none.mpr, Option.map_none]
        intro u hu hid
        exact hfresh (List.mem_map.mpr ⟨u, hu, by simpa using hid⟩)
      · exact hlinked.absent i (lookup_joblistNewIdx _)
    · rw [show (Command.add due job_name comments).run env clock session = _ from after_eq hrun,
        hjoblist, htasks]
      exact hlinked.insert (lookup_joblistNewIdx _) rfl hfresh
  · have hrefused (datenew : Date) : addDate clock due ≠ .ok (some datenew) :=
      fun h ↦ hdate ⟨datenew, h⟩
    refine ⟨list, ?_, ?_⟩
    · rw [meaning_add_refused hrefused]
      rfl
    · rw [Command.run, Command.program, joblistAdd_refused rfl hrefused]
      exact hlinked

/-- A marked job and its task, as the next state of the list. -/
theorem marked_refines (hone : OnePage env.service)
    (hlinked : Linked session.joblist session.remote.tasks list)
    (hnew : NothingNew session.joblist) {i : ℤ} (hprintable : OthersPrintable session.joblist i)
    (marked : JobObj) (f : Task → Task) {t : Task} (ht : t ∈ session.remote.tasks)
    (haddress : list.address i = some t.id) {item : SyncItem} (hitem : marked.syncItem = .ok item)
    (hf : ∀ t, (f t).id = t.id)
    (heffect : item.effect env.service clock session.remote.tasks =
      onOpen t.id f session.remote.tasks)
    {g : Entry → Entry}
    (hsettled : Settled marked (t.onOpen t.id f) ∧ (t.onOpen t.id f).entry = g t.entry) :
    let session' := after (joblistSave env clock false)
      { session with joblist := session.joblist.insert i marked, answers := [] }
    ∃ list', Stepped list (some (.modify i g)) list' ∧
      Linked session'.joblist session'.remote.tasks list' := by
  intro session'
  have hid : item.id = t.id := by
    obtain ⟨d, date, -, -, rfl⟩ := syncItem_eq_ok_iff.mp hitem
    exact hsettled.1.gid.trans (Task.onOpen_id hf t.id t)
  have hother : ∀ x ≠ i, ∀ job, session.joblist.lookup x = some job → job.gid ≠ item.id := by
    intro x hx job hjob hsame
    obtain ⟨u, hu, haddress', hsettled'⟩ := hlinked.present x job hjob
    have huid : u.id = t.id := by
      rw [← (hsettled' (hnew x job hjob)).gid, hsame, hid]
    exact hx (hlinked.distinct x i t.id (huid ▸ haddress') haddress)
  let session₁ : Session :=
    { session with joblist := session.joblist.insert i marked, answers := [] }
  have hlinked₁ : Linked session.joblist session₁.remote.tasks list := hlinked
  obtain ⟨hjoblist, htasks⟩ := save_settled clock hone hlinked₁ hnew hprintable hitem rfl hother
  refine ⟨⟨Function.update list.entries t.id (some (g t.entry)), list.address⟩, ?_, ?_⟩
  · have hentry : list.entries t.id = some t.entry := by
      rw [hlinked.entries, entriesOf_of_mem session.remote.nodup ht]
    exact .modify haddress hentry
  · have htasks' : session'.remote.tasks = onOpen t.id f session.remote.tasks :=
      htasks.trans heffect
    rw [show session'.joblist = session.joblist.insert i marked from hjoblist, htasks',
      ← hsettled.2]
    exact hlinked.modify session.remote.nodup ht haddress hf hsettled.1

theorem del_refines (hone : OnePage env.service)
    (hlinked : Linked session.joblist session.remote.tasks list) {index : Str}
    (hclean : (Command.del index).Clean clock session.joblist) :
    ∃ list', Stepped list ((Command.del index).meaning clock) list' ∧
      Linked ((Command.del index).run env clock session).joblist
        ((Command.del index).run env clock session).remote.tasks list' := by
  by_cases hfound : ∃ i job, parseInt index = some i ∧ session.joblist.lookup i = some job
  · obtain ⟨i, job, hindex, hjob⟩ := hfound
    obtain ⟨hnew, hprintable, hown⟩ := hclean i job hindex hjob
    obtain ⟨t, ht, haddress, hsettled⟩ := hlinked.present i job hjob
    have hsettled := hsettled (hnew i job hjob)
    have hgid : t.id ≠ newGid := hsettled.gid ▸ hnew i job hjob
    obtain ⟨d, hd, -⟩ := hsettled.dated
    obtain ⟨date, hdate⟩ := (hown d hd).isoDate
    have hrun : (joblistDel env clock index).run { session with answers := [['y']] } =
        (joblistSave env clock false).run
          { session with
            joblist := session.joblist.insert i { job with actreq := .del }, answers := [] } :=
      joblistDel_run hindex hjob rfl
    rw [show (Command.del index).run env clock session = _ from after_eq hrun, Command.meaning,
      hindex, Option.map_some]
    apply marked_refines hone hlinked hnew hprintable { job with actreq := .del }
      (.complete clock) ht haddress
    case hitem => exact syncItem_eq_ok_iff.mpr ⟨d, date, hd, hdate, rfl⟩
    case hf => exact fun _ ↦ rfl
    case heffect => simp only [SyncItem.effect, hsettled.gid, hgid, if_false]
    case hsettled => exact hsettled.del clock
  · have hrefused (i : ℤ) (job : JobObj) (hindex : parseInt index = some i) :
        session.joblist.lookup i ≠ some job := fun hjob ↦ hfound ⟨i, job, hindex, hjob⟩
    refine ⟨list, ?_, ?_⟩
    · cases hindex : parseInt index with
      | none => simp only [Command.meaning, hindex, Option.map_none, Stepped]
      | some i =>
          have habsent : session.joblist.lookup i = none :=
            Option.eq_none_iff_forall_ne_some.mpr fun job ↦ hrefused i job hindex
          simp only [Command.meaning, hindex, Option.map_some, Stepped]
          exact .absent (hlinked.absent i habsent)
    · have hrun : (Command.del index).run env clock session =
          { session with answers := [['y']] } := joblistDel_refused hrefused
      rw [hrun]
      exact hlinked

theorem edit_refines (hone : OnePage env.service)
    (hlinked : Linked session.joblist session.remote.tasks list) {index due job_name comments : Str}
    (hclean : (Command.edit index due job_name comments).Clean clock session.joblist) :
    ∃ list', Stepped list ((Command.edit index due job_name comments).meaning clock) list' ∧
      Linked ((Command.edit index due job_name comments).run env clock session).joblist
        ((Command.edit index due job_name comments).run env clock session).remote.tasks list' := by
  by_cases hfound : ∃ i job typed, parseInt index = some i ∧
      session.joblist.lookup i = some job ∧ newDue due = some typed
  · obtain ⟨i, job, typed, hindex, hjob, htyped⟩ := hfound
    obtain ⟨hnew, hprintable, hactreq, hlow⟩ := hclean i job typed hindex hjob htyped
    obtain ⟨t, ht, haddress, hsettled⟩ := hlinked.present i job hjob
    have hsettled := hsettled (hnew i job hjob)
    have hgid : t.id ≠ newGid := hsettled.gid ▸ hnew i job hjob
    have hopen : t.status ≠ .completed := fun h ↦ hactreq (hsettled.done.mpr h)
    obtain ⟨d, hd, hhigh⟩ : ∃ d, typed.or job.datetime = some d ∧ d.year ≤ 9999 := by
      cases typed with
      | none => exact hsettled.dated
      | some d => exact ⟨d, rfl, newDue_year_le htyped⟩
    have hprint : Printable d := fun h ↦ absurd (hlow d hd) (by omega)
    obtain ⟨date, hdate⟩ := hprint.isoDate
    have hrun : (joblistEdit env clock index).run
        { session with answers := [due, job_name, comments] } =
          (joblistSave env clock false).run
            { session with
              joblist := session.joblist.insert i (job.edited typed job_name comments)
              answers := [] } :=
      joblistEdit_run hindex hjob rfl htyped
    rw [show (Command.edit index due job_name comments).run env clock session = _ from
      after_eq hrun, Command.meaning, hindex, htyped]
    let edited := job.edited typed job_name comments
    apply marked_refines hone hlinked hnew hprintable edited
      (.rewrite edited.job_name edited.comments date) ht haddress
    case hitem => exact syncItem_eq_ok_iff.mpr ⟨d, date, hd, hdate, rfl⟩
    case hf => exact fun _ ↦ rfl
    case heffect =>
      simp only [SyncItem.effect, show edited.gid = t.id from hsettled.gid, hgid, if_false]
      rfl
    case hsettled => exact hsettled.edited hopen hd (hlow d hd) hhigh hdate
  · have hrefused (i : ℤ) (job : JobObj) (typed : Option Date) (hindex : parseInt index = some i)
        (hjob : session.joblist.lookup i = some job) : newDue due ≠ some typed :=
      fun htyped ↦ hfound ⟨i, job, typed, hindex, hjob, htyped⟩
    obtain ⟨hjoblist, hremote⟩ :
        ((Command.edit index due job_name comments).run env clock session).joblist =
            session.joblist ∧
          ((Command.edit index due job_name comments).run env clock session).remote =
            session.remote :=
      joblistEdit_refused rfl hrefused
    refine ⟨list, ?_, ?_⟩
    · cases hindex : parseInt index with
      | none => simp only [Command.meaning, hindex, Stepped]
      | some i =>
          cases htyped : newDue due with
          | none => simp only [Command.meaning, hindex, htyped, Stepped]
          | some typed =>
              have habsent : session.joblist.lookup i = none :=
                Option.eq_none_iff_forall_ne_some.mpr fun job hjob ↦
                  hrefused i job typed hindex hjob htyped
              simp only [Command.meaning, hindex, htyped, Stepped]
              exact .absent (hlinked.absent i habsent)
    · rw [hjoblist, hremote]
      exact hlinked

theorem command_refines (hone : OnePage env.service)
    (hlinked : Linked session.joblist session.remote.tasks list) {command : Command}
    (hclean : command.Clean clock session.joblist) :
    ∃ list', Stepped list (command.meaning clock) list' ∧
      Linked (command.run env clock session).joblist (command.run env clock session).remote.tasks
        list' := by
  cases command with
  | add due job_name comments => exact add_refines hone hlinked hclean
  | edit index due job_name comments => exact edit_refines hone hlinked hclean
  | del index => exact del_refines hone hlinked hclean

/-! ## Sessions -/

/-- The commands whose step is clean. -/
def cleanCommands (env : Env) (session : Session) : Lts Session (Clock × Command) :=
  (commands env session).restrict fun s e ↦ e.2.Clean e.1 s.joblist

theorem run_refines (hone : OnePage env.service) {joblist : Joblist} {tasks : List Task}
    {start session : Session} {es : List (Clock × Command)}
    (hlinked : Linked start.joblist start.remote.tasks (.loaded joblist tasks))
    (hrun : (cleanCommands env start).Run start es session) :
    ∃ list : TodoList,
      (Register.system (TodoList.loaded joblist tasks)).Run (TodoList.loaded joblist tasks)
        (es.filterMap fun e ↦ e.2.meaning e.1) list ∧
      Linked session.joblist session.remote.tasks list := by
  induction hrun with
  | nil => exact ⟨_, .nil, hlinked⟩
  | @snoc es session session' e _ hstep ih =>
      obtain ⟨list, hlist, hlinked'⟩ := ih
      obtain ⟨rfl, hclean⟩ := hstep
      obtain ⟨list', hstepped, hnext⟩ := command_refines hone hlinked' hclean
      refine ⟨list', ?_, hnext⟩
      rw [List.filterMap_append, List.filterMap_cons, List.filterMap_nil]
      cases hmeaning : e.2.meaning e.1 with
      | none =>
          rw [hmeaning] at hstepped
          obtain rfl : list' = list := hstepped
          simpa using hlist
      | some op =>
          rw [hmeaning] at hstepped
          exact hlist.snoc hstepped

/-- A session of clean commands on the joblist that was loaded refines the
list. -/
theorem session_refines (env : Env) (hone : OnePage env.service) (loadfile : Str)
    (remote remote' : Remote) (joblist : Joblist) (answers : List Str) (screen : List Shown)
    (hload : (joblistLoad env.service loadfile).run remote = .ok joblist remote')
    (es : List (Clock × Command)) (session : Session)
    (hrun : (cleanCommands env ⟨joblist, remote', answers, screen⟩).Run
      ⟨joblist, remote', answers, screen⟩ es session) :
    Refines joblist remote.tasks es session := by
  obtain ⟨hjobs, htasks⟩ := loadJobs_of_joblistLoad hone hload
  have hlinked : Linked joblist remote'.tasks (.loaded joblist remote.tasks) := by
    rw [htasks]
    exact linked_of_load hjobs
  obtain ⟨list, hlist, hlinked'⟩ := run_refines hone hlinked hrun
  exact ⟨list, hlist, hlinked'.entries⟩

/-- An `add` with the date in five days, on the two tasks. -/
theorem session_refines_one_add : ∃ joblist remote' session,
    (joblistLoad turningEnv.service []).run twoTasks = .ok joblist remote' ∧
      Refines joblist twoTasks.tasks [(january, .add ['5'] ['x'] [])] session := by
  obtain ⟨joblist, hload⟩ := twoTasks_duesPrintable.load
  have hrun := joblistLoad_run turningService_onePage [] hload twoTasks.calls
  have hclean : Command.Clean january joblist (.add ['5'] ['x'] []) := by
    intro datenew hdate
    have hfive : addDate january ['5'] =
        .ok (some ⟨2018, 1, 16, by decide, by decide, by decide, by decide, by decide⟩) := by
      decide +kernel
    obtain rfl := Option.some.inj (Except.ok.inj (hdate.symm.trans hfive))
    refine ⟨?_, ?_, by decide, by decide⟩
    · intro x job hjob
      obtain ⟨t, ht, due, d, -, -, rfl⟩ := loadedFrom_of_lookup hload hjob
      exact twoTasks_ids_ne_new t ht
    · intro x _ job d hjob hd
      obtain ⟨t, ht, due, d', hdue, hd', rfl⟩ := loadedFrom_of_lookup hload hjob
      obtain ⟨d'', hd'', hprintable⟩ := twoTasks_duesPrintable t ht due hdue
      obtain rfl : d' = d := Option.some.inj hd
      exact Option.some.inj (hd''.symm.trans hd') ▸ hprintable
  exact ⟨joblist, _, _, hrun, session_refines turningEnv turningService_onePage [] twoTasks _
    joblist [] [] hrun _ _ (.single ⟨rfl, hclean⟩)⟩

/-- The second `add` of a session inserts the job of the first one again. -/
theorem second_add_inserts_first_again :
    ¬∀ (env : Env) (loadfile : Str) (remote remote' : Remote) (joblist : Joblist)
      (answers : List Str) (screen : List Shown) (es : List (Clock × Command))
      (session : Session), OnePage env.service →
      (joblistLoad env.service loadfile).run remote = .ok joblist remote' →
      (commands env ⟨joblist, remote', answers, screen⟩).Run ⟨joblist, remote', answers, screen⟩
        es session →
      Refines joblist remote.tasks es session := by
  intro h
  let joblist : Joblist := (loadJobs twoTasks.items 0 ∅).toOption.getD ∅
  let remote' : Remote := { twoTasks with calls := 2 }
  have hload : loadJobs twoTasks.items 0 ∅ = .ok joblist := by
    obtain ⟨joblist', hload⟩ := twoTasks_duesPrintable.load
    simp only [joblist, hload, Except.toOption, Option.getD_some]
  let first : Command := .add ['5'] ['x'] []
  let second : Command := .add ['6'] ['y'] []
  let session := second.run turningEnv january
    (first.run turningEnv january ⟨joblist, remote', [], []⟩)
  have hrun : (commands turningEnv ⟨joblist, remote', [], []⟩).Run ⟨joblist, remote', [], []⟩
      [(january, first), (january, second)] session :=
    Lts.Run.cons rfl (Lts.Run.single rfl)
  obtain ⟨list, hlist, hentries⟩ := h turningEnv [] twoTasks remote' joblist [] [] _ session
    turningService_onePage (joblistLoad_run turningService_onePage [] hload 0) hrun
  have hcard := Register.run_encard_ids hlist
  have hadded : (([(january, first), (january, second)].filterMap fun e ↦ e.2.meaning e.1).map
      Register.Op.added).sum = 2 := by
    decide +kernel
  have htasks : session.remote.tasks.length = 5 := by decide +kernel
  rw [hadded, Register.ids, Register.ids, hentries, encard_entriesOf session.remote.nodup,
    htasks] at hcard
  rw [show (TodoList.loaded joblist twoTasks.tasks).entries = entriesOf twoTasks.tasks from rfl,
    encard_entriesOf twoTasks.nodup] at hcard
  exact absurd hcard (by decide)

end EsNotebook.Todo
