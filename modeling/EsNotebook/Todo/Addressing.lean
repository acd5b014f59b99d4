import EsNotebook.Todo.Joblist

/-!
# Indexes across runs

An index that one run of the program displays is used in a later run, which
loads the list anew.  Both runs load the same joblist, whatever the order in
which the service lists the tasks, because the order of the items is total.
-/

namespace EsNotebook.Todo

open Py

/-- The program has just been started and these answers will be typed. -/
def Session.start (remote : Remote) (answers : List Str) : Session where
  joblist := ∅
  remote := remote
  answers := answers
  screen := []

/-- The line shows the task. -/
def Shows (line : Shown) (t : Task) : Prop :=
  line.job_name = t.title ∧ line.comments = t.notes.getD [] ∧
    ∃ due d, t.due = some due ∧ strptime '-' (due.take 10) = some d ∧
      strftime '/' d = some line.date

/-- The tasks after the command with these arguments and answers. -/
def tasksAfter (env : Env) (clock : Clock) (loadfile : Str) (remote : Remote) (argv : List Str)
    (answers : List Str) : List Task :=
  (after (todoManager env clock loadfile argv) (.start remote answers)).remote.tasks

/-- `t` is the task that is displayed as `line`, and the commands with this
index act on it and on no other task. -/
structure Addresses (env : Env) (loadfile : Str) (second : Clock) (remote : Remote)
    (line : Shown) (t : Task) : Prop where
  mem : t ∈ remote.visible false
  shows : Shows line t
  del : ∀ answers,
    tasksAfter env second loadfile remote ["del".toList, formatInt line.idx] (['y'] :: answers) =
      remote.tasks.map fun u ↦ if u.id = t.id then u.complete second else u
  edit : ∀ answers, ∃ title notes due,
    tasksAfter env second loadfile remote ["edit".toList, formatInt line.idx] answers =
      remote.tasks.map fun u ↦
        if u.id = t.id then { u with title := title, notes := notes, due := due } else u
  edited : ∀ duestr new_jobname new_cmmt answers typed due old date,
    newDue duestr = some typed → t.due = some due → strptime '-' (due.take 10) = some old →
    isoDate (typed.getD old) = some date →
    tasksAfter env second loadfile remote ["edit".toList, formatInt line.idx]
        (duestr :: new_jobname :: new_cmmt :: answers) =
      remote.tasks.map fun u ↦
        if u.id = t.id then
          u.rewrite (if new_jobname ≠ [] then new_jobname else t.title)
            (if new_cmmt ≠ [] then new_cmmt else t.notes.getD []) date
        else u

/-- The index map is the same in both runs, and every index that the first
one displays addresses the displayed task in the second one.  The number of
requests before the second run is arbitrary, and with it the order of its
list. -/
structure IndexAddresses (env : Env) (loadfile : Str) (first second : Clock) (remote : Remote)
    (calls : ℕ) : Prop where
  sameMap : ∃ joblist remote₁ remote₂,
    (joblistLoad env.service loadfile).run remote = .ok joblist remote₁ ∧
      (joblistLoad env.service loadfile).run { remote with calls := calls } = .ok joblist remote₂
  addressed : ∀ line ∈ (after (todoManager env first loadfile []) (.start remote [])).screen,
    ∃ t, Addresses env loadfile second { remote with calls := calls } line t

/-- Every due date that is found is one that can be read and written. -/
def DuesPrintable (remote : Remote) : Prop :=
  ∀ t ∈ remote.visible false, ∀ due, t.due = some due →
    ∃ d, strptime '-' (due.take 10) = some d ∧ Printable d

variable {env : Env} {clock : Clock} {remote : Remote}

theorem DuesPrintable.load (h : DuesPrintable remote) :
    ∃ joblist, loadJobs remote.items 0 ∅ = .ok joblist := by
  have hreadable : DuesReadable remote := by
    intro t ht due htdue
    obtain ⟨d, hd, -⟩ := h t ht due htdue
    exact ⟨d, hd⟩
  exact loadJobs_ok fun ti hti ↦ hreadable.item hti

theorem onOpen_eq_map {t : Task} (ht : t ∈ remote.visible false) (f : Task → Task) :
    onOpen t.id f remote.tasks = remote.tasks.map fun u ↦ if u.id = t.id then f u else u := by
  obtain ⟨hmem, hopen⟩ := mem_visible_false.mp ht
  apply List.map_congr_left
  intro u hu
  by_cases h : u.id = t.id
  · obtain rfl := eq_of_id_eq remote.nodup hu hmem h
    rw [if_pos ⟨rfl, hopen⟩, if_pos rfl]
  · rw [if_neg fun h' ↦ h h'.1, if_neg h]

section SecondRun

variable {second : Clock} {loadfile : Str} {joblist : Joblist} {i : ℤ} {job : JobObj}

/-- Among freshly loaded jobs only the one that was changed has an effect. -/
theorem saveEffect_of_ne (hnew : ∀ t ∈ remote.visible false, t.id ≠ newGid)
    (hloaded : ∀ x job, joblist.lookup x = some job → LoadedFrom remote x job) {x : ℤ}
    (hx : x ≠ i) (tasks : List Task) :
    saveEffect env second (joblist.insert i job) tasks x = tasks := by
  rw [saveEffect_insert_of_ne hx]
  apply saveEffect_of_unmarked
  intro job' hjob'
  obtain ⟨t, ht, due, d, -, -, rfl⟩ := hloaded x job' hjob'
  exact ⟨hnew t ht, rfl⟩

theorem tasks_after_save (hone : OnePage env.service)
    (hnew : ∀ t ∈ remote.visible false, t.id ≠ newGid)
    (hloaded : ∀ x job, joblist.lookup x = some job → LoadedFrom remote x job)
    {session : Session} (hsession : session.joblist = joblist.insert i job)
    {itemlist : List SyncItem}
    (hitems : itemList session.joblist (env.keys session.joblist) = .ok itemlist) :
    (after (joblistSave env second false) session).remote.tasks =
      saveEffect env second session.joblist session.remote.tasks i := by
  obtain ⟨remote', hrun, htasks⟩ := joblistSave_run second hone hitems
  have hidle {x : ℤ} (hx : x ≠ i) (tasks : List Task) :
      saveEffect env second session.joblist tasks x = tasks := by
    rw [hsession]
    exact saveEffect_of_ne hnew hloaded hx tasks
  have hi : i ∈ session.joblist := by simp [hsession]
  simp only [after, hrun, htasks]
  exact foldl_saveEffect_of_single hi (fun x hx ↦ hidle hx _) fun x hx ↦ hidle hx _

theorem syncItem_of_loaded (hdue : DuesPrintable remote) {x : ℤ}
    (hloaded : LoadedFrom remote x job) {job' : JobObj} (hdatetime : job'.datetime = job.datetime) :
    ∃ item, job'.syncItem = .ok item := by
  obtain ⟨t, ht, due, d, htdue, hd, rfl⟩ := hloaded
  obtain ⟨d', hd', hprintable⟩ := hdue t ht due htdue
  obtain rfl : d = d' := Option.some.inj (hd.symm.trans hd')
  obtain ⟨date, hdate⟩ := hprintable.isoDate
  exact ⟨_, syncItem_eq_ok_iff.mpr ⟨d, date, hdatetime, hdate, rfl⟩⟩

theorem itemList_of_loaded (env : Env) (i : ℤ) (hdue : DuesPrintable remote)
    (hloaded : ∀ x job, joblist.lookup x = some job → LoadedFrom remote x job) {item : SyncItem}
    (hitem : job.syncItem = .ok item) :
    ∃ itemlist, itemList (joblist.insert i job) (env.keys (joblist.insert i job)) = .ok itemlist :=
  itemList_insert_ok env hitem fun x _ job' hjob' ↦ syncItem_of_loaded hdue (hloaded x job' hjob') rfl

theorem tasksAfter_del (hone : OnePage env.service)
    (hnew : ∀ t ∈ remote.visible false, t.id ≠ newGid) (hdue : DuesPrintable remote)
    (hload : loadJobs remote.items 0 ∅ = .ok joblist) (hjob : joblist.lookup i = some job)
    {t : Task} (ht : t ∈ remote.visible false) (hgid : job.gid = t.id) (answers : List Str) :
    tasksAfter env second loadfile remote ["del".toList, formatInt i] (['y'] :: answers) =
      remote.tasks.map fun u ↦ if u.id = t.id then u.complete second else u := by
  have hloaded (x : ℤ) (job : JobObj) (hjob : joblist.lookup x = some job) :
      LoadedFrom remote x job := loadedFrom_of_lookup hload hjob
  let session : Session :=
    { joblist := joblist.insert i { job with actreq := .del }
      remote := { remote with calls := remote.calls + 2 }, answers := answers, screen := [] }
  have hrun : (todoManager env second loadfile ["del".toList, formatInt i]).run
      (.start remote (['y'] :: answers)) = (joblistSave env second false).run session := by
    rw [todoManager_run (joblistLoad_run hone loadfile hload remote.calls), dispatch_del]
    exact joblistDel_run (parseInt_formatInt i) hjob rfl
  obtain ⟨item, hitem⟩ : ∃ item, JobObj.syncItem { job with actreq := .del } = .ok item :=
    syncItem_of_loaded hdue (hloaded i job hjob) rfl
  obtain ⟨itemlist, hitems⟩ := itemList_of_loaded env i hdue hloaded hitem
  rw [tasksAfter, after_eq hrun, tasks_after_save hone hnew hloaded rfl hitems,
    saveEffect_of_lookup (AList.lookup_insert _) hitem]
  obtain ⟨d, date, -, -, rfl⟩ := syncItem_eq_ok_iff.mp hitem
  simp only [SyncItem.effect, hgid, hnew t ht, if_false]
  exact onOpen_eq_map ht _

/-- The session in which `todo edit i` saves after its answers. -/
def editSession (joblist : Joblist) (remote : Remote) (i : ℤ) (job : JobObj)
    (answers : List Str) : Session where
  joblist := joblist.insert i job
  remote := { remote with calls := remote.calls + 2 }
  answers := answers
  screen := []

@[simp] theorem editSession_joblist (answers : List Str) :
    (editSession joblist remote i job answers).joblist = joblist.insert i job := rfl

@[simp] theorem editSession_tasks (answers : List Str) :
    (editSession joblist remote i job answers).remote.tasks = remote.tasks := rfl

theorem tasksAfter_edit_eq_save (hone : OnePage env.service)
    (hload : loadJobs remote.items 0 ∅ = .ok joblist) (hjob : joblist.lookup i = some job)
    {duestr new_jobname new_cmmt : Str} {typed : Option Date} (htyped : newDue duestr = some typed)
    (answers : List Str) :
    tasksAfter env second loadfile remote ["edit".toList, formatInt i]
        (duestr :: new_jobname :: new_cmmt :: answers) =
      (after (joblistSave env second false)
        (editSession joblist remote i (job.edited typed new_jobname new_cmmt)
          answers)).remote.tasks := by
  have hrun : (todoManager env second loadfile ["edit".toList, formatInt i]).run
      (.start remote (duestr :: new_jobname :: new_cmmt :: answers)) =
        (joblistSave env second false).run
          (editSession joblist remote i (job.edited typed new_jobname new_cmmt) answers) := by
    rw [todoManager_run (joblistLoad_run hone loadfile hload remote.calls), dispatch_edit]
    exact joblistEdit_run (parseInt_formatInt i) hjob rfl htyped
  rw [tasksAfter, after_eq hrun]

theorem tasksAfter_edited (hone : OnePage env.service)
    (hnew : ∀ t ∈ remote.visible false, t.id ≠ newGid) (hdue : DuesPrintable remote)
    (hload : loadJobs remote.items 0 ∅ = .ok joblist) (hjob : joblist.lookup i = some job)
    {t : Task} (ht : t ∈ remote.visible false) (hgid : job.gid = t.id)
    {duestr new_jobname new_cmmt date : Str} {typed : Option Date} {d : Date}
    (htyped : newDue duestr = some typed) (hd : typed.or job.datetime = some d)
    (hdate : isoDate d = some date) (answers : List Str) :
    tasksAfter env second loadfile remote ["edit".toList, formatInt i]
        (duestr :: new_jobname :: new_cmmt :: answers) =
      remote.tasks.map fun u ↦
        if u.id = t.id then
          u.rewrite (if new_jobname ≠ [] then new_jobname else job.job_name)
            (if new_cmmt ≠ [] then new_cmmt else job.comments) date
        else u := by
  have hloaded (x : ℤ) (job : JobObj) (hjob : joblist.lookup x = some job) :
      LoadedFrom remote x job := loadedFrom_of_lookup hload hjob
  have hitem : (job.edited typed new_jobname new_cmmt).syncItem = .ok
      { jobname := if new_jobname ≠ [] then new_jobname else job.job_name, id := job.gid
        description := if new_cmmt ≠ [] then new_cmmt else job.comments, date := date
        actreq := .edit } :=
    syncItem_eq_ok_iff.mpr ⟨d, date, hd, hdate, rfl⟩
  obtain ⟨itemlist, hitems⟩ := itemList_of_loaded env i hdue hloaded hitem
  rw [tasksAfter_edit_eq_save hone hload hjob htyped,
    tasks_after_save hone hnew hloaded rfl hitems, editSession_joblist, editSession_tasks,
    saveEffect_of_lookup (AList.lookup_insert _) hitem]
  simp only [SyncItem.effect, hgid, hnew t ht, if_false]
  exact onOpen_eq_map ht _

theorem tasksAfter_edit (hone : OnePage env.service)
    (hnew : ∀ t ∈ remote.visible false, t.id ≠ newGid)
    (hload : loadJobs remote.items 0 ∅ = .ok joblist) (hjob : joblist.lookup i = some job)
    {t : Task} (ht : t ∈ remote.visible false) (hgid : job.gid = t.id) (answers : List Str) :
    ∃ title notes due,
      tasksAfter env second loadfile remote ["edit".toList, formatInt i] answers =
        remote.tasks.map fun u ↦
          if u.id = t.id then { u with title := title, notes := notes, due := due } else u := by
  have hloaded (x : ℤ) (job : JobObj) (hjob : joblist.lookup x = some job) :
      LoadedFrom remote x job := loadedFrom_of_lookup hload hjob
  have hsame : remote.tasks.map (fun u ↦
      if u.id = t.id then { u with title := t.title, notes := t.notes, due := t.due } else u) =
        remote.tasks := by
    rw [← onOpen_eq_map ht fun u ↦ { u with title := t.title, notes := t.notes, due := t.due }]
    apply onOpen_eq_self
    intro u hu hid hopen
    obtain rfl := eq_of_id_eq remote.nodup hu (mem_visible_false.mp ht).1 hid
    rfl
  have hrun : (todoManager env second loadfile ["edit".toList, formatInt i]).run
      (.start remote answers) = (joblistEdit env second (formatInt i)).run
        { joblist := joblist, remote := { remote with calls := remote.calls + 2 }
          answers := answers, screen := [] } := by
    rw [todoManager_run (joblistLoad_run hone loadfile hload remote.calls), dispatch_edit]
    rfl
  rcases joblistEdit_remote env second ⟨joblist, _, answers, []⟩ (parseInt_formatInt i) hjob with
    hremote | ⟨duestr, new_jobname, new_cmmt, rest, typed, rfl, htyped⟩
  · refine ⟨t.title, t.notes, t.due, ?_⟩
    rw [tasksAfter, after_eq hrun, hremote, hsame]
  rw [tasksAfter_edit_eq_save hone hload hjob htyped]
  generalize hsession : editSession joblist remote i (job.edited typed new_jobname new_cmmt) rest =
    session
  have hjoblist : session.joblist = joblist.insert i (job.edited typed new_jobname new_cmmt) := by
    rw [← hsession, editSession_joblist]
  have htasks : session.remote.tasks = remote.tasks := by
    rw [← hsession, editSession_tasks]
  have hedited : session.joblist.lookup i = some (job.edited typed new_jobname new_cmmt) := by
    rw [hjoblist, AList.lookup_insert]
  cases hitems : itemList session.joblist (env.keys session.joblist) with
  | error e =>
      refine ⟨t.title, t.notes, t.due, ?_⟩
      rw [after_of_error (joblistSave_error hitems), htasks, hsame]
  | ok itemlist =>
      rw [tasks_after_save hone hnew hloaded hjoblist hitems, htasks]
      cases hitem : (job.edited typed new_jobname new_cmmt).syncItem with
      | error e =>
          refine ⟨t.title, t.notes, t.due, ?_⟩
          simp only [saveEffect, hedited, hitem, hsame]
      | ok item =>
          rw [saveEffect_of_lookup hedited hitem]
          obtain ⟨d, date, -, -, rfl⟩ := syncItem_eq_ok_iff.mp hitem
          simp only [SyncItem.effect, JobObj.edited, hgid, hnew t ht, if_false]
          exact ⟨_, _, _, onOpen_eq_map ht _⟩

end SecondRun

/-- What the default display shows. -/
theorem exists_of_mem_screen (hone : OnePage env.service) (loadfile : Str) {joblist : Joblist}
    (hload : loadJobs remote.items 0 ∅ = .ok joblist) {line : Shown}
    (hline : line ∈ (after (todoManager env clock loadfile []) (.start remote [])).screen) :
    ∃ job, joblist.lookup line.idx = some job ∧ ∃ t ∈ remote.visible false, job.gid = t.id ∧
      job.job_name = t.title ∧ job.comments = t.notes.getD [] ∧ Shows line t ∧
      ∃ due, t.due = some due ∧ job.datetime = strptime '-' (due.take 10) := by
  have hrun : (todoManager env clock loadfile []).run (.start remote []) =
      (displayJobs clock 31 (env.keys joblist)).run
        { joblist := joblist, remote := { remote with calls := remote.calls + 2 }, answers := []
          screen := [] } := by
    rw [todoManager_run (joblistLoad_run hone loadfile hload remote.calls)]
    exact joblistDisplay_run 31 _
  rw [after_eq hrun] at hline
  obtain ⟨x, job, hjob, hdisplay⟩ := mem_screen_displayJobs hline (by simp)
  obtain ⟨d, date, level, hdatetime, hdate, rfl⟩ := displayJob_eq_some hdisplay
  obtain ⟨t, ht, due, d', hdue, hd', rfl⟩ := loadedFrom_of_lookup hload hjob
  obtain rfl : d' = d := Option.some.inj hdatetime
  exact ⟨_, hjob, t, ht, rfl, rfl, rfl, ⟨rfl, rfl, due, d', hdue, hd', hdate⟩, due, hdue, hd'.symm⟩

/-- Every displayed index addresses the displayed task in a later run, if the
due dates are ones that `strftime` writes. -/
theorem displayed_index_addresses (env : Env) (hone : OnePage env.service) (loadfile : Str)
    (first second : Clock) (remote : Remote) (calls : ℕ)
    (hnew : ∀ t ∈ remote.visible false, t.id ≠ newGid) (hdue : DuesPrintable remote) :
    IndexAddresses env loadfile first second remote calls := by
  obtain ⟨joblist, hload⟩ := hdue.load
  constructor
  case sameMap =>
    exact ⟨joblist, _, _, joblistLoad_run hone loadfile hload remote.calls,
      joblistLoad_run hone loadfile hload calls⟩
  case addressed =>
    intro line hline
    obtain ⟨job, hjob, t, ht, hgid, hname, hcomments, hshows, due, htdue, hdatetime⟩ :=
      exists_of_mem_screen hone loadfile hload hline
    -- the second run sees the same tasks
    let later : Remote := { remote with calls := calls }
    have hload' : loadJobs later.items 0 ∅ = .ok joblist := hload
    have hnew' : ∀ t ∈ later.visible false, t.id ≠ newGid := hnew
    have hdue' : DuesPrintable later := hdue
    have ht' : t ∈ later.visible false := ht
    refine ⟨t, ht, hshows, ?_, ?_, ?_⟩
    · exact tasksAfter_del hone hnew' hdue' hload' hjob ht' hgid
    · exact tasksAfter_edit hone hnew' hload' hjob ht' hgid
    · intro duestr new_jobname new_cmmt answers typed due' old date htyped htdue' hold hdate
      obtain rfl : due' = due := Option.some.inj (htdue'.symm.trans htdue)
      rw [← hname, ← hcomments]
      apply tasksAfter_edited hone hnew' hdue' hload' hjob ht' hgid htyped _ hdate
      rw [hdatetime, hold]
      cases typed <;> rfl

/-! ## A service -/

/-- A service that turns its list around at every other request. -/
def turningService : Service where
  setup _ := .ok ()
  listing n tasks := .ok ⟨some (if n % 2 = 0 then tasks else tasks.reverse), none⟩
  freshId ids := 'i' :: ids.flatten
  freshId_notMem ids h := by
    have hle := (List.sublist_flatten_of_mem h).length_le
    simp at hle

theorem turningService_onePage : OnePage turningService where
  setup _ := rfl
  listing n tasks := by
    refine ⟨_, rfl, ?_⟩
    split_ifs
    · rfl
    · exact List.reverse_perm tasks

def turningEnv : Env where
  service := turningService
  keys joblist := joblist.keys.insertionSort (· ≤ ·)
  keys_perm _ := List.perm_insertionSort _ _

/-- Noon of 2018/01/11. -/
def january : Clock where
  now := 1515672000
  offset := 0
  today := ⟨2018, 1, 11, by decide, by decide, by decide, by decide, by decide⟩
  localtime_now := by decide +kernel
  year_ge := by decide

/-- An open task of 2017 without notes. -/
def letters : Task where
  id := ['a']
  title := ['p', 'o', 's', 't']
  notes := none
  due := some "2017-12-30T00:00:00.000Z".toList
  status := .needsAction
  completed := none

def bills : Task where
  id := ['b']
  title := ['p', 'a', 'y']
  notes := some ['!']
  due := some "2017-12-24T00:00:00.000Z".toList
  status := .needsAction
  completed := none

def twoTasks : Remote where
  tasks := [letters, bills]
  calls := 0
  nodup := by decide

theorem twoTasks_ids_ne_new : ∀ t ∈ twoTasks.visible false, t.id ≠ newGid := by decide

theorem twoTasks_duesPrintable : DuesPrintable twoTasks := by
  have hvisible : twoTasks.visible false = [letters, bills] := by decide
  intro t ht due hdue
  rw [hvisible] at ht
  rcases List.mem_pair.mp ht with rfl | rfl
  · obtain rfl := Option.some.inj hdue
    refine ⟨⟨2017, 12, 30, by decide, by decide, by decide, by decide, by decide⟩, ?_, ?_⟩
    · decide +kernel
    · decide
  · obtain rfl := Option.some.inj hdue
    refine ⟨⟨2017, 12, 24, by decide, by decide, by decide, by decide, by decide⟩, ?_, ?_⟩
    · decide +kernel
    · decide

theorem displayed_index_addresses_two_tasks :
    IndexAddresses turningEnv [] january january twoTasks 3 :=
  displayed_index_addresses turningEnv turningService_onePage [] january january twoTasks 3
    twoTasks_ids_ne_new twoTasks_duesPrintable

/-- Two open tasks, one of them due in 1850. -/
def oldTasks : Remote where
  tasks := [letters, { bills with due := some "1850-12-24T00:00:00.000Z".toList }]
  calls := 0
  nodup := by decide

theorem oldTasks_duesReadable : DuesReadable oldTasks := by
  have hvisible : oldTasks.visible false = oldTasks.tasks := by decide
  intro t ht due hdue
  rw [hvisible] at ht
  rcases List.mem_pair.mp ht with rfl | rfl
  · obtain rfl := Option.some.inj hdue
    exact ⟨⟨2017, 12, 30, by decide, by decide, by decide, by decide, by decide⟩,
      by decide +kernel⟩
  · obtain rfl := Option.some.inj hdue
    exact ⟨⟨1850, 12, 24, by decide, by decide, by decide, by decide, by decide⟩,
      by decide +kernel⟩

/-- `todo` shows the index 0, but then `todo del 0` raises `ValueError` before
anything is completed, because of the date of the other job. -/
theorem del_fails_with_year_1850 :
    ¬∀ (env : Env) (loadfile : Str) (first second : Clock) (remote : Remote) (calls : ℕ),
      OnePage env.service → (∀ t ∈ remote.visible false, t.id ≠ newGid) → DuesReadable remote →
      IndexAddresses env loadfile first second remote calls := by
  intro h
  have hshown : ⟨.alert, 0, "2017/12/30".toList, ['p', 'o', 's', 't'], []⟩ ∈
      (after (todoManager turningEnv january [] []) (.start oldTasks [])).screen := by
    decide +kernel
  obtain ⟨t, haddresses⟩ := (h turningEnv [] january january oldTasks 0 turningService_onePage
    (by decide) oldTasks_duesReadable).addressed _ hshown
  have hdel := haddresses.del []
  have hunchanged : tasksAfter turningEnv january [] oldTasks ["del".toList, formatInt 0] [['y']] =
      oldTasks.tasks := by
    decide +kernel
  have hmem : t ∈ oldTasks.tasks := (mem_visible_false.mp haddresses.mem).1
  have hcompleted := hunchanged.symm.trans hdel
  rcases List.mem_pair.mp hmem with rfl | rfl
  · exact absurd (congrArg (List.map Task.status) hcompleted) (by decide)
  · exact absurd (congrArg (List.map Task.status) hcompleted) (by decide)

end EsNotebook.Todo
