import EsNotebook.Lib.Register
import EsNotebook.Todo.Joblist

/-!
# The abstract todo list

What the commands are for: a register of tasks by id, of which the user
reaches some by their index.  A joblist is linked to it when the marks on its
jobs are either still to be applied once or harmless to apply again.
-/

namespace EsNotebook.Todo

open Py

/-- A task as its user sees it. -/
structure Entry where
  title : Str
  notes : Str
  due : Option Date
  status : Status
  completed : Option Str
  deriving DecidableEq, Repr

def dueDate (due : Str) : Option Date := strptime '-' (due.take 10)

def Task.entry (t : Task) : Entry where
  title := t.title
  notes := t.notes.getD []
  due := t.due.bind dueDate
  status := t.status
  completed := t.completed

def entriesOf (tasks : List Task) (id : Str) : Option Entry :=
  (tasks.find? fun t ↦ t.id = id).map Task.entry

abbrev TodoList := Register ℤ Str Entry

/-! ## Operations -/

/-- What is typed empty stays as it is. -/
def Entry.edit (due : Option Date) (title notes : Str) (e : Entry) : Entry :=
  { e with
    due := due.or e.due
    title := if title ≠ [] then title else e.title
    notes := if notes ≠ [] then notes else e.notes }

def Entry.complete (clock : Clock) (e : Entry) : Entry :=
  if e.status = .completed then e
  else { e with status := .completed, completed := isoDate clock.today }

/-- An operation with its answers, confirmed with `y`. -/
inductive Command where
  | add (due job_name comments : Str)
  | edit (index due job_name comments : Str)
  | del (index : Str)

/-- What the command asks of the list; nothing if its answers are refused. -/
def Command.meaning (clock : Clock) : Command → Option (Register.Op ℤ Entry)
  | .add due job_name comments =>
      match addDate clock due with
      | .ok (some d) =>
          some (.insert
            { title := job_name, notes := comments, due := some d, status := .needsAction
              completed := none })
      | _ => none
  | .edit index due job_name comments =>
      match parseInt index, newDue due with
      | some i, some typed => some (.modify i (.edit typed job_name comments))
      | _, _ => none
  | .del index => (parseInt index).map fun i ↦ .modify i (.complete clock)

def Command.answers : Command → List Str
  | .add due job_name comments => [due, job_name, comments, ['y']]
  | .edit _ due job_name comments => [due, job_name, comments]
  | .del _ => [['y']]

def Command.program (env : Env) (clock : Clock) : Command → SessionM Unit
  | .add _ _ _ => joblistAdd env clock
  | .edit index _ _ _ => joblistEdit env clock index
  | .del index => joblistDel env clock index

def Command.run (env : Env) (clock : Clock) (command : Command) (session : Session) : Session :=
  after (command.program env clock) { session with answers := command.answers }

/-- A session of commands, each at its own time. -/
def commands (env : Env) (session : Session) : Lts Session (Clock × Command) where
  init s := s = session
  step s e s' := s' = e.2.run env e.1 s

/-! ## Tasks under the operations -/

theorem entriesOf_of_mem {tasks : List Task} (hnodup : (tasks.map Task.id).Nodup) {t : Task}
    (ht : t ∈ tasks) : entriesOf tasks t.id = some t.entry := by
  rw [entriesOf, find?_of_mem hnodup ht, Option.map_some]

theorem ne_none_of_entriesOf {tasks : List Task} {id : Str} :
    entriesOf tasks id ≠ none ↔ id ∈ tasks.map Task.id := by
  simp [entriesOf, List.mem_map]

theorem encard_entriesOf {tasks : List Task} (hnodup : (tasks.map Task.id).Nodup) :
    {id | entriesOf tasks id ≠ none}.encard = tasks.length := by
  have hset : {id | entriesOf tasks id ≠ none} = ((tasks.map Task.id).toFinset : Set Str) := by
    ext id
    rw [Set.mem_ofPred_eq, ne_none_of_entriesOf, List.coe_toFinset, Set.mem_ofPred_eq]
  rw [hset, Set.encard_coe_eq_coe_finsetCard, List.toFinset_card_of_nodup hnodup, List.length_map]

/-- The task with this id after `onOpen`. -/
def Task.onOpen (gid : Str) (f : Task → Task) (t : Task) : Task :=
  if t.id = gid ∧ t.status ≠ .completed then f t else t

theorem Task.onOpen_id {f : Task → Task} (hf : ∀ t, (f t).id = t.id) (gid : Str) (t : Task) :
    (t.onOpen gid f).id = t.id := by
  unfold Task.onOpen
  split_ifs
  · exact hf t
  · rfl

theorem mem_onOpen {gid : Str} {f : Task → Task} {tasks : List Task} {t : Task} (ht : t ∈ tasks) :
    t.onOpen gid f ∈ onOpen gid f tasks :=
  List.mem_map_of_mem ht

theorem mem_onOpen_of_ne {gid : Str} {f : Task → Task} {tasks : List Task} {t : Task}
    (ht : t ∈ tasks) (hne : t.id ≠ gid) : t ∈ onOpen gid f tasks := by
  have h : t.onOpen gid f ∈ onOpen gid f tasks := mem_onOpen ht
  rwa [Task.onOpen, if_neg fun h ↦ hne h.1] at h

theorem entriesOf_onOpen {f : Task → Task} (hf : ∀ t, (f t).id = t.id) {tasks : List Task}
    (hnodup : (tasks.map Task.id).Nodup) {t : Task} (ht : t ∈ tasks) :
    entriesOf (onOpen t.id f tasks) =
      Function.update (entriesOf tasks) t.id (some (t.onOpen t.id f).entry) := by
  have hfind (id : Str) : (onOpen t.id f tasks).find? (fun u ↦ u.id = id) =
      (tasks.find? fun u ↦ u.id = id).map (Task.onOpen t.id f) := by
    rw [show onOpen t.id f tasks = tasks.map (Task.onOpen t.id f) from rfl, List.find?_map]
    congr 2
    funext u
    simp [Task.onOpen_id hf]
  funext id
  rw [entriesOf, hfind]
  by_cases h : id = t.id
  · subst h
    rw [Function.update_self, find?_of_mem hnodup ht]
    rfl
  · rw [Function.update_of_ne h, entriesOf]
    cases hu : tasks.find? (fun u ↦ u.id = id) with
    | none => rfl
    | some u =>
        have huid : u.id = id := by simpa using List.find?_some hu
        have hne : ¬(u.id = t.id ∧ u.status ≠ .completed) := fun h' ↦ h (huid.symm.trans h'.1)
        simp only [Option.map_some, Task.onOpen, if_neg hne]

theorem entriesOf_concat {tasks : List Task} {t : Task} (hnew : t.id ∉ tasks.map Task.id) :
    entriesOf (tasks ++ [t]) = Function.update (entriesOf tasks) t.id (some t.entry) := by
  funext id
  rw [entriesOf, List.find?_append]
  by_cases h : id = t.id
  · subst h
    have hnone : tasks.find? (fun u ↦ u.id = t.id) = none := by
      rw [List.find?_eq_none]
      intro u hu hid
      exact hnew (List.mem_map.mpr ⟨u, hu, by simpa using hid⟩)
    rw [Function.update_self, hnone]
    simp
  · rw [Function.update_of_ne h, entriesOf]
    simp [Ne.symm h]

theorem dueDate_isoDate {d : Date} {due : Str} (hlow : 1900 ≤ d.year) (hhigh : d.year ≤ 9999)
    (h : isoDate d = some due) : dueDate due = some d := by
  obtain ⟨s, hs, hread⟩ := strptime_strftime '-' hlow hhigh
  rw [isoDate, hs, Option.map_some, Option.some_inj] at h
  rw [dueDate, ← h, ← length_strftime hlow hhigh hs, List.take_left, hread]

/-! ## The link -/

/-- The marks of the job are applied to its task already, or ask for
nothing. -/
structure Settled (job : JobObj) (t : Task) : Prop where
  gid : job.gid = t.id
  done : job.actreq = .del ↔ t.status = .completed
  dated : ∃ d, job.datetime = some d ∧ d.year ≤ 9999
  shown : t.status ≠ .completed →
    t.title = job.job_name ∧ t.notes.getD [] = job.comments ∧ t.due.bind dueDate = job.datetime
  written : t.status ≠ .completed → job.actreq = .edit →
    t.notes = some job.comments ∧ ∃ d date, job.datetime = some d ∧ isoDate d = some date ∧
      t.due = some date

/-- The joblist and the tasks show the list. -/
structure Linked (joblist : Joblist) (tasks : List Task) (list : TodoList) : Prop where
  entries : list.entries = entriesOf tasks
  absent : ∀ i, joblist.lookup i = none → list.address i = none
  present : ∀ i job, joblist.lookup i = some job →
    ∃ t ∈ tasks, list.address i = some t.id ∧ (job.gid ≠ newGid → Settled job t)
  distinct : ∀ i j id, list.address i = some id → list.address j = some id → i = j

variable {env : Env} {clock : Clock} {joblist : Joblist} {tasks : List Task} {list : TodoList}

theorem saveEffect_of_settled (hnodup : (tasks.map Task.id).Nodup) {x : ℤ} {job : JobObj}
    (hjob : joblist.lookup x = some job) {t : Task} (ht : t ∈ tasks) (hsettled : Settled job t)
    (hgid : job.gid ≠ newGid) : saveEffect env clock joblist tasks x = tasks := by
  cases hitem : job.syncItem with
  | error e => simp only [saveEffect, hjob, hitem]
  | ok item =>
      rw [saveEffect_of_lookup hjob hitem]
      obtain ⟨d, date, hd, hdate, rfl⟩ := syncItem_eq_ok_iff.mp hitem
      simp only [SyncItem.effect, hgid, if_false]
      cases hactreq : job.actreq with
      | none => rfl
      | del =>
          apply onOpen_eq_self
          intro u hu hid hopen
          obtain rfl := eq_of_id_eq hnodup hu ht (hid.trans hsettled.gid)
          exact absurd (hsettled.done.mp hactreq) hopen
      | edit =>
          apply onOpen_eq_self
          intro u hu hid hopen
          obtain rfl := eq_of_id_eq hnodup hu ht (hid.trans hsettled.gid)
          obtain ⟨htitle, -, -⟩ := hsettled.shown hopen
          obtain ⟨hnotes, d', date', hd', hdate', hdue⟩ := hsettled.written hopen hactreq
          obtain rfl : d = d' := Option.some.inj (hd.symm.trans hd')
          obtain rfl : date = date' := Option.some.inj (hdate.symm.trans hdate')
          rw [Task.rewrite, ← htitle, ← hnotes, ← hdue]

theorem Settled.del {job : JobObj} {t : Task} (h : Settled job t) (clock : Clock) :
    Settled { job with actreq := .del } (t.onOpen t.id (.complete clock)) ∧
      (t.onOpen t.id (.complete clock)).entry = t.entry.complete clock := by
  by_cases hopen : t.status = .completed
  · have hsame : t.onOpen t.id (.complete clock) = t := if_neg fun h' ↦ h'.2 hopen
    rw [hsame]
    constructor
    · exact ⟨h.gid, ⟨fun _ ↦ hopen, fun _ ↦ rfl⟩, h.dated, fun h' ↦ absurd hopen h',
        fun h' ↦ absurd hopen h'⟩
    · exact (if_pos hopen).symm
  · have hdone : t.onOpen t.id (.complete clock) = t.complete clock := if_pos ⟨rfl, hopen⟩
    rw [hdone]
    constructor
    · exact ⟨h.gid, ⟨fun _ ↦ rfl, fun _ ↦ rfl⟩, h.dated, fun h' ↦ absurd rfl h',
        fun h' ↦ absurd rfl h'⟩
    · exact (if_neg hopen).symm

theorem Settled.edited {job : JobObj} {t : Task} (h : Settled job t) (hopen : t.status ≠ .completed)
    {typed : Option Date} {job_name comments date : Str} {d : Date}
    (hd : typed.or job.datetime = some d) (hlow : 1900 ≤ d.year) (hhigh : d.year ≤ 9999)
    (hdate : isoDate d = some date) :
    let edited := job.edited typed job_name comments
    let t' := t.onOpen t.id (.rewrite edited.job_name edited.comments date)
    Settled edited t' ∧ t'.entry = t.entry.edit typed job_name comments := by
  intro edited t'
  have ht' : t' = t.rewrite edited.job_name edited.comments date := if_pos ⟨rfl, hopen⟩
  obtain ⟨htitle, hnotes, hdue⟩ := h.shown hopen
  have hread : dueDate date = some d := dueDate_isoDate hlow hhigh hdate
  rw [ht']
  constructor
  · constructor
    case gid => exact h.gid
    case done => exact ⟨fun h' ↦ (nomatch h'), fun h' ↦ absurd h' hopen⟩
    case dated => exact ⟨d, hd, hhigh⟩
    case shown => exact fun _ ↦ ⟨rfl, rfl, hread.trans hd.symm⟩
    case written => exact fun _ _ ↦ ⟨rfl, d, date, hd, hdate, rfl⟩
  · simp only [Task.entry, Task.rewrite, Entry.edit, edited, JobObj.edited, htitle, hnotes, hdue,
      Option.bind_some, Option.getD_some, hread, hd]

/-- One job is marked anew and its task changed accordingly. -/
theorem Linked.modify (h : Linked joblist tasks list) (hnodup : (tasks.map Task.id).Nodup)
    {i : ℤ} {marked : JobObj} {t : Task} (ht : t ∈ tasks) (haddress : list.address i = some t.id)
    {f : Task → Task} (hf : ∀ t, (f t).id = t.id)
    (hsettled : Settled marked (t.onOpen t.id f)) :
    Linked (joblist.insert i marked) (onOpen t.id f tasks)
      ⟨Function.update list.entries t.id (some (t.onOpen t.id f).entry), list.address⟩ where
  entries := by
    dsimp only
    rw [h.entries, entriesOf_onOpen hf hnodup ht]
  absent := by
    intro j hj
    rw [AList.lookup_insert_eq_none] at hj
    exact h.absent j hj.2
  present := by
    intro j job hjob
    by_cases hji : j = i
    · subst hji
      rw [AList.lookup_insert, Option.some_inj] at hjob
      subst hjob
      refine ⟨t.onOpen t.id f, mem_onOpen ht, ?_, fun _ ↦ hsettled⟩
      rw [haddress, Task.onOpen_id hf]
    · rw [AList.lookup_insert_ne hji] at hjob
      obtain ⟨u, hu, haddress', hsettled'⟩ := h.present j job hjob
      have hne : u.id ≠ t.id := fun hid ↦ hji (h.distinct j i t.id (hid ▸ haddress') haddress)
      exact ⟨u, mem_onOpen_of_ne hu hne, haddress', hsettled'⟩
  distinct := h.distinct

theorem Linked.insert (h : Linked joblist tasks list) {i : ℤ} (hi : joblist.lookup i = none)
    {job : JobObj} (hgid : job.gid = newGid) {t : Task} (hnew : t.id ∉ tasks.map Task.id) :
    Linked (joblist.insert i job) (tasks ++ [t])
      ⟨Function.update list.entries t.id (some t.entry),
        Function.update list.address i (some t.id)⟩ where
  entries := by
    dsimp only
    rw [h.entries, entriesOf_concat hnew]
  absent := by
    intro j hj
    rw [AList.lookup_insert_eq_none] at hj
    dsimp only
    rw [Function.update_of_ne hj.1]
    exact h.absent j hj.2
  present := by
    intro j job' hjob
    by_cases hji : j = i
    · subst hji
      rw [AList.lookup_insert, Option.some_inj] at hjob
      subst hjob
      exact ⟨t, by simp, Function.update_self .., fun hno ↦ absurd hgid hno⟩
    · rw [AList.lookup_insert_ne hji] at hjob
      obtain ⟨u, hu, haddress, hsettled⟩ := h.present j job' hjob
      exact ⟨u, by simp [hu], by simpa [hji] using haddress, hsettled⟩
  distinct := by
    have hold {j : ℤ} (haddress : list.address j = some t.id) : False := by
      cases hjob : joblist.lookup j with
      | none => simp [h.absent j hjob] at haddress
      | some job' =>
          obtain ⟨u, hu, haddress', -⟩ := h.present j job' hjob
          have hid : u.id = t.id := Option.some.inj (haddress'.symm.trans haddress)
          exact hnew (List.mem_map.mpr ⟨u, hu, hid⟩)
    intro j k id hj hk
    dsimp only at hj hk
    by_cases hji : j = i <;> by_cases hki : k = i
    · rw [hji, hki]
    · rw [hji, Function.update_self, Option.some_inj] at hj
      rw [Function.update_of_ne hki, ← hj] at hk
      exact (hold hk).elim
    · rw [hki, Function.update_self, Option.some_inj] at hk
      rw [Function.update_of_ne hji, ← hk] at hj
      exact (hold hj).elim
    · rw [Function.update_of_ne hji] at hj
      rw [Function.update_of_ne hki] at hk
      exact h.distinct j k id hj hk

/-- The list that a user sees after loading. -/
def TodoList.loaded (joblist : Joblist) (tasks : List Task) : TodoList where
  entries := entriesOf tasks
  address i := (joblist.lookup i).map JobObj.gid

theorem linked_of_load {remote : Remote} (hload : loadJobs remote.items 0 ∅ = .ok joblist) :
    Linked joblist remote.tasks (.loaded joblist remote.tasks) where
  entries := rfl
  absent := by
    intro i hi
    simp [TodoList.loaded, hi]
  present := by
    intro i job hjob
    obtain ⟨t, ht, due, d, hdue, hd, rfl⟩ := loadedFrom_of_lookup hload hjob
    obtain ⟨hmem, hopen⟩ := mem_visible_false.mp ht
    refine ⟨t, hmem, by simp [TodoList.loaded, hjob], fun _ ↦ ?_⟩
    constructor
    case gid => rfl
    case done => simp [hopen]
    case dated => exact ⟨d, rfl, strptime_year_le hd⟩
    case shown => exact fun _ ↦ ⟨rfl, rfl, by rw [hdue, Option.bind_some, dueDate, hd]⟩
    case written => exact fun _ h ↦ nomatch h
  distinct := by
    intro i j id hi hj
    obtain ⟨job, hjob, rfl⟩ := Option.map_eq_some_iff.mp hi
    obtain ⟨job', hjob', hgid⟩ := Option.map_eq_some_iff.mp hj
    exact index_eq_of_gid_eq hload hjob hjob' hgid.symm

end EsNotebook.Todo
