import EsNotebook.Lib.FullDate
import EsNotebook.Todo.Paging

/-!
# The numbers of the tasks

The indexes count the open tasks in the order of `sort`.  Dicts are compared by
their length first, so that tasks without notes come before tasks with notes,
and dates only decide within the two kinds.
-/

namespace EsNotebook.Todo

open Py

/-- A due date of the service is a timestamp of RFC 3339. -/
def DuesWritten (tasks : List Task) : Prop :=
  ∀ t ∈ tasks, ∀ due, t.due = some due → ∃ d : Date, d.year ≤ 9999 ∧ fullDate d <+: due

/-- The date that `joblist_load_google` reads. -/
def Item.dueDay (ti : Item) : Option Date := strptime '-' (ti.date.take 10)

def Task.dueDay (t : Task) : Option Date := t.item.bind Item.dueDay

/-- The tasks with a due date are numbered without gaps or repeats, and in the
order of their dates. -/
structure NumberedByDue (joblist : Joblist) (tasks : List Task) : Prop where
  indexes : ∀ i : ℤ, i ∈ joblist ↔ 0 ≤ i ∧ i < (tasks.filterMap Task.item).length
  jobs : ∃ order : List Item, order.Perm (tasks.filterMap Task.item) ∧
    ∀ (n : ℕ) (ti : Item), order[n]? = some ti →
      ∃ d, ti.dueDay = some d ∧ joblist.lookup (n : ℤ) = some (ti.job n d)
  sorted : ∀ (i j : ℤ) (a b : JobObj) (d e : Date), joblist.lookup i = some a →
    joblist.lookup j = some b → i < j → a.datetime = some d → b.datetime = some e →
      d.ordinal ≤ e.ordinal

/-- `load_all_task` and `joblist_load_google` number these tasks. -/
def LoadsNumbered (service : Service) (remote : Remote) (tasks : List Task) : Prop :=
  ∃ joblist remote', (joblistLoadGoogle service false).run remote = .ok joblist remote' ∧
    NumberedByDue joblist tasks

/-- No task without notes is due after a task with notes. -/
def NotesLast (tasks : List Task) : Prop :=
  ∀ t ∈ tasks, ∀ u ∈ tasks, t.notes = none → u.notes ≠ none →
    ∀ d e, t.dueDay = some d → u.dueDay = some e → d.ordinal ≤ e.ordinal

variable {tasks : List Task} {a b ti : Item} {d e : Date}

/-! ## The order of two items -/

theorem Item.values_eq_cons (ti : Item) : ∃ rest, ti.values = ti.date :: rest := by
  unfold Item.values Item.dict
  cases ti.description with
  | none => exact ⟨_, rfl⟩
  | some description => exact ⟨_, rfl⟩

theorem Item.length_dict_of_none (h : ti.description = none) : ti.dict.length = 3 := by
  simp [Item.dict, h]

theorem Item.length_dict_of_ne_none (h : ti.description ≠ none) : ti.dict.length = 4 := by
  obtain ⟨description, hsome⟩ := Option.ne_none_iff_exists'.mp h
  simp [Item.dict, hsome]

theorem Item.length_dict_le (hle : Item.Le a b) : a.dict.length ≤ b.dict.length := by
  rw [Item.le_iff_rank_le, Item.rank, Item.rank, Prod.Lex.toLex_le_toLex] at hle
  rcases hle with hlt | ⟨heq, -⟩
  · exact hlt.le
  · exact heq.le

/-- Among dicts of one length the date decides. -/
theorem Item.not_date_lt (hle : Item.Le a b) (hlen : a.dict.length = b.dict.length) :
    ¬b.date < a.date := by
  intro hlt
  obtain ⟨rest, ha⟩ := a.values_eq_cons
  obtain ⟨rest', hb⟩ := b.values_eq_cons
  have hvalues : b.values < a.values := by
    rw [ha, hb]
    exact List.cons_lt_cons_iff.mpr (.inl hlt)
  rw [Item.le_iff_rank_le, ← not_lt] at hle
  apply hle
  rw [Item.rank, Item.rank, Prod.Lex.toLex_lt_toLex]
  exact .inr ⟨hlen.symm, hvalues⟩

def DateWritten (ti : Item) : Prop := ∃ d : Date, d.year ≤ 9999 ∧ fullDate d <+: ti.date

theorem DateWritten.dueDay (h : DateWritten ti) :
    ∃ d : Date, d.year ≤ 9999 ∧ fullDate d <+: ti.date ∧ ti.dueDay = some d := by
  obtain ⟨d, hyear, hpre⟩ := h
  have htake : ti.date.take 10 = fullDate d := (List.prefix_iff_eq_take.mp hpre).symm
  exact ⟨d, hyear, hpre, by rw [Item.dueDay, htake, strptime_fullDate hyear]⟩

theorem Item.dueDay_le (hle : Item.Le a b) (hlen : a.dict.length = b.dict.length)
    (ha : DateWritten a) (hb : DateWritten b) (hd : a.dueDay = some d) (he : b.dueDay = some e) :
    d.ordinal ≤ e.ordinal := by
  obtain ⟨d', hyear, hpre, hd'⟩ := ha.dueDay
  obtain ⟨e', -, hpre', he'⟩ := hb.dueDay
  obtain rfl := Option.some.inj (hd'.symm.trans hd)
  obtain rfl := Option.some.inj (he'.symm.trans he)
  exact ordinal_le_of_not_lt hpre hpre' hyear (Item.not_date_lt hle hlen)

/-! ## The order of all items -/

/-- The items in the order of their numbers. -/
def itemsOf (tasks : List Task) : List Item := sortItems (tasks.filterMap Task.item)

theorem mem_itemsOf {tasks : List Task} : ti ∈ itemsOf tasks ↔ ∃ t ∈ tasks, t.item = some ti :=
  mem_sortItems

theorem DuesWritten.item (h : DuesWritten tasks) (hti : ti ∈ itemsOf tasks) : DateWritten ti := by
  obtain ⟨t, ht, hitem⟩ := mem_itemsOf.mp hti
  obtain ⟨due, hdue, rfl⟩ := Option.map_eq_some_iff.mp hitem
  exact h t ht due hdue

theorem le_of_lt_index {n m : ℕ} (hn : (itemsOf tasks)[n]? = some a)
    (hm : (itemsOf tasks)[m]? = some b) (hlt : n < m) : Item.Le a b := by
  have hsorted : (itemsOf tasks).Pairwise Item.Le := List.pairwise_insertionSort _ _
  obtain ⟨hnl, rfl⟩ := List.getElem?_eq_some_iff.mp hn
  obtain ⟨hml, rfl⟩ := List.getElem?_eq_some_iff.mp hm
  exact List.pairwise_iff_getElem.mp hsorted n m hnl hml hlt

theorem NotesLast.dueDay_le (h : NotesLast tasks) (hdues : DuesWritten tasks) {n m : ℕ}
    (hn : (itemsOf tasks)[n]? = some a) (hm : (itemsOf tasks)[m]? = some b) (hlt : n < m)
    (hd : a.dueDay = some d) (he : b.dueDay = some e) : d.ordinal ≤ e.ordinal := by
  have hle := le_of_lt_index hn hm hlt
  have ha := List.mem_of_getElem? hn
  have hb := List.mem_of_getElem? hm
  by_cases hlen : a.dict.length = b.dict.length
  · exact Item.dueDay_le hle hlen (hdues.item ha) (hdues.item hb) hd he
  · obtain ⟨t, ht, hta⟩ := mem_itemsOf.mp ha
    obtain ⟨u, hu, hub⟩ := mem_itemsOf.mp hb
    obtain ⟨-, -, -, hnotes⟩ := Task.item_eq_some_iff.mp hta
    obtain ⟨-, -, -, hnotes'⟩ := Task.item_eq_some_iff.mp hub
    have hshort := Item.length_dict_le hle
    have hnone : a.description = none := by
      by_contra hne
      have ha4 := Item.length_dict_of_ne_none hne
      cases hdesc : b.description with
      | none => have := Item.length_dict_of_none hdesc; omega
      | some s => exact hlen (ha4.trans (Item.length_dict_of_ne_none (by simp [hdesc])).symm)
    have hsome : b.description ≠ none := by
      intro hdesc
      exact hlen ((Item.length_dict_of_none hnone).trans (Item.length_dict_of_none hdesc).symm)
    apply h t ht u hu (hnotes ▸ hnone) (hnotes' ▸ hsome) d e
    · rw [Task.dueDay, hta, Option.bind_some, hd]
    · rw [Task.dueDay, hub, Option.bind_some, he]

/-! ## The numbers -/

theorem lookup_itemsOf {joblist : Joblist} (hload : loadJobs (itemsOf tasks) 0 ∅ = .ok joblist)
    {i : ℤ} {job : JobObj} : joblist.lookup i = some job ↔
      ∃ (n : ℕ) (ti : Item) (d : Date), (itemsOf tasks)[n]? = some ti ∧ i = n ∧
        ti.dueDay = some d ∧ job = ti.job i d := by
  have hlookup := lookup_loadJobs (fun i _ ↦ AList.lookup_empty i) hload i job
  simpa [Item.dueDay] using hlookup

theorem exists_loadJobs (hdues : DuesWritten tasks) :
    ∃ joblist, loadJobs (itemsOf tasks) 0 ∅ = .ok joblist := by
  apply loadJobs_ok
  intro ti hti
  obtain ⟨d, -, -, hd⟩ := (hdues.item hti).dueDay
  exact ⟨d, hd⟩

theorem lookup_natCast {joblist : Joblist} (hload : loadJobs (itemsOf tasks) 0 ∅ = .ok joblist)
    {n : ℕ} (hn : (itemsOf tasks)[n]? = some ti) (hd : ti.dueDay = some d) :
    joblist.lookup (n : ℤ) = some (ti.job n d) :=
  (lookup_itemsOf hload).mpr ⟨n, ti, d, hn, rfl, hd, rfl⟩

theorem numberedByDue_of_notesLast {joblist : Joblist} (hdues : DuesWritten tasks)
    (hload : loadJobs (itemsOf tasks) 0 ∅ = .ok joblist) (h : NotesLast tasks) :
    NumberedByDue joblist tasks := by
  have hperm : (itemsOf tasks).Perm (tasks.filterMap Task.item) := sortItems_perm _
  constructor
  case indexes =>
    intro i
    rw [← AList.lookup_isSome, Option.isSome_iff_exists, ← hperm.length_eq]
    constructor
    · rintro ⟨job, hjob⟩
      obtain ⟨n, ti, d, hn, rfl, -, -⟩ := (lookup_itemsOf hload).mp hjob
      have hlt := (List.getElem?_eq_some_iff.mp hn).1
      omega
    · rintro ⟨hpos, hlt⟩
      obtain ⟨n, rfl⟩ := Int.eq_ofNat_of_zero_le hpos
      have hn : (itemsOf tasks)[n]? = some (itemsOf tasks)[n] := List.getElem?_eq_getElem (by omega)
      obtain ⟨d, -, -, hd⟩ := (hdues.item (List.mem_of_getElem? hn)).dueDay
      exact ⟨_, lookup_natCast hload hn hd⟩
  case jobs =>
    refine ⟨itemsOf tasks, hperm, ?_⟩
    intro n ti hn
    obtain ⟨d, -, -, hd⟩ := (hdues.item (List.mem_of_getElem? hn)).dueDay
    exact ⟨d, hd, lookup_natCast hload hn hd⟩
  case sorted =>
    intro i j x y d e hi hj hlt hx hy
    obtain ⟨n, a, d', hn, rfl, hd, rfl⟩ := (lookup_itemsOf hload).mp hi
    obtain ⟨m, b, e', hm, rfl, he, rfl⟩ := (lookup_itemsOf hload).mp hj
    obtain rfl := Option.some.inj hx
    obtain rfl := Option.some.inj hy
    exact h.dueDay_le hdues hn hm (by omega) hd he

/-- A task without notes has a smaller number than one with notes. -/
theorem notesLast_of_numberedByDue {joblist : Joblist}
    (hload : loadJobs (itemsOf tasks) 0 ∅ = .ok joblist) (h : NumberedByDue joblist tasks) :
    NotesLast tasks := by
  intro t ht u hu htn hun d e hd he
  obtain ⟨a, hta, hd⟩ := Option.bind_eq_some_iff.mp hd
  obtain ⟨b, hub, he⟩ := Option.bind_eq_some_iff.mp he
  obtain ⟨n, hn⟩ := List.getElem?_of_mem (mem_itemsOf.mpr ⟨t, ht, hta⟩)
  obtain ⟨m, hm⟩ := List.getElem?_of_mem (mem_itemsOf.mpr ⟨u, hu, hub⟩)
  obtain ⟨-, -, -, hnotes⟩ := Task.item_eq_some_iff.mp hta
  obtain ⟨-, -, -, hnotes'⟩ := Task.item_eq_some_iff.mp hub
  have ha := Item.length_dict_of_none (hnotes.trans htn)
  have hb := Item.length_dict_of_ne_none (hnotes' ▸ hun : b.description ≠ none)
  have hlt : n < m := by
    rcases Nat.lt_trichotomy n m with hlt | rfl | hgt
    · exact hlt
    · obtain rfl := Option.some.inj (hn.symm.trans hm)
      omega
    · have hle := Item.length_dict_le (le_of_lt_index hm hn hgt)
      omega
  exact h.sorted n m _ _ d e (lookup_natCast hload hn hd) (lookup_natCast hload hm he)
    (by exact_mod_cast hlt) rfl rfl

/-- The open tasks are numbered by due date exactly if no task without notes is
due after a task with notes. -/
theorem loads_numbered_iff (service : Service) (remote : Remote) (tasks : List Task)
    (hfetches : Fetches service false remote tasks) (hdues : DuesWritten tasks) :
    LoadsNumbered service remote tasks ↔ NotesLast tasks := by
  obtain ⟨joblist, hload⟩ := exists_loadJobs hdues
  have hrun : (joblistLoadGoogle service false).run remote =
      .ok joblist { remote with calls := remote.calls + 2 } := by
    have hload' : loadJobs (sortItems (tasks.filterMap Task.item)) 0 ∅ = .ok joblist := hload
    rw [joblistLoadGoogle_of_fetches hfetches, hload', run_ofExcept]
  constructor
  · rintro ⟨joblist', remote', hrun', h⟩
    rw [hrun] at hrun'
    cases hrun'
    exact notesLast_of_numberedByDue hload h
  · intro h
    exact ⟨joblist, _, hrun, numberedByDue_of_notesLast hdues hload h⟩

/-- The bills of January, with notes and after the letters. -/
def januaryBills : Task := { bills with due := some "2018-01-24T00:00:00.000Z".toList }

def januaryTasks : Remote where
  tasks := [letters, januaryBills]
  calls := 0
  nodup := by decide

theorem duesWritten_cons {t : Task} {due : Str} (d : Date) (hdue : t.due = some due)
    (hyear : d.year ≤ 9999) (hpre : fullDate d <+: due) (h : DuesWritten tasks) :
    DuesWritten (t :: tasks) := by
  intro u hu due' hdue'
  rcases List.mem_cons.mp hu with rfl | hu
  · obtain rfl := Option.some.inj (hdue.symm.trans hdue')
    exact ⟨d, hyear, hpre⟩
  · exact h u hu due' hdue'

theorem letters_duesWritten : DuesWritten [letters] := by
  apply duesWritten_cons ⟨2017, 12, 30, by decide, by decide, by decide, by decide, by decide⟩ rfl
  · decide
  · decide +kernel
  · exact fun t ht ↦ absurd ht List.not_mem_nil

theorem loads_numbered_january :
    LoadsNumbered turningService januaryTasks [januaryBills, letters] := by
  apply (loads_numbered_iff turningService januaryTasks _ ⟨rfl, none, by decide⟩ ?_).mpr
  · intro t ht u hu htn hun d e hd he
    obtain rfl : t = letters := by
      rcases List.mem_pair.mp ht with rfl | rfl
      · cases htn
      · rfl
    obtain rfl : u = januaryBills := by
      rcases List.mem_pair.mp hu with rfl | rfl
      · rfl
      · exact absurd rfl hun
    have hall : ∀ d ∈ letters.dueDay, ∀ e ∈ januaryBills.dueDay, d.ordinal ≤ e.ordinal := by
      decide +kernel
    exact hall d hd e he
  · apply duesWritten_cons ⟨2018, 1, 24, by decide, by decide, by decide, by decide, by decide⟩ rfl
    · decide
    · decide +kernel
    · exact letters_duesWritten

/-- The letters of December 30 get the number 0, before the bills of
December 24. -/
theorem letters_numbered_first : ¬∀ (service : Service) (remote : Remote) (tasks : List Task),
    Fetches service false remote tasks → DuesWritten tasks →
      LoadsNumbered service remote tasks := by
  intro h
  have hdues : DuesWritten [bills, letters] := by
    apply duesWritten_cons ⟨2017, 12, 24, by decide, by decide, by decide, by decide, by decide⟩ rfl
    · decide
    · decide +kernel
    · exact letters_duesWritten
  have hfetches : Fetches turningService false twoTasks [bills, letters] :=
    ⟨rfl, none, by decide⟩
  obtain ⟨joblist, remote', hrun, hnumbered⟩ := h _ _ _ hfetches hdues
  rw [joblistLoadGoogle_of_fetches hfetches] at hrun
  obtain ⟨joblist', hload⟩ := exists_loadJobs hdues
  have hload' : loadJobs (sortItems ([bills, letters].filterMap Task.item)) 0 ∅ = .ok joblist' :=
    hload
  rw [hload', run_ofExcept] at hrun
  cases hrun
  have hlate := notesLast_of_numberedByDue hload hnumbered letters (by simp) bills (by simp) rfl
    (by decide)
  have hdates : ∃ d ∈ letters.dueDay, ∃ e ∈ bills.dueDay, e.ordinal < d.ordinal := by
    decide +kernel
  obtain ⟨d, hd, e, he, hlt⟩ := hdates
  exact absurd (hlate d e hd he) (Nat.not_le.mpr hlt)

end EsNotebook.Todo
