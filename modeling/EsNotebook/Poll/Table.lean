import EsNotebook.Lib.Chain
import EsNotebook.Lib.Lts
import EsNotebook.Lib.Packed

/-!
# The external poll loop

With `EXTERNAL_POLL`, `main` of `test-server.c` polls the sockets of
libwebsockets itself.  `callback_http` keeps their table: the entries for
`poll` at the beginning of `pollfds`, and in `fd_lookup` where the entry of
each descriptor is.  Sockets come and go while the loop hands the entries
with something waiting to `lws_service_fd`, one after the other.
-/

namespace EsNotebook.Poll

abbrev Fd := ℕ

/-- `struct lws_pollfd` -/
structure LwsPollfd where
  fd : Fd
  events : ℕ
  revents : ℕ
  deriving DecidableEq, Repr

/-- The two arrays, of `max_poll_elements` cells; nothing stands for what has
never been written. -/
structure PollTable where
  pollfds : List (Option LwsPollfd)
  fdLookup : List (Option ℕ)
  countPollfds : ℕ
  deriving DecidableEq, Repr

section Cells

variable {α : Type*}

def load (cells : List (Option α)) (i : ℕ) : Option α := cells[i]?.join

def store (cells : List (Option α)) (i : ℕ) (x : α) : Option (List (Option α)) :=
  if i < cells.length then some (cells.set i (some x)) else none

end Cells

namespace PollTable

def malloc (maxPollElements : ℕ) : PollTable :=
  ⟨List.replicate maxPollElements none, List.replicate maxPollElements none, 0⟩

/-- `max_poll_elements` -/
def maxPollElements (t : PollTable) : ℕ := t.fdLookup.length

/-- `LWS_CALLBACK_ADD_POLL_FD`, and whether there is room. -/
def addPollFd (t : PollTable) (fd : Fd) (events : ℕ) : Option (PollTable × Bool) :=
  if t.countPollfds ≥ t.maxPollElements then some (t, false)
  else do
    let fdLookup ← store t.fdLookup fd t.countPollfds
    let pollfds ← store t.pollfds t.countPollfds ⟨fd, events, 0⟩
    some (⟨pollfds, fdLookup, t.countPollfds + 1⟩, true)

/-- `LWS_CALLBACK_DEL_POLL_FD` -/
def delPollFd (t : PollTable) (fd : Fd) : Option PollTable :=
  match t.countPollfds with
  -- the entry before the first one
  | 0 => none
  | 1 => some { t with countPollfds := 0 }
  | count + 1 => do
      let m ← load t.fdLookup fd
      let last ← load t.pollfds count
      let pollfds ← store t.pollfds m last
      let fdLookup ← store t.fdLookup last.fd m
      some ⟨pollfds, fdLookup, count⟩

/-- `LWS_CALLBACK_CHANGE_MODE_POLL_FD` -/
def changeModePollFd (t : PollTable) (fd : Fd) (events : ℕ) : Option PollTable := do
  let m ← load t.fdLookup fd
  let p ← load t.pollfds m
  let pollfds ← store t.pollfds m { p with events := events }
  some { t with pollfds := pollfds }

/-- What `poll` writes into the entries. -/
def poll (t : PollTable) (revents : List ℕ) : PollTable :=
  { t with
    pollfds := List.zipWith (fun p r ↦ p.map fun p ↦ { p with revents := r })
        (t.pollfds.take t.countPollfds) revents ++ t.pollfds.drop t.countPollfds }

/-- `lws_service_fd` has dealt with the entry at `n`. -/
def clear (t : PollTable) (n : ℕ) : Option PollTable := do
  let p ← load t.pollfds n
  let pollfds ← store t.pollfds n { p with revents := 0 }
  some { t with pollfds := pollfds }

end PollTable

/-- Where `main` is: between two rounds, at the entry `n` of a round, in the
service of that entry, or out of the loop. -/
inductive Loop where
  | idle
  | scanning (n : ℕ)
  | serving (n : ℕ)
  | done
  deriving DecidableEq, Repr

/-- The table, and on the side of libwebsockets the sockets that it wants
polled, with their events. -/
structure Server where
  table : PollTable
  sockets : Heap Fd ℕ
  loop : Loop

def Server.init (maxPollElements : ℕ) : Server := ⟨.malloc maxPollElements, ⟨[]⟩, .idle⟩

inductive Event where
  | addPollFd (fd : Fd) (events : ℕ)
  | delPollFd (fd : Fd)
  | changeModePollFd (fd : Fd) (events : ℕ)
  | poll (revents : List ℕ)
  | next
  | serviced (cleared : Bool)
  | failed
  deriving DecidableEq, Repr

/-- One step of the loop, or a callback; nothing stands for an access outside
the arrays or to a cell that has never been written. -/
def perform (s : Server) : Event → Option Server
  | .addPollFd fd events => do
      let (table, added) ← s.table.addPollFd fd events
      some { s with
        table := table
        sockets := if added then s.sockets.alloc fd events else s.sockets }
  | .delPollFd fd => do
      some { s with table := ← s.table.delPollFd fd, sockets := s.sockets.free fd }
  | .changeModePollFd fd events => do
      some { s with
        table := ← s.table.changeModePollFd fd events
        sockets := s.sockets.modify fd fun _ ↦ events }
  | .poll revents => some { s with table := s.table.poll revents, loop := .scanning 0 }
  | .next =>
      match s.loop with
      | .scanning n =>
          if n < s.table.countPollfds then do
            let p ← load s.table.pollfds n
            some { s with loop := if p.revents ≠ 0 then .serving n else .scanning (n + 1) }
          else some { s with loop := .idle }
      | _ => none
  | .serviced cleared =>
      match s.loop with
      | .serving n => do
          let table ← if cleared then s.table.clear n else some s.table
          some { s with table := table, loop := .scanning (n + 1) }
      | _ => none
  | .failed => some { s with loop := .done }

/-- `main` itself runs, and not libwebsockets. -/
def Loop.scans : Loop → Prop
  | .scanning _ => True
  | _ => False

/-- `lws_service_fd` runs. -/
def Loop.serves : Loop → Prop
  | .serving _ => True
  | _ => False

instance (l : Loop) : Decidable l.scans :=
  match l with
  | .scanning _ => isTrue trivial
  | .idle | .serving _ | .done => isFalse id

instance (l : Loop) : Decidable l.serves :=
  match l with
  | .serving _ => isTrue trivial
  | .idle | .scanning _ | .done => isFalse id

/-- Callbacks come from libwebsockets, once for each socket, and a descriptor
is below the size of the descriptor table; `poll` says something about each
entry. -/
def Enabled (s : Server) : Event → Prop
  | .addPollFd fd _ => ¬s.loop.scans ∧ s.sockets.get? fd = none ∧ fd < s.table.maxPollElements
  | .delPollFd fd | .changeModePollFd fd _ => ¬s.loop.scans ∧ (s.sockets.get? fd).isSome
  | .poll revents => s.loop = .idle ∧ revents.length = s.table.countPollfds
  | .next => s.loop.scans
  | .serviced _ | .failed => s.loop.serves

instance (s : Server) (e : Event) : Decidable (Enabled s e) :=
  match e with
  | .addPollFd _ _ | .delPollFd _ | .changeModePollFd _ _ | .poll _ =>
      inferInstanceAs (Decidable (_ ∧ _))
  | .next => inferInstanceAs (Decidable s.loop.scans)
  | .serviced _ | .failed => inferInstanceAs (Decidable s.loop.serves)

def step (s : Server) (e : Event) : Option Server := if Enabled s e then perform s e else none

/-- The server, from the start of the loop. -/
def pollServer (maxPollElements : ℕ) : Lts Server Event :=
  Lts.ofStep (.init maxPollElements) step

variable {fd : Fd} {n m i : ℕ} {xs : List LwsPollfd} {p q : LwsPollfd} {revents : List ℕ}

/-! ## The cells -/

section Cells

variable {α : Type*} {cells : List (Option α)} {x : α}

theorem store_eq (hi : i < cells.length) : store cells i x = some (cells.set i (some x)) :=
  if_pos hi

theorem load_set (hi : i < cells.length) (j : ℕ) :
    load (cells.set i (some x)) j = Function.update (load cells) i (some x) j := by
  by_cases hj : j = i
  · rw [hj, Function.update_self, load, List.getElem?_set_self hi, Option.join_some]
  · rw [Function.update_of_ne hj, load, List.getElem?_set_ne (Ne.symm hj), load]

theorem isSome_load_set (h : (load cells i).isSome) (j : ℕ) :
    (load (cells.set j (some x)) i).isSome := by
  by_cases hj : j < cells.length
  · rw [load_set hj, Function.update_apply]
    split
    · rfl
    · exact h
  · rwa [List.set_eq_of_length_le (Nat.le_of_not_lt hj)]

theorem lt_of_load (h : load cells i = some x) : i < cells.length := by
  by_contra hi
  rw [load, List.getElem?_eq_none (Nat.le_of_not_lt hi)] at h
  cases h

end Cells

/-- The table holds the entries `xs`. -/
structure PollTable.Holds (t : PollTable) (xs : List LwsPollfd) : Prop where
  count : t.countPollfds = xs.length
  size : t.pollfds.length = t.fdLookup.length
  packed : Packed LwsPollfd.fd t.pollfds (load t.fdLookup) xs

namespace PollTable.Holds

variable {t : PollTable}

theorem load_pollfds (h : t.Holds xs) (hp : xs[i]? = some p) : load t.pollfds i = some p := by
  rw [load, h.packed.cell hp, Option.join_some]

theorem fd_lt (h : t.Holds xs) (hp : p ∈ xs) : p.fd < t.maxPollElements := by
  obtain ⟨i, hi⟩ := List.mem_iff_getElem?.mp hp
  exact lt_of_load (h.packed.index i p hi)

/-- There are no more entries than descriptors. -/
theorem length_lt (h : t.Holds xs) (hfd : fd < t.maxPollElements)
    (hnew : fd ∉ xs.map LwsPollfd.fd) : xs.length < t.maxPollElements := by
  have hsub : (fd :: xs.map LwsPollfd.fd) ⊆ List.range t.maxPollElements := by
    refine List.cons_subset.mpr ⟨List.mem_range.mpr hfd, fun g hg ↦ ?_⟩
    obtain ⟨p, hp, rfl⟩ := List.mem_map.mp hg
    exact List.mem_range.mpr (h.fd_lt hp)
  have hle := ((List.nodup_cons.mpr ⟨hnew, h.packed.nodup⟩).subperm hsub).length_le
  rw [List.length_cons, List.length_map, List.length_range] at hle
  exact hle

theorem addPollFd (h : t.Holds xs) (hfd : fd < t.maxPollElements)
    (hnew : fd ∉ xs.map LwsPollfd.fd) (events : ℕ) :
    ∃ t', t.addPollFd fd events = some (t', true) ∧ t'.Holds (xs ++ [⟨fd, events, 0⟩]) ∧
      ∀ i, (load t.pollfds i).isSome → (load t'.pollfds i).isSome := by
  have hroom := h.length_lt hfd hnew
  have hcell : t.countPollfds < t.pollfds.length := by
    rw [h.count, h.size]
    exact hroom
  refine ⟨⟨t.pollfds.set t.countPollfds (some ⟨fd, events, 0⟩),
    t.fdLookup.set fd (some t.countPollfds), t.countPollfds + 1⟩, ?_, ⟨?_, ?_, ?_⟩,
    fun i hi ↦ isSome_load_set hi _⟩
  · rw [PollTable.addPollFd, if_neg (Nat.not_le.mpr (h.count ▸ hroom)), store_eq hfd,
      store_eq hcell]
    rfl
  · rw [List.length_append, h.count]
    rfl
  · rw [List.length_set, List.length_set, h.size]
  · rw [funext (load_set hfd), h.count]
    exact h.packed.push (h.count ▸ hcell) hnew

theorem delPollFd (h : t.Holds xs) (hp : xs[m]? = some p) :
    ∃ t', t.delPollFd p.fd = some t' ∧ t'.Holds (swapRemove xs m) ∧
      ∀ i, (load t.pollfds i).isSome → (load t'.pollfds i).isSome := by
  obtain ⟨hm, rfl⟩ := List.getElem?_eq_some_iff.mp hp
  rcases List.eq_nil_or_concat' xs with rfl | ⟨ys, last, rfl⟩
  · cases hm
  have hcount : t.countPollfds = ys.length + 1 := by
    rw [h.count, List.length_append, List.length_singleton]
  cases hys : ys.length with
  | zero =>
      obtain rfl := List.length_eq_zero_iff.mp hys
      refine ⟨{ t with countPollfds := 0 }, ?_, ⟨?_, h.size, ?_⟩, fun _ hi ↦ hi⟩
      · rw [PollTable.delPollFd, hcount]
        rfl
      · rw [length_swapRemove]
        rfl
      · rw [swapRemove_concat, List.set_nil]
        exact .nil
  | succ k =>
      have hlast : (ys ++ [last])[k + 1]? = some last := by
        rw [← hys, List.getElem?_concat_length]
      have hmem : last ∈ ys ++ [last] := List.mem_append_right _ (List.mem_singleton_self _)
      have hcell : m < t.pollfds.length := Nat.lt_of_lt_of_le hm h.packed.length_le
      have hfd := h.fd_lt hmem
      have hlookup := h.packed.index m _ hp
      refine ⟨⟨t.pollfds.set m (some last), t.fdLookup.set last.fd (some m), k + 1⟩, ?_,
        ⟨?_, ?_, ?_⟩, fun i hi ↦ isSome_load_set hi _⟩
      · rw [PollTable.delPollFd, hcount, hys]
        change (load t.fdLookup _).bind _ = _
        rw [hlookup, Option.bind_some, h.load_pollfds hlast]
        change (store t.pollfds m last).bind _ = _
        rw [store_eq hcell, Option.bind_some, store_eq hfd]
        rfl
      · rw [length_swapRemove, List.length_append, hys]
        rfl
      · rw [List.length_set, List.length_set, h.size]
      · rw [funext (load_set hfd)]
        exact h.packed.swapRemove hm List.getLast?_concat

/-- An entry changes, but not its descriptor; behind the entries, anything may
change. -/
theorem set (h : t.Holds xs) (hq : ∀ p, xs[m]? = some p → q.fd = p.fd) :
    ({ t with pollfds := t.pollfds.set m (some q) } : PollTable).Holds (xs.set m q) := by
  refine ⟨?_, ?_, ?_⟩
  · rw [List.length_set]
    exact h.count
  · rw [List.length_set]
    exact h.size
  · by_cases hm : m < xs.length
    · have hp := List.getElem?_eq_getElem hm
      exact h.packed.set hp (hq _ hp)
    · rw [List.set_eq_of_length_le (Nat.le_of_not_lt hm)]
      exact h.packed.set_beyond (Nat.le_of_not_lt hm) _

theorem changeModePollFd (h : t.Holds xs) (hp : xs[m]? = some p) (events : ℕ) :
    ∃ t', t.changeModePollFd p.fd events = some t' ∧
      t'.Holds (xs.set m { p with events := events }) ∧
      ∀ i, (load t.pollfds i).isSome → (load t'.pollfds i).isSome := by
  have hload := h.load_pollfds hp
  refine ⟨_, ?_, h.set fun q hq ↦ ?_, fun i hi ↦ isSome_load_set hi m⟩
  · rw [PollTable.changeModePollFd, h.packed.index m p hp]
    change (load t.pollfds m).bind _ = _
    rw [hload, Option.bind_some, store_eq (lt_of_load hload)]
    rfl
  · rw [← Option.some.inj (hp.symm.trans hq)]

theorem clear (h : t.Holds xs) (hp : load t.pollfds n = some p) :
    ∃ t', t.clear n = some t' ∧ t'.Holds (xs.set n { p with revents := 0 }) := by
  refine ⟨_, ?_, h.set fun q hq ↦ ?_⟩
  · rw [PollTable.clear, hp]
    change (store t.pollfds n _).bind _ = _
    rw [store_eq (lt_of_load hp)]
    rfl
  · rw [← Option.some.inj (hp.symm.trans (h.load_pollfds hq))]

theorem poll (h : t.Holds xs) (hlen : revents.length = t.countPollfds) :
    (t.poll revents).Holds (List.zipWith (fun p r ↦ { p with revents := r }) xs revents) := by
  rw [h.count] at hlen
  have hcells : (t.poll revents).pollfds
      = (List.zipWith (fun p r ↦ { p with revents := r }) xs revents).map some
        ++ t.pollfds.drop xs.length := by
    rw [PollTable.poll, h.count, h.packed.cells, List.zipWith_map_left, List.map_zipWith]
    rfl
  have hlength : (List.zipWith (fun (p : LwsPollfd) r ↦ { p with revents := r }) xs revents).length
      = xs.length := by
    rw [List.length_zipWith, hlen, Nat.min_self]
  have hkeys : (List.zipWith (fun (p : LwsPollfd) r ↦ { p with revents := r }) xs revents).map
      LwsPollfd.fd = xs.map LwsPollfd.fd := by
    rw [List.map_zipWith]
    exact List.ext_getElem (by simp [hlen]) fun i h₁ h₂ ↦ by simp
  refine ⟨h.count.trans hlength.symm, ?_, h.packed.congr ?_ hkeys⟩
  · rw [hcells, List.length_append, List.length_map, hlength, List.length_drop,
      Nat.add_sub_cancel' h.packed.length_le]
    exact h.size
  · rw [hcells, List.take_left' (by rw [List.length_map])]

end PollTable.Holds

end EsNotebook.Poll
