import EsNotebook.Poll.Table

/-!
# Rounds of the poll loop

The table holds one entry for each socket, whatever sockets come and go.  A
round comes to every entry with something waiting, but for those of sockets
that are gone before, and those that take the place of one that the round has
already passed: the next round finds them again.
-/

namespace EsNotebook.Poll

variable {s s' s₁ t : Server} {e : Event} {es : List Event} {fd : Fd} {events n m k max : ℕ}
  {xs ys : List LwsPollfd} {p q : LwsPollfd} {revents : List ℕ}

/-! ## What is waiting -/

/-- The entries with something waiting, and what. -/
def ready (xs : List LwsPollfd) : List (Fd × ℕ) :=
  (xs.map fun p ↦ (p.fd, p.revents)).filter fun e ↦ e.2 ≠ 0

@[simp] theorem ready_nil : ready [] = [] := rfl

theorem ready_append : ready (xs ++ ys) = ready xs ++ ready ys := by
  rw [ready, List.map_append, List.filter_append, ready, ready]

theorem ready_cons : ready (p :: xs) = ready [p] ++ ready xs := by
  rw [← List.singleton_append, ready_append]

theorem ready_perm (h : xs.Perm ys) : (ready xs).Perm (ready ys) :=
  (h.map _).filter _

/-- Other events to wait for change nothing. -/
theorem ready_drop_set (hp : xs[m]? = some p) (hfd : q.fd = p.fd)
    (hrevents : q.revents = p.revents) :
    ready ((xs.set m q).drop k) = ready (xs.drop k) := by
  obtain ⟨hm, rfl⟩ := List.getElem?_eq_some_iff.mp hp
  have hmap : (xs.set m q).map (fun p ↦ (p.fd, p.revents)) = xs.map fun p ↦ (p.fd, p.revents) := by
    rw [List.map_set, hfd, hrevents]
    refine List.ext_getElem? fun i ↦ ?_
    by_cases hi : m = i
    · subst hi
      rw [List.getElem?_set_self (by simpa using hm), List.getElem?_map,
        List.getElem?_eq_getElem hm, Option.map_some]
    · rw [List.getElem?_set_ne hi]
  rw [ready, ready, List.map_drop, hmap, List.map_drop]

/-- What the removal of an entry takes out of the rest behind a place: the
entry itself, or the one that takes its place before. -/
theorem ready_drop_perm (hp : xs[m]? = some p) :
    (ready (xs.drop k)).Perm (ready ((swapRemove xs m).drop k) ++
      ((if m < k ∧ k < xs.length then ready xs.getLast?.toList else []) ++
        if k ≤ m then ready [p] else [])) := by
  obtain ⟨hm, -⟩ := List.getElem?_eq_some_iff.mp hp
  rcases Nat.lt_or_ge m k with hmk | hkm
  · rw [if_neg (Nat.not_le.mpr hmk), List.append_nil]
    rcases Nat.lt_or_ge k xs.length with hk | hk
    · obtain ⟨last, hlast⟩ : ∃ last, xs.getLast? = some last :=
        Option.ne_none_iff_exists'.mp (mt List.getLast?_eq_none_iff.mp
          (List.ne_nil_of_length_pos (by omega)))
      rw [if_pos ⟨hmk, hk⟩, hlast, Option.toList_some, drop_eq_append_last hmk hk hlast,
        ready_append]
    · have hdrop : (swapRemove xs m).drop k = [] :=
        List.drop_eq_nil_of_le (by rw [length_swapRemove]; omega)
      rw [if_neg fun h ↦ absurd h.2 (by omega), List.drop_eq_nil_of_le hk, hdrop, List.append_nil]
  · have hp' : (xs.drop k)[m - k]? = some p := by
      rw [List.getElem?_drop, Nat.add_sub_cancel' hkm, hp]
    rw [if_neg fun h ↦ absurd h.1 (by omega), if_pos hkm, List.nil_append,
      drop_swapRemove_of_le hkm]
    refine (ready_perm (cons_swapRemove_perm hp').symm).trans ?_
    rw [ready_cons]
    exact List.perm_append_comm

/-- The entries in the table. -/
def PollTable.entries (t : PollTable) : List LwsPollfd :=
  (t.pollfds.take t.countPollfds).filterMap id

theorem PollTable.Holds.entries_eq {table : PollTable} (h : table.Holds xs) :
    table.entries = xs := by
  rw [PollTable.entries, h.count, h.packed.cells, List.filterMap_map]
  exact List.filterMap_some

/-! ## What a step does to it -/

/-- What the round still has to come to. -/
def Server.pending (s : Server) : List (Fd × ℕ) :=
  match s.loop with
  | .scanning n => ready (s.table.entries.drop n)
  | .serving n => ready (s.table.entries.drop (n + 1))
  | .idle | .done => []

/-- What is handed to `lws_service_fd`. -/
def served (s : Server) : Event → List (Fd × ℕ)
  | .next =>
      match s.loop with
      | .scanning n => ready s.table.entries[n]?.toList
      | _ => []
  | _ => []

/-- What the round will not come to: the last entry, when it takes the place of
one that has been passed, and everything, when the loop is left. -/
def passedOver (s : Server) : Event → List (Fd × ℕ)
  | .delPollFd fd =>
      match s.loop with
      | .serving n =>
          if (load s.table.fdLookup fd).any (· ≤ n) ∧ n + 1 < s.table.entries.length then
            ready s.table.entries.getLast?.toList
          else []
      | _ => []
  | .failed => s.pending
  | _ => []

/-- What is gone before the round has come to it. -/
def withdrawn (s : Server) : Event → List (Fd × ℕ)
  | .delPollFd fd =>
      match s.loop with
      | .serving n =>
          if (load s.table.fdLookup fd).any (n < ·) then
            ready (s.table.entries.filter fun p ↦ p.fd = fd)
          else []
      | _ => []
  | _ => []

/-- The entries, one for each socket. -/
structure Ok (s : Server) (xs : List LwsPollfd) : Prop where
  holds : s.table.Holds xs
  sockets : ∀ fd events, s.sockets.get? fd = some events ↔ ∃ p ∈ xs, p.fd = fd ∧ p.events = events
  serving : ∀ n, s.loop = .serving n → (load s.table.pollfds n).isSome

/-- What a step does not get around to is still pending. -/
def Settles (s s' : Server) (e : Event) : Prop :=
  s.pending.Perm (s'.pending ++ (served s e ++ passedOver s e ++ withdrawn s e))

theorem exists_of_scans {l : Loop} (h : l.scans) : ∃ n, l = .scanning n := by
  cases l with
  | scanning n => exact ⟨n, rfl⟩
  | idle | serving | done => exact h.elim

theorem exists_of_serves {l : Loop} (h : l.serves) : ∃ n, l = .serving n := by
  cases l with
  | serving n => exact ⟨n, rfl⟩
  | idle | scanning | done => exact h.elim

theorem settles_of_eq (h : s.pending = s'.pending) (hserved : served s e = [])
    (hpassed : passedOver s e = []) (hwithdrawn : withdrawn s e = []) : Settles s s' e := by
  rw [Settles, h, hserved, hpassed, hwithdrawn, List.append_nil, List.append_nil, List.append_nil]

/-- `libwebsockets` changes the table: what is pending behind the entry that is
being serviced decides. -/
theorem pending_eq (hcalls : ¬s.loop.scans) (hloop : s'.loop = s.loop)
    (h : ∀ n, ready (s.table.entries.drop (n + 1)) = ready (s'.table.entries.drop (n + 1))) :
    s.pending = s'.pending := by
  unfold Server.pending
  rw [hloop]
  cases hl : s.loop with
  | scanning n => exact absurd (hl ▸ trivial) hcalls
  | serving n => exact h n
  | idle => rfl
  | done => rfl

theorem Ok.exists_entry (h : Ok s xs) (hfd : (s.sockets.get? fd).isSome) :
    ∃ (m : ℕ) (p : LwsPollfd), xs[m]? = some p ∧ p.fd = fd := by
  obtain ⟨events, hevents⟩ := Option.isSome_iff_exists.mp hfd
  obtain ⟨p, hp, hpfd, -⟩ := (h.sockets fd events).mp hevents
  obtain ⟨m, hm⟩ := List.mem_iff_getElem?.mp hp
  exact ⟨m, p, hm, hpfd⟩

theorem eq_of_fd (h : (xs.map LwsPollfd.fd).Nodup) (hp : p ∈ xs) (hq : q ∈ xs)
    (hfd : p.fd = q.fd) : p = q :=
  List.inj_on_of_nodup_map h hp hq hfd

theorem filter_fd (h : (xs.map LwsPollfd.fd).Nodup) (hp : xs[m]? = some p) :
    xs.filter (fun q ↦ q.fd = p.fd) = [p] := by
  have hmem := List.mem_of_getElem? hp
  have hperm : (xs.filter fun q ↦ q.fd = p.fd).Perm [p] := by
    refine (List.perm_ext_iff_of_nodup ((h.of_map _).filter _) (List.nodup_singleton p)).mpr
      fun q ↦ ?_
    rw [List.mem_filter, List.mem_singleton]
    constructor
    · rintro ⟨hq, hfd⟩
      exact eq_of_fd h hq hmem (of_decide_eq_true hfd)
    · rintro rfl
      exact ⟨hmem, decide_eq_true rfl⟩
  exact List.perm_singleton.mp hperm

theorem Ok.addPollFd (h : Ok s xs) (he : Enabled s (.addPollFd fd events)) :
    ∃ s' ys, perform s (.addPollFd fd events) = some s' ∧ Ok s' ys ∧
      Settles s s' (.addPollFd fd events) ∧ s'.sockets.get? fd = some events := by
  obtain ⟨hcalls, hnone, hfd⟩ := he
  have hnew : fd ∉ xs.map LwsPollfd.fd := by
    intro hmem
    obtain ⟨p, hp, rfl⟩ := List.mem_map.mp hmem
    rw [(h.sockets p.fd p.events).mpr ⟨p, hp, rfl, rfl⟩] at hnone
    cases hnone
  obtain ⟨table, hadd, hholds, hload⟩ := h.holds.addPollFd hfd hnew events
  refine ⟨⟨table, s.sockets.alloc fd events, s.loop⟩, _, ?_,
    ⟨hholds, fun fd' events' ↦ ?_, fun n hn ↦ hload n (h.serving n hn)⟩,
    settles_of_eq (pending_eq hcalls rfl fun n ↦ ?_) rfl rfl rfl, Heap.get?_alloc_self⟩
  · rw [perform, hadd]
    rfl
  · change (s.sockets.alloc fd events).get? fd' = some events' ↔ _
    by_cases hfd' : fd' = fd
    · subst hfd'
      rw [Heap.get?_alloc_self]
      constructor
      · intro heq
        exact ⟨_, List.mem_append_right _ (List.mem_singleton_self _), rfl, Option.some.inj heq⟩
      · rintro ⟨p, hp, hpfd, hpevents⟩
        rcases List.mem_append.mp hp with hp | hp
        · exact absurd (hpfd ▸ List.mem_map_of_mem hp) hnew
        · obtain rfl := List.mem_singleton.mp hp
          exact congrArg some hpevents
    · rw [Heap.get?_alloc_of_ne hfd', h.sockets]
      refine exists_congr fun p ↦ and_congr_left fun hp ↦ ?_
      rw [List.mem_append, List.mem_singleton]
      refine ⟨.inl, fun hmem ↦ hmem.resolve_right ?_⟩
      rintro rfl
      exact hfd' hp.1.symm
  · rw [h.holds.entries_eq, hholds.entries_eq, List.drop_append, ready_append]
    have hzero : ready ([⟨fd, events, 0⟩] : List LwsPollfd) = [] := rfl
    rcases Nat.le_or_ge (n + 1) xs.length with hn | hn
    · rw [Nat.sub_eq_zero_of_le hn, List.drop_zero, hzero, List.append_nil]
    · cases hk : n + 1 - xs.length with
      | zero => rw [List.drop_zero, hzero, List.append_nil]
      | succ k => rw [List.drop_succ_cons, List.drop_nil, ready_nil, List.append_nil]

theorem Ok.delPollFd (h : Ok s xs) (he : Enabled s (.delPollFd fd)) :
    ∃ s' ys, perform s (.delPollFd fd) = some s' ∧ Ok s' ys ∧ Settles s s' (.delPollFd fd) := by
  obtain ⟨hcalls, hsome⟩ := he
  obtain ⟨m, p, hp, rfl⟩ := h.exists_entry hsome
  obtain ⟨table, hdel, hholds, hload⟩ := h.holds.delPollFd hp
  have hperm := cons_swapRemove_perm hp
  have hnodup := (hperm.map LwsPollfd.fd).nodup_iff.mpr h.holds.packed.nodup
  have hlookup := h.holds.packed.index m p hp
  refine ⟨⟨table, s.sockets.free p.fd, s.loop⟩, _, ?_,
    ⟨hholds, fun fd events ↦ ?_, fun n hn ↦ hload n (h.serving n hn)⟩, ?_⟩
  · rw [perform, hdel]
    rfl
  · change (s.sockets.free p.fd).get? fd = some events ↔ _
    by_cases hfd : fd = p.fd
    · rw [hfd, Heap.get?_free_self]
      refine ⟨fun heq ↦ absurd heq (by simp), ?_⟩
      rintro ⟨q, hq, hqfd, -⟩
      exact absurd (hqfd ▸ List.mem_map_of_mem hq) (List.nodup_cons.mp hnodup).1
    · rw [Heap.get?_free_of_ne hfd, h.sockets]
      refine exists_congr fun q ↦ and_congr_left fun hq ↦ ?_
      rw [← hperm.mem_iff, List.mem_cons]
      refine ⟨fun hmem ↦ hmem.resolve_left ?_, .inr⟩
      rintro rfl
      exact hfd hq.1.symm
  · cases hl : s.loop with
    | scanning n => exact absurd (hl ▸ trivial) hcalls
    | serving n =>
        simpa only [Settles, Server.pending, served, passedOver, withdrawn, hl, hlookup,
          h.holds.entries_eq, hholds.entries_eq, filter_fd h.holds.packed.nodup hp,
          Option.any_some, decide_eq_true_eq, List.nil_append, Nat.lt_succ_iff, Nat.succ_le_iff]
          using ready_drop_perm (k := n + 1) hp
    | idle | done =>
        refine settles_of_eq ?_ ?_ ?_ ?_
        · simp only [Server.pending, hl]
        · simp only [served]
        · simp only [passedOver, hl]
        · simp only [withdrawn, hl]

theorem Ok.changeModePollFd (h : Ok s xs) (he : Enabled s (.changeModePollFd fd events)) :
    ∃ s' ys, perform s (.changeModePollFd fd events) = some s' ∧ Ok s' ys ∧
      Settles s s' (.changeModePollFd fd events) := by
  obtain ⟨hcalls, hsome⟩ := he
  obtain ⟨m, p, hp, rfl⟩ := h.exists_entry hsome
  obtain ⟨hm, -⟩ := List.getElem?_eq_some_iff.mp hp
  obtain ⟨table, hchange, hholds, hload⟩ := h.holds.changeModePollFd hp events
  have hmem : { p with events := events } ∈ xs.set m { p with events := events } :=
    List.mem_set hm _
  refine ⟨⟨table, s.sockets.modify p.fd fun _ ↦ events, s.loop⟩, _, ?_,
    ⟨hholds, fun fd events' ↦ ?_, fun n hn ↦ hload n (h.serving n hn)⟩,
    settles_of_eq (pending_eq hcalls rfl fun n ↦ ?_) rfl rfl rfl⟩
  · rw [perform, hchange]
    rfl
  · change (s.sockets.modify p.fd _).get? fd = some events' ↔ _
    by_cases hfd : fd = p.fd
    · obtain ⟨old, hold⟩ := Option.isSome_iff_exists.mp hsome
      rw [hfd, Heap.get?_modify_self, hold, Option.map_some]
      constructor
      · intro heq
        exact ⟨_, hmem, rfl, Option.some.inj heq⟩
      · rintro ⟨q, hq, hqfd, hqevents⟩
        obtain rfl := eq_of_fd hholds.packed.nodup hq hmem hqfd
        exact congrArg some hqevents
    · rw [Heap.get?_modify_of_ne hfd, h.sockets]
      refine exists_congr fun q ↦ and_congr_left fun hq ↦ ?_
      have hqp : ∀ r : LwsPollfd, r.fd = p.fd → q ≠ r := by
        rintro r hr rfl
        exact hfd (hq.1.symm.trans hr)
      constructor
      · intro hmem
        obtain ⟨i, hi⟩ := List.mem_iff_getElem?.mp hmem
        refine List.mem_iff_getElem?.mpr ⟨i, ?_⟩
        rw [List.getElem?_set_ne, hi]
        rintro rfl
        exact hqp p rfl (Option.some.inj (hi.symm.trans hp))
      · intro hmem
        exact (List.mem_or_eq_of_mem_set hmem).resolve_right (hqp _ rfl)
  · rw [h.holds.entries_eq, hholds.entries_eq]
    refine (ready_drop_set hp ?_ ?_).symm <;> rfl

theorem mem_congr_of_keys {f : LwsPollfd → Fd × ℕ} (h : xs.map f = ys.map f) (a : Fd × ℕ) :
    (∃ p ∈ xs, f p = a) ↔ ∃ p ∈ ys, f p = a := by
  rw [← List.mem_map, h, List.mem_map]

/-- The entries change, but neither their descriptors nor their events. -/
theorem Ok.sockets_congr (h : Ok s xs)
    (hkeys : ys.map (fun p ↦ (p.fd, p.events)) = xs.map fun p ↦ (p.fd, p.events)) :
    s.sockets.get? fd = some events ↔ ∃ p ∈ ys, p.fd = fd ∧ p.events = events := by
  have hiff := mem_congr_of_keys hkeys (fd, events)
  simp only [Prod.mk.injEq] at hiff
  rw [hiff, h.sockets]

theorem Ok.poll (h : Ok s xs) (hlen : revents.length = s.table.countPollfds) :
    ∃ ys, Ok { s with table := s.table.poll revents, loop := .scanning 0 } ys ∧
      ready ys = ((xs.map LwsPollfd.fd).zip revents).filter fun e ↦ e.2 ≠ 0 := by
  have hlen' : revents.length = xs.length := hlen.trans h.holds.count
  refine ⟨_, ⟨h.holds.poll hlen, fun fd events ↦ h.sockets_congr ?_, fun n hn ↦ by cases hn⟩, ?_⟩
  · rw [List.map_zipWith]
    exact List.ext_getElem (by simp [hlen']) fun i h₁ h₂ ↦ by simp
  · rw [ready, List.map_zipWith, List.zip, List.zipWith_map_left]

theorem Ok.next (h : Ok s xs) (hscans : s.loop.scans) :
    ∃ s', perform s .next = some s' ∧ Ok s' xs ∧ Settles s s' .next := by
  obtain ⟨n, hl⟩ := exists_of_scans hscans
  rcases Nat.lt_or_ge n xs.length with hn | hn
  · have hp := List.getElem?_eq_getElem hn
    have hload := h.holds.load_pollfds hp
    have hpending : s.pending = ready [xs[n]] ++ ready (xs.drop (n + 1)) := by
      rw [Server.pending, hl]
      change ready (s.table.entries.drop n) = _
      rw [h.holds.entries_eq, List.drop_eq_getElem_cons hn, ready_cons]
    have hserved : served s .next = ready [xs[n]] := by
      simp only [served, hl, h.holds.entries_eq, hp, Option.toList_some]
    refine ⟨{ s with loop := if xs[n].revents ≠ 0 then .serving n else .scanning (n + 1) }, ?_,
      ⟨h.holds, h.sockets, fun k hk ↦ ?_⟩, ?_⟩
    · simp only [perform, hl, h.holds.count, hn, if_true, hload]
      rfl
    · change (if xs[n].revents ≠ 0 then Loop.serving n else .scanning (n + 1)) = .serving k at hk
      split at hk <;> cases hk
      rw [hload]
      rfl
    · have hpending' : Server.pending { s with
          loop := if xs[n].revents ≠ 0 then .serving n else .scanning (n + 1) }
          = ready (xs.drop (n + 1)) := by
        by_cases hzero : xs[n].revents = 0
        · rw [if_neg (not_not_intro hzero), ← h.holds.entries_eq]
          rfl
        · rw [if_pos hzero, ← h.holds.entries_eq]
          rfl
      rw [Settles, hpending, hpending', hserved]
      have hrest : passedOver s .next = [] ∧ withdrawn s .next = [] := ⟨rfl, rfl⟩
      rw [hrest.1, hrest.2, List.append_nil, List.append_nil]
      exact List.perm_append_comm
  · refine ⟨{ s with loop := .idle }, ?_, ⟨h.holds, h.sockets, fun k hk ↦ by cases hk⟩,
      settles_of_eq ?_ ?_ rfl rfl⟩
    · simp only [perform, hl, h.holds.count, Nat.not_lt.mpr hn, if_false]
    · rw [Server.pending, hl]
      change ready (s.table.entries.drop n) = []
      rw [h.holds.entries_eq, List.drop_eq_nil_of_le hn, ready_nil]
    · simp only [served, hl, h.holds.entries_eq, List.getElem?_eq_none hn, Option.toList_none,
        ready_nil]

theorem Ok.serviced (h : Ok s xs) (hserves : s.loop.serves) (cleared : Bool) :
    ∃ s' ys, perform s (.serviced cleared) = some s' ∧ Ok s' ys ∧
      Settles s s' (.serviced cleared) := by
  obtain ⟨n, hl⟩ := exists_of_serves hserves
  have hpending : s.pending = ready (xs.drop (n + 1)) := by
    rw [Server.pending, hl]
    change ready (s.table.entries.drop (n + 1)) = _
    rw [h.holds.entries_eq]
  cases cleared with
  | false =>
      refine ⟨{ s with loop := .scanning (n + 1) }, xs, ?_,
        ⟨h.holds, h.sockets, fun k hk ↦ by cases hk⟩, settles_of_eq ?_ rfl rfl rfl⟩
      · simp only [perform, hl]
        rfl
      · rw [hpending]
        change _ = ready (s.table.entries.drop (n + 1))
        rw [h.holds.entries_eq]
  | true =>
      obtain ⟨p, hp⟩ := Option.isSome_iff_exists.mp (h.serving n hl)
      obtain ⟨table, hclear, hholds⟩ := h.holds.clear hp
      refine ⟨{ s with table := table, loop := .scanning (n + 1) }, _, ?_,
        ⟨hholds, fun fd events ↦ h.sockets_congr ?_, fun k hk ↦ by cases hk⟩,
        settles_of_eq ?_ rfl rfl rfl⟩
      · simp only [perform, hl, hclear, if_true]
        rfl
      · rw [List.map_set]
        refine List.ext_getElem? fun i ↦ ?_
        by_cases hi : n = i
        · subst hi
          by_cases hn : n < xs.length
          · obtain rfl : p = xs[n] := Option.some.inj
              (hp.symm.trans (h.holds.load_pollfds (List.getElem?_eq_getElem hn)))
            rw [List.getElem?_set_self (by simpa using hn), List.getElem?_map,
              List.getElem?_eq_getElem hn, Option.map_some]
          · rw [List.set_eq_of_length_le (by simpa using hn)]
        · rw [List.getElem?_set_ne hi]
      · rw [hpending]
        change _ = ready (table.entries.drop (n + 1))
        rw [hholds.entries_eq, List.drop_set_of_lt (Nat.lt_succ_self n)]

theorem Ok.failed (h : Ok s xs) :
    Ok { s with loop := .done } xs ∧ Settles s { s with loop := .done } .failed := by
  refine ⟨⟨h.holds, h.sockets, fun k hk ↦ by cases hk⟩, ?_⟩
  change s.pending.Perm ([] ++ ([] ++ s.pending ++ []))
  rw [List.nil_append, List.nil_append, List.append_nil]

theorem Ok.step (h : Ok s xs) (he : Enabled s e) :
    ∃ s' ys, perform s e = some s' ∧ Ok s' ys ∧ ((∀ r, e ≠ .poll r) → Settles s s' e) := by
  cases e with
  | addPollFd fd events =>
      obtain ⟨s', ys, hperform, hok, hsettles, -⟩ := h.addPollFd he
      exact ⟨s', ys, hperform, hok, fun _ ↦ hsettles⟩
  | delPollFd fd =>
      obtain ⟨s', ys, hperform, hok, hsettles⟩ := h.delPollFd he
      exact ⟨s', ys, hperform, hok, fun _ ↦ hsettles⟩
  | changeModePollFd fd events =>
      obtain ⟨s', ys, hperform, hok, hsettles⟩ := h.changeModePollFd he
      exact ⟨s', ys, hperform, hok, fun _ ↦ hsettles⟩
  | poll revents =>
      obtain ⟨ys, hok, -⟩ := h.poll he.2
      exact ⟨_, ys, rfl, hok, fun hno ↦ absurd rfl (hno revents)⟩
  | next =>
      obtain ⟨s', hperform, hok, hsettles⟩ := h.next he
      exact ⟨s', xs, hperform, hok, fun _ ↦ hsettles⟩
  | serviced cleared =>
      obtain ⟨s', ys, hperform, hok, hsettles⟩ := h.serviced he cleared
      exact ⟨s', ys, hperform, hok, fun _ ↦ hsettles⟩
  | failed => exact ⟨_, xs, rfl, h.failed.1, fun _ ↦ h.failed.2⟩

/-! ## Runs -/

theorem step_eq_some_iff : step s e = some s' ↔ Enabled s e ∧ perform s e = some s' :=
  Option.ite_none_right_eq_some

theorem ok_init : Ok (.init max) [] where
  holds := ⟨rfl, by simp [Server.init, PollTable.malloc], .nil⟩
  sockets fd events := by simp [Server.init, Heap.get?]
  serving n hn := by cases hn

theorem ok_step (hok : ∃ xs, Ok s xs) (hstep : step s e = some s') :
    (∃ xs, Ok s' xs) ∧ ((∀ r, e ≠ .poll r) → Settles s s' e) := by
  obtain ⟨xs, h⟩ := hok
  obtain ⟨he, hperform⟩ := step_eq_some_iff.mp hstep
  obtain ⟨s₁, ys, hperform₁, hok₁, hsettles⟩ := h.step he
  obtain rfl : s₁ = s' := Option.some.inj (hperform₁.symm.trans hperform)
  exact ⟨⟨ys, hok₁⟩, hsettles⟩

theorem exists_ok (hs : (pollServer max).Reachable s) : ∃ xs, Ok s xs := by
  have hinvariant : (pollServer max).Invariant fun s ↦ ∃ xs, Ok s xs := by
    refine ⟨?_, fun s e s' hok hstep ↦ (ok_step hok hstep).1⟩
    rintro s rfl
    exact ⟨[], ok_init⟩
  exact hinvariant.reachable hs

/-- The entries for `poll` are one for each socket, with the events that
libwebsockets has last asked for. -/
theorem entries_of_reachable (hs : (pollServer max).Reachable s) :
    ∃ xs : List LwsPollfd, s.table.pollfds.take s.table.countPollfds = xs.map some ∧
      (xs.map LwsPollfd.fd).Nodup ∧
      ∀ fd events, s.sockets.get? fd = some events ↔ ∃ p ∈ xs, p.fd = fd ∧ p.events = events := by
  obtain ⟨xs, h⟩ := exists_ok hs
  exact ⟨xs, h.holds.count ▸ h.holds.packed.cells, h.holds.packed.nodup, h.sockets⟩

/-- The first entry has been removed, and the last one taken its place. -/
theorem entries_of_three_sockets :
    ∃ s, (pollServer 16).Run (.init 16)
      [.addPollFd 3 1, .addPollFd 7 1, .addPollFd 5 1, .changeModePollFd 5 4, .delPollFd 3] s ∧
      s.table.pollfds.take s.table.countPollfds = [some ⟨5, 4, 0⟩, some ⟨7, 1, 0⟩] ∧
      ∃ xs : List LwsPollfd, s.table.pollfds.take s.table.countPollfds = xs.map some ∧
        (xs.map LwsPollfd.fd).Nodup ∧
        ∀ fd events, s.sockets.get? fd = some events ↔
          ∃ p ∈ xs, p.fd = fd ∧ p.events = events := by
  obtain ⟨s, hrun, hentries⟩ : ∃ s, (pollServer 16).Run (.init 16)
      [.addPollFd 3 1, .addPollFd 7 1, .addPollFd 5 1, .changeModePollFd 5 4, .delPollFd 3] s ∧
      s.table.pollfds.take s.table.countPollfds = [some ⟨5, 4, 0⟩, some ⟨7, 1, 0⟩] :=
    Lts.exists_run_of_replay (by decide +kernel)
  exact ⟨s, hrun, hentries, entries_of_reachable ⟨_, _, rfl, hrun⟩⟩

/-- No step runs out of the arrays or reads a cell that has never been written,
and no socket is refused for want of room. -/
theorem exists_perform_of_enabled (hs : (pollServer max).Reachable s) (he : Enabled s e) :
    ∃ s', perform s e = some s' ∧
      ∀ fd events, e = .addPollFd fd events → s'.sockets.get? fd = some events := by
  obtain ⟨xs, h⟩ := exists_ok hs
  obtain ⟨s', ys, hperform, -⟩ := h.step he
  refine ⟨s', hperform, ?_⟩
  rintro fd events rfl
  obtain ⟨s₁, zs, hperform₁, -, -, hsocket⟩ := h.addPollFd he
  obtain rfl : s₁ = s' := Option.some.inj (hperform₁.symm.trans hperform)
  exact hsocket

theorem exists_perform_of_full_table :
    ∃ s, (pollServer 2).Run (.init 2) [.addPollFd 1 1, .addPollFd 0 1, .delPollFd 1] s ∧
      ∃ s', perform s (.addPollFd 1 4) = some s' ∧ s'.sockets.get? 1 = some 4 := by
  obtain ⟨s, hrun, he⟩ : ∃ s, (pollServer 2).Run (.init 2)
      [.addPollFd 1 1, .addPollFd 0 1, .delPollFd 1] s ∧ Enabled s (.addPollFd 1 4) :=
    Lts.exists_run_of_replay (by decide +kernel)
  obtain ⟨s', hperform, hsocket⟩ := exists_perform_of_enabled ⟨_, _, rfl, hrun⟩ he
  exact ⟨s, hrun, s', hperform, hsocket 1 4 rfl⟩

theorem settles_of_run (hok : ∃ xs, Ok s xs) (hrun : (pollServer max).Run s es t)
    (hes : ∀ r, .poll r ∉ es) :
    s.pending.Perm (t.pending ++ (Lts.outputs step served s es ++
      Lts.outputs step passedOver s es ++ Lts.outputs step withdrawn s es)) := by
  suffices h : (∃ xs, Ok t xs) ∧ s.pending.Perm (t.pending ++ (Lts.outputs step served s es ++
      Lts.outputs step passedOver s es ++ Lts.outputs step withdrawn s es)) from h.2
  induction hrun with
  | nil => exact ⟨hok, by simp [Lts.outputs]⟩
  | @snoc es t u e hrun hstep ih =>
      obtain ⟨hok', hperm⟩ := ih fun r hr ↦ hes r (List.mem_append_left _ hr)
      obtain ⟨hok'', hsettles⟩ := ok_step hok' hstep
      have hstep' := hsettles fun r hr ↦
        hes r (List.mem_append_right _ (hr ▸ List.mem_singleton_self _))
      refine ⟨hok'', ?_⟩
      rw [Lts.outputs_snoc hrun, Lts.outputs_snoc hrun, Lts.outputs_snoc hrun]
      rw [Settles, List.perm_iff_count] at hstep'
      rw [List.perm_iff_count] at hperm ⊢
      intro x
      have hx := hperm x
      have hx' := hstep' x
      simp only [List.count_append] at hx hx' ⊢
      omega

/-- A round settles all that `poll` has found, once each: it has been handed to
`lws_service_fd`, has been passed over, or was gone before. -/
theorem round_of_poll (hs : (pollServer max).Reachable s)
    (hpoll : (pollServer max).step s (.poll revents) s₁) (hrun : (pollServer max).Run s₁ es t)
    (hes : ∀ r, .poll r ∉ es) (hend : t.loop = .idle ∨ t.loop = .done) :
    (((s.table.entries.map LwsPollfd.fd).zip revents).filter fun e ↦ e.2 ≠ 0).Perm
        (Lts.outputs step served s₁ es ++ Lts.outputs step passedOver s₁ es ++
          Lts.outputs step withdrawn s₁ es) ∧
      (s.table.entries.map LwsPollfd.fd).Nodup := by
  obtain ⟨xs, h⟩ := exists_ok hs
  obtain ⟨he, hperform⟩ := step_eq_some_iff.mp hpoll
  obtain ⟨ys, hok, hready⟩ := h.poll he.2
  cases hperform
  have hpending : t.pending = [] := by
    unfold Server.pending
    rcases hend with hend | hend <;> rw [hend]
  have hperm := settles_of_run ⟨ys, hok⟩ hrun hes
  rw [hpending, List.nil_append] at hperm
  refine ⟨?_, ?_⟩
  · rw [h.holds.entries_eq, ← hready]
    convert hperm using 1
    rw [← hok.holds.entries_eq]
    rfl
  · rw [h.holds.entries_eq]
    exact h.holds.packed.nodup

/-- The service of the first socket closes it, and the last one takes its place. -/
theorem round_of_poll_missed :
    ∃ s s₁ t, (pollServer 16).Run (.init 16)
        [.addPollFd 3 1, .addPollFd 7 4, .addPollFd 5 1] s ∧
      (pollServer 16).Run s [.poll [1, 4, 1]] s₁ ∧
      (pollServer 16).Run s₁
        [.next, .delPollFd 3, .serviced true, .next, .serviced true, .next] t ∧
      (((s.table.entries.map LwsPollfd.fd).zip [1, 4, 1]).filter fun e ↦ e.2 ≠ 0).Perm
          ([(3, 1), (7, 4)] ++ [(5, 1)] ++ []) ∧
        (s.table.entries.map LwsPollfd.fd).Nodup := by
  obtain ⟨s, t, hfirst, hpoll, hrun⟩ : ∃ s t, (pollServer 16).Run (.init 16)
      [.addPollFd 3 1, .addPollFd 7 4, .addPollFd 5 1] s ∧
      (step s (.poll [1, 4, 1])).any (fun s₁ ↦
        Lts.outputs step served s₁
            [.next, .delPollFd 3, .serviced true, .next, .serviced true, .next]
          = [(3, 1), (7, 4)] ∧
        Lts.outputs step passedOver s₁
            [.next, .delPollFd 3, .serviced true, .next, .serviced true, .next]
          = [(5, 1)] ∧
        Lts.outputs step withdrawn s₁
            [.next, .delPollFd 3, .serviced true, .next, .serviced true, .next]
          = [] ∧
        (List.foldlM step s₁
          [.next, .delPollFd 3, .serviced true, .next, .serviced true, .next]).any
            fun t ↦ t.loop = .idle) = true ∧
      (pollServer 16).Run s [.poll [1, 4, 1], .next, .delPollFd 3, .serviced true, .next,
        .serviced true, .next] t :=
    Lts.exists_runs_of_replay (by decide +kernel)
  obtain ⟨s₁, hstep, hrest⟩ := Lts.run_ofStep_cons_iff.mp hrun
  rw [hstep, Option.any_some, decide_eq_true_eq] at hpoll
  obtain ⟨hserved, hpassed, hwithdrawn, hend⟩ := hpoll
  rw [Lts.run_ofStep_iff.mp hrest, Option.any_some, decide_eq_true_eq] at hend
  have h := round_of_poll ⟨_, _, rfl, hfirst⟩ hstep hrest (by simp) (.inl hend)
  rw [hserved, hpassed, hwithdrawn] at h
  exact ⟨s, s₁, t, hfirst, .single hstep, hrest, h⟩

end EsNotebook.Poll
