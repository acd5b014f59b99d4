import EsNotebook.Mirror.Slots

/-!
# Every callback and its payloads

What each callback does, one lemma for each, and from it what holds in every
run: no callback reads or frees a payload that is not there, each payload is
freed once, and the end of the vhost frees the rest.
-/

namespace EsNotebook.Mirror

open CMemory

variable {s t : State} {a b : Addr} {pss pss' : PerSessionData} {data : Bytes} {e : Event}
  {es : List Event}

/-! ## A message comes in -/

/-- The ring after a message from the session, which is dropped if the session
itself has left no room. -/
def State.received (s : State) (pss : PerSessionData) (data : Bytes) : State :=
  if s.lag pss = maxMessageQueue - 1 then s else s.accept data

/-- The session is throttled after its message: it has just been left room for
one more, or there was none. -/
def State.Throttles (s : State) (pss : PerSessionData) : Prop :=
  s.lag pss = maxMessageQueue - 1 ∨ s.lag pss = maxMessageQueue - 3

instance (s : State) (pss : PerSessionData) : Decidable (s.Throttles pss) := by
  unfold State.Throttles
  infer_instance

/-- A session after some session's message: each is called when it can be
written to. -/
def PerSessionData.notified (pss : PerSessionData) (throttled : Bool) : PerSessionData :=
  { pss with rxFlow := pss.rxFlow && !throttled, writable := true }

theorem chokeOrDone_sessions (ha : s.sessions a = some pss) (choke : Bool) :
    (chokeOrDone s a pss choke).sessions b
      = (s.sessions b).map fun pss ↦ pss.notified (choke && b = a) := by
  cases choke <;> by_cases hb : b = a
  · subst hb
    simp [chokeOrDone, State.callbackOnWritableAll, State.mapSessions, ha,
      PerSessionData.notified]
  · cases hsb : s.sessions b <;>
      simp [chokeOrDone, State.callbackOnWritableAll, State.mapSessions, hsb,
        PerSessionData.notified]
  · subst hb
    simp [chokeOrDone, State.callbackOnWritableAll, State.mapSessions, State.setSession, ha,
      PerSessionData.notified]
  · cases hsb : s.sessions b <;>
      simp [chokeOrDone, State.callbackOnWritableAll, State.mapSessions, State.setSession, hsb, hb,
        PerSessionData.notified]

theorem chokeOrDone_vhd (s : State) (a : Addr) (pss : PerSessionData) (choke : Bool) :
    (chokeOrDone s a pss choke).vhd = s.vhd := by
  cases choke <;> rfl

theorem chokeOrDone_mem (s : State) (a : Addr) (pss : PerSessionData) (choke : Bool) :
    (chokeOrDone s a pss choke).mem = s.mem := by
  cases choke <;> rfl

theorem chokeOrDone_destroyed (s : State) (a : Addr) (pss : PerSessionData) (choke : Bool) :
    (chokeOrDone s a pss choke).destroyed = s.destroyed := by
  cases choke <;> rfl

/-- The effect of `LWS_CALLBACK_RECEIVE`. -/
structure Received (s t : State) (a : Addr) (pss : PerSessionData) (data : Bytes) : Prop where
  vhd : t.vhd = (s.received pss data).vhd
  mem : t.mem = (s.received pss data).mem
  destroyed : t.destroyed = s.destroyed
  sessions : ∀ b, t.sessions b
    = (s.sessions b).map fun q ↦ q.notified (decide (s.Throttles pss) && b = a)

theorem receive_spec (hs : Ok s) (ha : s.sessions a = some pss) (data : Bytes) :
    ∃ t, receive s a data = some t ∧ Received s t a pss data := by
  have htail := hs.tail a pss ha
  have hlag := hs.ring.behind_eq htail
  rw [receive_eq ha, hlag]
  by_cases hfull : s.lag pss = maxMessageQueue - 1
  · rw [if_pos hfull]
    refine ⟨_, rfl, ?_, ?_, ?_, fun b ↦ ?_⟩
    · rw [chokeOrDone_vhd, State.received, if_pos hfull]
    · rw [chokeOrDone_mem, State.received, if_pos hfull]
    · rw [chokeOrDone_destroyed]
    · rw [chokeOrDone_sessions ha]
      simp [State.Throttles, hfull]
  · have hbehind := (hs.ring.accept data).behind_eq (backlog_accept hs.ring htail data).1
    have hsucc : (s.accept data).lag pss = s.lag pss + 1 := by
      have h := Ring.lag_succ hs.ring.head_lt htail.lt
      change (s.accept data).lag pss = if s.lag pss = _ then 0 else s.lag pss + 1 at h
      rwa [if_neg hfull] at h
    have hthrottles : decide ((s.accept data).lag pss = maxMessageQueue - 2)
        = decide (s.Throttles pss) := by
      rw [decide_eq_decide, hsucc]
      simp only [State.Throttles, maxMessageQueue] at hfull ⊢
      omega
    rw [if_neg hfull, hbehind, hthrottles]
    refine ⟨_, rfl, ?_, ?_, ?_, fun b ↦ ?_⟩
    · rw [chokeOrDone_vhd, State.received, if_neg hfull]
    · rw [chokeOrDone_mem, State.received, if_neg hfull]
    · rw [chokeOrDone_destroyed]
      rfl
    · exact chokeOrDone_sessions (s := s.accept data) ha _

/-- The queue of each session after a message. -/
theorem Received.backlog (h : Received s t a pss data) (hs : Ok s) {q : PerSessionData}
    (hq : s.sessions b = some q) (off : Bool) :
    TailOk t (q.notified off) ∧ t.backlog (q.notified off)
      = if s.lag pss = maxMessageQueue - 1 then s.backlog q
        else Ring.push maxMessageQueue (s.backlog q) data := by
  have htail := hs.tail b q hq
  have hrecv := h.vhd
  have hmem := h.mem
  rw [State.received] at hrecv hmem
  split
  · next hfull =>
      rw [if_pos hfull] at hrecv hmem
      exact ⟨htail.congr hrecv hmem rfl, backlog_congr hrecv hmem q⟩
  · next hfull =>
      rw [if_neg hfull] at hrecv hmem
      obtain ⟨htail', hbacklog⟩ := backlog_accept hs.ring htail data
      exact ⟨htail'.congr hrecv hmem rfl, (backlog_congr hrecv hmem q).trans hbacklog⟩

theorem Received.ok (h : Received s t a pss data) (hs : Ok s) : Ok t := by
  have hrecv : RingOk (s.received pss data) := by
    unfold State.received
    split
    · exact hs.ring
    · exact hs.ring.accept data
  have hcount : t.count = (s.received pss data).count := by rw [State.count, State.count, h.mem]
  refine ⟨⟨?_, ?_, ?_, ?_⟩, fun b q' hq' ↦ ?_⟩
  · rw [h.vhd, hcount]
    exact hrecv.head
  · rw [h.vhd, hcount, h.mem]
    exact hrecv.slot
  · rw [h.vhd, hcount]
    exact hrecv.unused
  · rw [h.mem, hcount]
    exact hrecv.frees
  · rw [h.sessions b, Option.map_eq_some_iff] at hq'
    obtain ⟨q, hq, rfl⟩ := hq'
    exact (h.backlog hs hq _).1

/-! ## A session can be written to -/

theorem serverWriteable_spec (hs : Ok s) (ha : s.sessions a = some pss) (io : ℕ → WriteResult) :
    ∃ t pss' k, serverWriteable s a io = some t ∧
      Drained (s.setSession a { pss with writable := false }) t a
        { pss with writable := false } pss' k ∧
      (s.lag pss' = 0 ∨ pss'.writable = true ∨ pss'.closing = true) ∧
      (pss.closing = true → pss'.closing = true) ∧ Ok t := by
  set pss₀ : PerSessionData := { pss with writable := false }
  set s₀ : State := s.setSession a pss₀
  have hself : s₀.sessions a = some pss₀ := by simp [s₀, State.setSession]
  have hs₀ : Ok s₀ := by
    refine hs.congr rfl rfl fun b q hq ↦ ?_
    by_cases hb : b = a
    · subst hb
      obtain rfl := Option.some.inj (hq.symm.trans hself)
      exact (hs.tail b pss ha).congr rfl rfl rfl
    · have hq₀ : s.sessions b = some q := by simpa [s₀, State.setSession, hb] using hq
      exact (hs.tail b q hq₀).congr rfl rfl rfl
  have hlag : s₀.lag pss₀ < maxMessageQueue := Ring.lag_lt maxMessageQueue_pos _ _
  obtain ⟨t, pss', k, hdrain, hdrained, hend, hclosing⟩ := drain_spec io 0 hs₀ hself hlag
  exact ⟨t, pss', k, by simp [serverWriteable, ha, hdrain, pss₀, s₀], hdrained, hend, hclosing,
    hdrained.ok hs₀⟩

/-! ## The end of the vhost -/

theorem destroySlots_spec (s : State) (n : ℕ) :
    (destroySlots n s).mem.blocks = s.mem.blocks ∧
      (destroySlots n s).mem.frees
        = s.mem.frees ++ (List.range n).filterMap (fun i ↦ (s.vhd.ringbuffer i).payload) ∧
      (destroySlots n s).sessions = s.sessions ∧
      (destroySlots n s).vhd.ringbufferHead = s.vhd.ringbufferHead ∧
      ∀ i, ((destroySlots n s).vhd.ringbuffer i).payload
        = if i < n then none else (s.vhd.ringbuffer i).payload := by
  induction n with
  | zero => simp [destroySlots]
  | succ n ih =>
      obtain ⟨hblocks, hfrees, hsessions, hhead, hslots⟩ := ih
      have hslot : ((destroySlots n s).vhd.ringbuffer n).payload
          = (s.vhd.ringbuffer n).payload := by
        simpa using hslots n
      simp only [destroySlots]
      split
      · next block hblock =>
          rw [hslot] at hblock
          refine ⟨hblocks, ?_, hsessions, hhead, fun i ↦ ?_⟩
          · simp [Ledger.free, hfrees, List.range_succ, hblock]
          · by_cases hi : i = n
            · subst hi
              simp
            · simp only [Function.update_of_ne hi, hslots i]
              have hiff : i < n ↔ i < n + 1 := by omega
              simp only [hiff]
      · next hnone =>
          rw [hslot] at hnone
          refine ⟨hblocks, by simp [hfrees, List.range_succ, hnone], hsessions, hhead, fun i ↦ ?_⟩
          by_cases hi : i = n
          · subst hi
            simp [hslot, hnone]
          · have hiff : i < n ↔ i < n + 1 := by omega
            simp only [hslots i, hiff]

/-- The payloads in the slots are the last ones allocated. -/
theorem RingOk.payload_iff (h : RingOk s) {i b : ℕ} (hi : i < maxMessageQueue) :
    (s.vhd.ringbuffer i).payload = some b ↔
      b < s.count ∧ s.count ≤ b + maxMessageQueue ∧ b % maxMessageQueue = i := by
  constructor
  · intro hb
    have hlt : i < s.count := by
      by_contra hge
      rw [h.unused i (by omega) hi] at hb
      cases hb
    -- the last payload for the slot
    have hpos := maxMessageQueue_pos
    have hmod := Nat.mod_lt (s.count - 1 - i) hpos
    have hdiv := Nat.div_add_mod (s.count - 1 - i) maxMessageQueue
    have hdvd : (i + maxMessageQueue * ((s.count - 1 - i) / maxMessageQueue)) % maxMessageQueue
        = i := by
      rw [Nat.add_mul_mod_self_left, Nat.mod_eq_of_lt hi]
    obtain ⟨data, -, hslot⟩ := h.slot
      (i + maxMessageQueue * ((s.count - 1 - i) / maxMessageQueue)) (by omega) (by omega)
    rw [hdvd] at hslot
    rw [hslot] at hb
    obtain rfl := Option.some.inj hb
    exact ⟨by omega, by omega, hdvd⟩
  · rintro ⟨hlt, hle, rfl⟩
    obtain ⟨data, -, hslot⟩ := h.slot b hlt hle
    rw [hslot]

theorem RingOk.perm_payloads (h : RingOk s) :
    (s.mem.frees ++ (List.range maxMessageQueue).filterMap
      (fun i ↦ (s.vhd.ringbuffer i).payload)).Perm (List.range s.count) := by
  have hmem : ∀ b, b ∈ (List.range maxMessageQueue).filterMap
      (fun i ↦ (s.vhd.ringbuffer i).payload) ↔ b < s.count ∧ s.count ≤ b + maxMessageQueue := by
    intro b
    rw [List.mem_filterMap]
    constructor
    · rintro ⟨i, hi, hb⟩
      obtain ⟨hlt, hle, -⟩ := (h.payload_iff (List.mem_range.mp hi)).mp hb
      exact ⟨hlt, hle⟩
    · rintro ⟨hlt, hle⟩
      have hi := Nat.mod_lt b maxMessageQueue_pos
      exact ⟨b % maxMessageQueue, List.mem_range.mpr hi, (h.payload_iff hi).mpr ⟨hlt, hle, rfl⟩⟩
  have hnodup : ((List.range maxMessageQueue).filterMap
      (fun i ↦ (s.vhd.ringbuffer i).payload)).Nodup := by
    rw [List.Nodup, List.pairwise_filterMap]
    refine List.nodup_range.imp_of_mem fun {i j} hi hj hij b hb b' hb' hbb ↦ hij ?_
    have hbi := ((h.payload_iff (List.mem_range.mp hi)).mp hb).2.2
    have hbj := ((h.payload_iff (List.mem_range.mp hj)).mp hb').2.2
    rw [← hbi, ← hbj, hbb]
  rw [h.frees, List.perm_ext_iff_of_nodup ?_ List.nodup_range]
  · intro b
    rw [List.mem_append, List.mem_range, hmem, List.mem_range]
    omega
  · refine List.nodup_append.mpr ⟨List.nodup_range, hnodup, fun x hx y hy hxy ↦ ?_⟩
    have hlt := List.mem_range.mp hx
    have hge := ((hmem y).mp hy).2
    omega

/-! ## Every run -/

/-- What holds of the payloads in every state: before the end the ring holds
the last ones, and afterwards none is left. -/
def Owned (s : State) : Prop :=
  if s.destroyed then s.mem.frees.Perm (List.range s.count) else Ok s

theorem ok_init : Ok .init where
  ring :=
    { head := by simp [State.init, State.count, Ledger.next, Ledger.empty]
      slot := by simp [State.init, State.count, Ledger.next, Ledger.empty]
      unused := by simp [State.init]
      frees := by simp [State.init, State.count, Ledger.next, Ledger.empty] }
  tail := by simp [State.init]

theorem step_eq_some_iff : step s e = some t ↔ Enabled s e ∧ callback s e = some t := by
  simp [step]

theorem Enabled.destroyed (he : Enabled s e) : s.destroyed = false := by
  cases e with
  | protocolDestroy => exact he
  | _ => exact he.1

/-- Every callback that libwebsockets may make runs to its end. -/
theorem callback_spec (hs : Ok s) (he : Enabled s e) :
    ∃ t, callback s e = some t ∧ Owned t := by
  have hdestroyed := he.destroyed
  cases e with
  | established a =>
      refine ⟨_, rfl, ?_⟩
      rw [Owned, established, State.setSession, hdestroyed, if_neg (by simp)]
      refine hs.congr rfl rfl fun b q hq ↦ ?_
      by_cases hb : b = a
      · subst hb
        obtain rfl : _ = q := by simpa using hq
        have hzero := Ring.lag_eq_zero_iff hs.ring.head_lt hs.ring.head_lt |>.mpr rfl
        exact ⟨hs.ring.head_lt, hzero.trans_le (Nat.zero_le _)⟩
      · exact (hs.tail b q (by simpa [hb] using hq)).congr rfl rfl rfl
  | receive a data =>
      obtain ⟨-, pss, ha, -⟩ := he
      obtain ⟨t, ht, hrecv⟩ := receive_spec hs ha data
      refine ⟨t, ht, ?_⟩
      rw [Owned, hrecv.destroyed, hdestroyed, if_neg (by simp)]
      exact hrecv.ok hs
  | serverWriteable a io =>
      obtain ⟨-, pss, ha, -⟩ := he
      obtain ⟨t, pss', k, ht, hdrained, -, -, hok⟩ := serverWriteable_spec hs ha io
      refine ⟨t, ht, ?_⟩
      have hd : t.destroyed = false := hdrained.destroyed.trans hdestroyed
      rw [Owned, hd, if_neg (by simp)]
      exact hok
  | closed a =>
      refine ⟨_, rfl, ?_⟩
      rw [Owned, hdestroyed, if_neg (by simp)]
      refine hs.congr rfl rfl fun b q hq ↦ ?_
      by_cases hb : b = a
      · simp [hb] at hq
      · exact (hs.tail b q (by simpa [hb] using hq)).congr rfl rfl rfl
  | protocolDestroy =>
      refine ⟨_, rfl, ?_⟩
      obtain ⟨hblocks, hfrees, -⟩ := destroySlots_spec s maxMessageQueue
      have hmem : (protocolDestroy s).mem = (destroySlots maxMessageQueue s).mem := by
        simp only [protocolDestroy]
      have hcount : (protocolDestroy s).count = s.count := by
        rw [State.count, Ledger.next, hmem, hblocks]
        rfl
      have hperm := hs.ring.perm_payloads
      rw [← hfrees, ← hmem, ← hcount] at hperm
      have hd : (protocolDestroy s).destroyed = true := by simp only [protocolDestroy]
      rw [Owned, if_pos hd]
      exact hperm

theorem owned_of_reachable (hs : mirrorServer.Reachable s) : Owned s := by
  obtain ⟨s₀, es, rfl, hrun⟩ := hs
  induction hrun with
  | nil => exact ok_init
  | snoc _ hstep ih =>
      obtain ⟨he, hcall⟩ := step_eq_some_iff.mp hstep
      rw [Owned, he.destroyed, if_neg (by simp)] at ih
      obtain ⟨t, ht, hok⟩ := callback_spec ih he
      obtain rfl := Option.some.inj (hcall.symm.trans ht)
      exact hok

theorem ok_of_reachable (hs : mirrorServer.Reachable s) (hd : s.destroyed = false) : Ok s := by
  have h := owned_of_reachable hs
  rwa [Owned, hd, if_neg (by simp)] at h

/-- Over every order of messages, writeable callbacks, write errors,
connections and closings, each callback reads only payloads that are
allocated, also for clients that have been overtaken, and ends. -/
theorem exists_mirror_callback (hs : mirrorServer.Reachable s) (he : Enabled s e) :
    ∃ t, callback s e = some t := by
  obtain ⟨t, ht, -⟩ := callback_spec (ok_of_reachable hs he.destroyed) he
  exact ⟨t, ht⟩

/-- A client is written to that has been overtaken. -/
theorem exists_mirror_callback_overtaken :
    ∃ s, mirrorServer.Run .init (slowReader ++ [.receive 3 [9], .receive 3 [10]]) s ∧
      ∃ t, callback s (.serverWriteable 1 fun _ ↦ .written false) = some t := by
  obtain ⟨s, hrun, he⟩ : ∃ s,
      mirrorServer.Run .init (slowReader ++ [.receive 3 [9], .receive 3 [10]]) s ∧
      Enabled s (.serverWriteable 1 fun _ ↦ .written false) :=
    Lts.exists_run_of_replay (by decide +kernel)
  exact ⟨s, hrun, exists_mirror_callback ⟨_, _, rfl, hrun⟩ he⟩

/-- No payload is freed twice.  While the vhost is there, all payloads but the
last 512 have been freed, in the order in which they came; its end frees the
rest. -/
theorem frees_of_reachable (hs : mirrorServer.Reachable s) :
    s.mem.frees.Nodup ∧
      (s.destroyed = false → s.mem.frees = List.range (s.count - maxMessageQueue)) ∧
      (s.destroyed = true → s.mem.frees.Perm (List.range s.count)) := by
  have h := owned_of_reachable hs
  cases hd : s.destroyed with
  | true =>
      rw [Owned, hd, if_pos rfl] at h
      exact ⟨h.nodup_iff.mpr List.nodup_range, by simp, fun _ ↦ h⟩
  | false =>
      rw [Owned, hd, if_neg (by simp)] at h
      refine ⟨?_, fun _ ↦ h.ring.frees, by simp⟩
      rw [h.ring.frees]
      exact List.nodup_range

/-- The ring has just come round. -/
theorem frees_slowReader :
    ∃ s, mirrorServer.Run .init (slowReader ++ [.receive 3 [9], .receive 3 [10]]) s ∧
      s.mem.frees.Nodup ∧
      (s.destroyed = false → s.mem.frees = List.range (s.count - maxMessageQueue)) ∧
      (s.destroyed = true → s.mem.frees.Perm (List.range s.count)) := by
  obtain ⟨s, hrun, -⟩ : ∃ s,
      mirrorServer.Run .init (slowReader ++ [.receive 3 [9], .receive 3 [10]]) s ∧ True :=
    Lts.exists_run_of_replay (by decide +kernel)
  exact ⟨s, hrun, frees_of_reachable ⟨_, _, rfl, hrun⟩⟩

end EsNotebook.Mirror
