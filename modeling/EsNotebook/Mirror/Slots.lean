import EsNotebook.Lib.Ring
import EsNotebook.Mirror.Callback

/-!
# The slots of the ring

The payloads are numbered in the order in which they were allocated.  A slot
holds the last payload of its number modulo the size of the ring, and the
payloads before the last ones that fit have been freed, each once.  A tail is
in a slot that has been filled unless it is the head, also when its client
has been overtaken, so no callback reads a freed payload.
-/

namespace EsNotebook.Mirror

open CMemory

variable {s t : State} {a b : Addr} {pss pss' : PerSessionData} {data : Bytes}

theorem advance_eq (i : ℕ) : advance i = Ring.advance maxMessageQueue i := rfl

theorem maxMessageQueue_pos : 0 < maxMessageQueue := by decide

/-- The masked difference is the number of slots ahead. -/
theorem behind_eq_lag {head tail : ℕ} (hhead : head < maxMessageQueue)
    (htail : tail < maxMessageQueue) :
    behind head tail = Ring.lag maxMessageQueue head tail := by
  simp only [maxMessageQueue] at *
  have hmask : behind head tail = (BitVec.ofNat 32 head - BitVec.ofNat 32 tail).toNat % 2 ^ 9 := by
    rw [behind, BitVec.toNat_and]
    exact Nat.and_two_pow_sub_one_eq_mod _ 9
  rw [hmask, BitVec.toNat_sub, BitVec.toNat_ofNat, BitVec.toNat_ofNat, Ring.lag]
  omega

namespace State

/-- How many payloads have been allocated: the messages accepted so far. -/
def count (s : State) : ℕ := s.mem.next

/-- How far the session is behind, as the callbacks see it. -/
def lag (s : State) (pss : PerSessionData) : ℕ :=
  Ring.lag maxMessageQueue s.vhd.ringbufferHead pss.ringbufferTail

/-- The messages that the session will still be sent. -/
def backlog (s : State) (pss : PerSessionData) : List Bytes :=
  s.mem.blocks.drop (s.count - s.lag pss)

end State

/-- The ring and the payloads of a vhost that has not been destroyed. -/
structure RingOk (s : State) : Prop where
  head : s.vhd.ringbufferHead = s.count % maxMessageQueue
  slot : ∀ b, b < s.count → s.count ≤ b + maxMessageQueue → ∃ data,
    s.mem.blocks[b]? = some data ∧
      s.vhd.ringbuffer (b % maxMessageQueue) = { payload := some b, len := data.length }
  unused : ∀ i, s.count ≤ i → i < maxMessageQueue → (s.vhd.ringbuffer i).payload = none
  frees : s.mem.frees = List.range (s.count - maxMessageQueue)

/-- The tail of a session. -/
structure TailOk (s : State) (pss : PerSessionData) : Prop where
  lt : pss.ringbufferTail < maxMessageQueue
  lag_le : s.lag pss ≤ s.count

/-- What holds of the ring and all sessions until the vhost is destroyed. -/
structure Ok (s : State) : Prop where
  ring : RingOk s
  tail : ∀ a pss, s.sessions a = some pss → TailOk s pss

theorem lag_congr (hvhd : t.vhd = s.vhd) (pss : PerSessionData) : t.lag pss = s.lag pss := by
  rw [State.lag, State.lag, hvhd]

theorem backlog_congr (hvhd : t.vhd = s.vhd) (hmem : t.mem = s.mem) (pss : PerSessionData) :
    t.backlog pss = s.backlog pss := by
  rw [State.backlog, State.backlog, State.count, State.count, hmem, lag_congr hvhd]

theorem TailOk.congr (h : TailOk s pss) (hvhd : t.vhd = s.vhd) (hmem : t.mem = s.mem)
    (htail : pss'.ringbufferTail = pss.ringbufferTail) : TailOk t pss' := by
  refine ⟨htail ▸ h.lt, ?_⟩
  rw [State.lag, State.count, htail, hvhd, hmem]
  exact h.lag_le

/-- Only the ring, the payloads and the tails matter. -/
theorem Ok.congr (h : Ok s) (hvhd : t.vhd = s.vhd) (hmem : t.mem = s.mem)
    (htail : ∀ b pss', t.sessions b = some pss' → TailOk t pss') : Ok t := by
  refine ⟨?_, htail⟩
  have hcount : t.count = s.count := by rw [State.count, State.count, hmem]
  refine ⟨?_, ?_, ?_, ?_⟩
  · rw [hvhd, hcount]
    exact h.ring.head
  · rw [hvhd, hcount, hmem]
    exact h.ring.slot
  · rw [hvhd, hcount]
    exact h.ring.unused
  · rw [hmem, hcount]
    exact h.ring.frees

namespace RingOk

theorem head_lt (h : RingOk s) : s.vhd.ringbufferHead < maxMessageQueue := by
  rw [h.head]
  exact Nat.mod_lt _ maxMessageQueue_pos

theorem behind_eq (h : RingOk s) (htail : TailOk s pss) :
    behind s.vhd.ringbufferHead pss.ringbufferTail = s.lag pss :=
  behind_eq_lag h.head_lt htail.lt

theorem lag_eq_zero_iff (h : RingOk s) (htail : TailOk s pss) :
    s.lag pss = 0 ↔ pss.ringbufferTail = s.vhd.ringbufferHead :=
  Ring.lag_eq_zero_iff h.head_lt htail.lt

theorem length_backlog (htail : TailOk s pss) : (s.backlog pss).length = s.lag pss := by
  have hlen : s.mem.blocks.length = s.count := rfl
  have hle := htail.lag_le
  rw [State.backlog, List.length_drop, hlen]
  omega

/-- The next message of a session that is behind is in the slot of its tail,
and the memory of the payload is still there. -/
theorem payloadOf_tail (h : RingOk s) (htail : TailOk s pss) (hne : s.lag pss ≠ 0) :
    ∃ data, s.payloadOf (s.vhd.ringbuffer pss.ringbufferTail) = some data ∧
      s.backlog pss = data :: s.mem.blocks.drop (s.count - s.lag pss + 1) := by
  have hle := htail.lag_le
  have hlt := Ring.lag_lt maxMessageQueue_pos s.vhd.ringbufferHead pss.ringbufferTail
  have hpos : (s.count - s.lag pss) % maxMessageQueue = pss.ringbufferTail := by
    have hmod := Ring.position_mod (n := s.count) htail.lt (by rw [← h.head]; exact hle)
    rwa [Ring.position, ← h.head] at hmod
  change s.lag pss < maxMessageQueue at hlt
  obtain ⟨data, hblock, hslot⟩ := h.slot (s.count - s.lag pss) (by omega) (by omega)
  obtain ⟨hlt', hget⟩ := List.getElem?_eq_some_iff.mp hblock
  refine ⟨data, ?_, ?_⟩
  · rw [← hpos, hslot]
    have hfree : s.count - s.lag pss ∉ s.mem.frees := by
      rw [h.frees, List.mem_range]
      omega
    simp [State.payloadOf, hfree, hblock]
  · rw [State.backlog, List.drop_eq_getElem_cons hlt', hget]

end RingOk

/-! ## A message is accepted -/

/-- The ring after a message has been put in. -/
def State.accept (s : State) (data : Bytes) : State :=
  let mem :=
    match (s.vhd.ringbuffer s.vhd.ringbufferHead).payload with
    | some old => s.mem.free old
    | none => s.mem
  { s with
    mem := mem.malloc data
    vhd :=
      { ringbuffer := Function.update s.vhd.ringbuffer s.vhd.ringbufferHead
          { payload := some mem.next, len := data.length }
        ringbufferHead := advance s.vhd.ringbufferHead } }

theorem receive_eq (ha : s.sessions a = some pss) :
    receive s a data = some (
      if behind s.vhd.ringbufferHead pss.ringbufferTail = maxMessageQueue - 1 then
        chokeOrDone s a pss true
      else chokeOrDone (s.accept data) a pss
        (behind (s.accept data).vhd.ringbufferHead pss.ringbufferTail = maxMessageQueue - 2)) := by
  simp only [receive, ha, Option.bind_eq_bind, Option.bind_some, apply_ite some]
  rfl

theorem accept_blocks (s : State) (data : Bytes) :
    (s.accept data).mem.blocks = s.mem.blocks ++ [data] := by
  simp only [State.accept, Ledger.malloc]
  split <;> rfl

theorem accept_count (s : State) (data : Bytes) : (s.accept data).count = s.count + 1 := by
  simp [State.count, Ledger.next, accept_blocks]

/-- What the slot of the head holds before it is used again. -/
theorem RingOk.payload_head (h : RingOk s) :
    (s.vhd.ringbuffer s.vhd.ringbufferHead).payload
      = if s.count < maxMessageQueue then none else some (s.count - maxMessageQueue) := by
  split
  · next hlt =>
      rw [h.head, Nat.mod_eq_of_lt hlt]
      exact h.unused _ le_rfl hlt
  · next hge =>
      obtain ⟨data, -, hslot⟩ := h.slot (s.count - maxMessageQueue)
        (by have := maxMessageQueue_pos; omega) (by omega)
      have hmod : (s.count - maxMessageQueue) % maxMessageQueue = s.vhd.ringbufferHead := by
        rw [h.head, ← Nat.mod_eq_sub_mod (by omega)]
      rw [← hmod, hslot]

theorem RingOk.accept (h : RingOk s) (data : Bytes) : RingOk (s.accept data) := by
  have hcount := accept_count s data
  have hpos := maxMessageQueue_pos
  have hring : (s.accept data).vhd.ringbuffer = Function.update s.vhd.ringbuffer
      s.vhd.ringbufferHead { payload := some s.count, len := data.length } := by
    simp only [State.accept]
    split <;> rfl
  refine ⟨?_, fun b hb hle ↦ ?_, fun i hi hlt ↦ ?_, ?_⟩
  · have hhead : (s.accept data).vhd.ringbufferHead = advance s.vhd.ringbufferHead := rfl
    rw [hhead, hcount, h.head, advance_eq, Ring.advance_mod hpos]
  · rw [hcount] at hb hle
    rw [accept_blocks, hring, h.head]
    rcases Nat.lt_succ_iff_lt_or_eq.mp hb with hlt | rfl
    · obtain ⟨data', hblock, hslot⟩ := h.slot b hlt (by omega)
      have hne : b % maxMessageQueue ≠ s.count % maxMessageQueue := Ring.mod_ne hlt (by omega)
      exact ⟨data', by rw [List.getElem?_append_left hlt, hblock],
        by rw [Function.update_of_ne hne, hslot]⟩
    · refine ⟨data, ?_, by rw [Function.update_self]⟩
      exact List.getElem?_concat_length
  · rw [hcount] at hi
    have hne : i ≠ s.vhd.ringbufferHead := by
      rw [h.head, Nat.mod_eq_of_lt (by omega)]
      omega
    rw [hring, Function.update_of_ne hne]
    exact h.unused i (by omega) hlt
  · rw [hcount]
    simp only [State.accept, Ledger.malloc, h.payload_head]
    split
    · next old hold =>
        have hge : ¬s.count < maxMessageQueue := by
          intro hlt
          simp [hlt] at hold
        obtain rfl : s.count - maxMessageQueue = old := by simpa [hge] using hold
        have hsucc : s.count + 1 - maxMessageQueue = s.count - maxMessageQueue + 1 := by omega
        rw [hsucc, List.range_succ, ← h.frees]
        rfl
    · next hnone =>
        have hlt : s.count < maxMessageQueue := by
          by_contra hge
          simp [hge] at hnone
        have hzero : s.count + 1 - maxMessageQueue = s.count - maxMessageQueue := by omega
        rw [hzero]
        exact h.frees

/-- A session's queue takes the message, or is emptied if it was full. -/
theorem backlog_accept (h : RingOk s) (htail : TailOk s pss) (data : Bytes) :
    TailOk (s.accept data) pss ∧
      (s.accept data).backlog pss = Ring.push maxMessageQueue (s.backlog pss) data := by
  have hlen := RingOk.length_backlog htail
  have hle := htail.lag_le
  have hlag : (s.accept data).lag pss
      = if s.lag pss = maxMessageQueue - 1 then 0 else s.lag pss + 1 :=
    Ring.lag_succ h.head_lt htail.lt
  have hblocks : s.mem.blocks.length = s.count := rfl
  refine ⟨⟨htail.lt, ?_⟩, ?_⟩
  · rw [hlag, accept_count]
    split <;> omega
  · rw [State.backlog, accept_blocks, accept_count, hlag, Ring.push, hlen]
    split
    · exact List.drop_of_length_le (by simp [hblocks])
    · have hsub : s.count + 1 - (s.lag pss + 1) = s.count - s.lag pss := by omega
      rw [hsub, List.drop_append_of_le_length (by omega)]
      rfl

/-! ## The loop over the messages of a session -/

/-- `t` is `s` after `k` turns of the loop that wrote, all for the session
`a`.  Other sessions may have been allowed to receive again. -/
structure Drained (s t : State) (a : Addr) (pss pss' : PerSessionData) (k : ℕ) : Prop where
  vhd : t.vhd = s.vhd
  mem : t.mem = s.mem
  destroyed : t.destroyed = s.destroyed
  self : t.sessions a = some pss'
  other : ∀ b, b ≠ a → ∃ allow, (allow = true → maxMessageQueue - 15 < s.lag pss) ∧
    t.sessions b = (s.sessions b).map fun pss ↦ { pss with rxFlow := pss.rxFlow || allow }
  tail : TailOk s pss'
  lag : s.lag pss' + k = s.lag pss
  sent : pss'.sent = pss.sent ++ (s.backlog pss).take k
  rxFlow : pss.rxFlow = true → pss'.rxFlow = true
  rxFlow_of : pss'.rxFlow = true → pss.rxFlow = true ∨ maxMessageQueue - 15 < s.lag pss
  -- the turn that leaves 497 messages allows everyone to receive
  allow : maxMessageQueue - 15 < s.lag pss → s.lag pss' ≤ maxMessageQueue - 15 → pss'.rxFlow = true

theorem Drained.refl (ha : s.sessions a = some pss) (htail : TailOk s pss) :
    Drained s s a pss pss 0 where
  vhd := rfl
  mem := rfl
  destroyed := rfl
  self := ha
  other := fun b _ ↦ ⟨false, by simp, by cases s.sessions b <;> simp⟩
  tail := htail
  lag := rfl
  sent := by simp
  rxFlow := id
  rxFlow_of := .inl
  allow := fun h h' ↦ absurd h (by omega)

theorem Drained.backlog {k : ℕ} (h : Drained s t a pss pss' k) (htail : TailOk s pss) :
    s.backlog pss' = (s.backlog pss).drop k := by
  have hlag := h.lag
  have hle := htail.lag_le
  have heq : s.count - s.lag pss' = s.count - s.lag pss + k := by omega
  rw [State.backlog, State.backlog, List.drop_drop, heq]

theorem Drained.trans {u : State} {pss'' : PerSessionData} {k m : ℕ}
    (h : Drained s t a pss pss' k) (h' : Drained t u a pss' pss'' m) (htail : TailOk s pss) :
    Drained s u a pss pss'' (k + m) where
  vhd := h'.vhd.trans h.vhd
  mem := h'.mem.trans h.mem
  destroyed := h'.destroyed.trans h.destroyed
  self := h'.self
  other := by
    intro b hb
    obtain ⟨x, hxlag, hx⟩ := h.other b hb
    obtain ⟨y, hylag, hy⟩ := h'.other b hb
    refine ⟨x || y, fun hor ↦ ?_, ?_⟩
    · rcases (Bool.or_eq_true _ _).mp hor with hx | hy
      · exact hxlag hx
      · have hlt := hylag hy
        have hk := h.lag
        rw [lag_congr h.vhd] at hlt
        omega
    · rw [hy, hx]
      cases s.sessions b <;> simp [Bool.or_assoc]
  tail := h'.tail.congr h.vhd.symm h.mem.symm rfl
  lag := by
    have hm := h'.lag
    rw [lag_congr h.vhd, lag_congr h.vhd] at hm
    have hk := h.lag
    omega
  sent := by
    rw [h'.sent, h.sent, backlog_congr h.vhd h.mem, h.backlog htail, List.append_assoc, ← List.take_add]
  rxFlow := h'.rxFlow ∘ h.rxFlow
  rxFlow_of := by
    intro hrx
    rcases h'.rxFlow_of hrx with hrx' | hlt
    · exact h.rxFlow_of hrx'
    · have hk := h.lag
      rw [lag_congr h.vhd] at hlt
      exact .inr (by omega)
  allow := by
    intro hlt hle
    by_cases hmid : s.lag pss' ≤ maxMessageQueue - 15
    · exact h'.rxFlow (h.allow hlt hmid)
    · apply h'.allow
      · rw [lag_congr h.vhd]
        omega
      · rwa [lag_congr h.vhd]

theorem Drained.ok {k : ℕ} (h : Drained s t a pss pss' k) (hs : Ok s) : Ok t := by
  refine hs.congr h.vhd h.mem fun b pss₁ hb ↦ ?_
  by_cases hba : b = a
  · subst hba
    obtain rfl := Option.some.inj (hb.symm.trans h.self)
    exact h.tail.congr h.vhd h.mem rfl
  · obtain ⟨allow, -, hallow⟩ := h.other b hba
    rw [hallow, Option.map_eq_some_iff] at hb
    obtain ⟨pss₀, hpss₀, rfl⟩ := hb
    exact (hs.tail b pss₀ hpss₀).congr h.vhd h.mem rfl

/-- One turn that writes. -/
theorem turn_written (hs : Ok s) (ha : s.sessions a = some pss) (hne : s.lag pss ≠ 0)
    (choked : Bool) :
    ∃ t pss', turn s a pss (.written choked) = some (t, !choked) ∧ Drained s t a pss pss' 1 ∧
      (choked = true → pss'.writable = true) ∧ pss'.closing = pss.closing := by
  have htail := hs.tail a pss ha
  obtain ⟨data, hdata, hbacklog⟩ := hs.ring.payloadOf_tail htail hne
  set pss₁ : PerSessionData :=
    { pss with ringbufferTail := advance pss.ringbufferTail, sent := pss.sent ++ [data] }
  have hlag : s.lag pss₁ = s.lag pss - 1 := Ring.lag_advance hs.ring.head_lt htail.lt hne
  have htail₁ : TailOk s pss₁ := by
    refine ⟨Ring.advance_lt maxMessageQueue_pos htail.lt, ?_⟩
    have hle := htail.lag_le
    omega
  have hbehind := hs.ring.behind_eq htail₁
  set allow : Bool := decide (s.lag pss₁ = maxMessageQueue - 15)
  set pss₂ : PerSessionData :=
    { pss₁ with rxFlow := pss.rxFlow || allow, writable := pss.writable || choked }
  set s₁ : State := s.setSession a pss₁
  set s₂ : State := if allow then s₁.rxFlowAllowAll else s₁
  have hself : s₂.sessions a = some { pss₁ with rxFlow := pss.rxFlow || allow } := by
    cases hallow : allow <;> simp [s₂, s₁, hallow, State.rxFlowAllowAll, State.mapSessions,
      State.setSession, pss₁]
  have hother : ∀ b, b ≠ a → s₂.sessions b =
      (s.sessions b).map fun pss ↦ { pss with rxFlow := pss.rxFlow || allow } := by
    intro b hb
    cases hallow : allow <;> cases hsb : s.sessions b <;>
      simp [s₂, s₁, hallow, State.rxFlowAllowAll, State.mapSessions, State.setSession, hb, hsb]
  have hs₂ : s₂.vhd = s.vhd ∧ s₂.mem = s.mem ∧ s₂.destroyed = s.destroyed := by
    simp only [s₂]
    split <;> exact ⟨rfl, rfl, rfl⟩
  have hdrained : ∀ t : State, t.vhd = s.vhd → t.mem = s.mem → t.destroyed = s.destroyed →
      t.sessions a = some pss₂ → (∀ b, b ≠ a → t.sessions b = s₂.sessions b) →
      Drained s t a pss pss₂ 1 := by
    intro t hv hm hd ht hto
    have hallowed : allow = true → maxMessageQueue - 15 < s.lag pss := by
      intro hall
      have heq : s.lag pss₁ = maxMessageQueue - 15 := by simpa [allow] using hall
      omega
    refine ⟨hv, hm, hd, ht, fun b hb ↦ ⟨allow, hallowed, (hto b hb).trans (hother b hb)⟩,
      ⟨htail₁.lt, htail₁.lag_le⟩, ?_, ?_, ?_, ?_, ?_⟩
    · change s.lag pss₁ + 1 = s.lag pss
      omega
    · rw [hbacklog]
      rfl
    · intro hrx
      simp [pss₂, hrx]
    · intro hrx
      rcases (Bool.or_eq_true _ _).mp hrx with hrx | hall
      · exact .inl hrx
      · exact .inr (hallowed hall)
    · intro hlt hle
      change s.lag pss₁ ≤ _ at hle
      have hall : allow = true := by
        simp only [allow, decide_eq_true_eq]
        omega
      simp [pss₂, hall]
  have hturn : turn s a pss (.written choked) = if choked then
      (s₂.sessions a).bind fun pss ↦ some (s₂.setSession a { pss with writable := true }, false)
      else some (s₂, true) := by
    have hs₂eq : s₂ = if behind s₁.vhd.ringbufferHead pss₁.ringbufferTail = maxMessageQueue - 15
        then s₁.rxFlowAllowAll else s₁ := by
      have hvhd : s₁.vhd = s.vhd := rfl
      simp only [s₂, allow, decide_eq_true_eq, hvhd, hbehind]
    simp only [turn, hdata, Option.bind_eq_bind, Option.bind_some]
    rw [hs₂eq]
  cases choked with
  | true =>
      refine ⟨s₂.setSession a pss₂, pss₂, ?_, hdrained _ hs₂.1 hs₂.2.1 hs₂.2.2
        (by simp [State.setSession]) (fun b hb ↦ by simp [State.setSession, hb]),
        fun _ ↦ by simp [pss₂], rfl⟩
      rw [hturn, hself]
      simp [pss₂]
  | false =>
      refine ⟨s₂, pss₂, by simpa using hturn, hdrained _ hs₂.1 hs₂.2.1 hs₂.2.2
        (by simpa [pss₂] using hself) (fun _ _ ↦ rfl), by simp, rfl⟩

/-- The loop ends within as many turns as there are slots: the session has
been sent everything, or its pipe is choked and it waits for the next
callback, or a write has failed. -/
theorem drain_spec (io : ℕ → WriteResult) {fuel : ℕ} (i : ℕ) (hs : Ok s)
    (ha : s.sessions a = some pss) (hfuel : s.lag pss < fuel) :
    ∃ t pss' k, drain a io fuel i s = some t ∧ Drained s t a pss pss' k ∧
      (s.lag pss' = 0 ∨ pss'.writable = true ∨ pss'.closing = true) ∧
      (pss.closing = true → pss'.closing = true) := by
  induction fuel generalizing s pss i with
  | zero => omega
  | succ fuel ih =>
      have htail := hs.tail a pss ha
      by_cases hzero : s.lag pss = 0
      · have heq := (hs.ring.lag_eq_zero_iff htail).mp hzero
        exact ⟨s, pss, 0, by simp [drain, ha, heq], .refl ha htail, .inl hzero, id⟩
      · have hne : pss.ringbufferTail ≠ s.vhd.ringbufferHead :=
          fun heq ↦ hzero ((hs.ring.lag_eq_zero_iff htail).mpr heq)
        cases hio : io i with
        | error =>
            obtain ⟨data, hdata, -⟩ := hs.ring.payloadOf_tail htail hzero
            refine ⟨s.setSession a { pss with closing := true }, { pss with closing := true }, 0,
              by simp [drain, ha, hne, hio, turn, hdata], ?_, .inr (.inr rfl), fun _ ↦ rfl⟩
            refine ⟨rfl, rfl, rfl, by simp [State.setSession], fun b hb ↦ ⟨false, by simp, ?_⟩,
              ⟨htail.lt, htail.lag_le⟩, rfl, by simp, id, .inl, fun h h' ↦ absurd h (Nat.not_lt.mpr h')⟩
            cases hsb : s.sessions b <;> simp [State.setSession, hb, hsb]
        | written choked =>
            obtain ⟨t, pss', hturn, hdrained, hwritable, hclosing⟩ := turn_written hs ha hzero choked
            cases choked with
            | true =>
                exact ⟨t, pss', 1, by simp [drain, ha, hne, hio, hturn], hdrained,
                  .inr (.inl (hwritable rfl)), fun hc ↦ hclosing.trans hc⟩
            | false =>
                have hlag := hdrained.lag
                obtain ⟨u, pss'', k, hdrain, hdrained', hend, hclosing'⟩ :=
                  ih (i + 1) (hdrained.ok hs) hdrained.self (by rw [lag_congr hdrained.vhd]; omega)
                refine ⟨u, pss'', 1 + k, by simp [drain, ha, hne, hio, hturn, hdrain],
                  hdrained.trans hdrained' htail, ?_, fun hc ↦ hclosing' (hclosing.trans hc)⟩
                rwa [lag_congr hdrained.vhd] at hend

end EsNotebook.Mirror
