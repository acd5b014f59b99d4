import EsNotebook.Mirror.Memory

/-!
# What each client is sent

To the clients the ring is one queue for each of them.  Every accepted message
goes to the end of all queues; a queue that has no room is emptied instead,
and with it 512 messages are lost to that client.  Only the sender's own queue
makes it drop a message.
-/

namespace EsNotebook.Mirror

open CMemory

/-! ## Broadcasting through queues -/

/-- What a client has been sent and what is queued for it. -/
structure Client where
  queue : List Bytes
  sent : List Bytes

structure QueueState where
  log : List Bytes
  client : Addr → Option Client

namespace QueueState

def init : QueueState := { log := [], client := fun _ ↦ none }

/-- All clients take a message. -/
def broadcast (q : QueueState) (data : Bytes) : QueueState :=
  { log := q.log ++ [data]
    client := fun b ↦ (q.client b).map fun c ↦
      { c with queue := Ring.push maxMessageQueue c.queue data } }

def setClient (q : QueueState) (a : Addr) (c : Option Client) : QueueState :=
  { q with client := Function.update q.client a c }

end QueueState

inductive QueueStep (q : QueueState) : Event → QueueState → Prop
  | established {a : Addr} :
      q.client a = none → QueueStep q (.established a) (q.setClient a (some ⟨[], []⟩))
  | accept {a : Addr} {c : Client} {data : Bytes} :
      q.client a = some c → c.queue.length ≠ maxMessageQueue - 1 →
      QueueStep q (.receive a data) (q.broadcast data)
  | drop {a : Addr} {c : Client} {data : Bytes} :
      q.client a = some c → c.queue.length = maxMessageQueue - 1 → QueueStep q (.receive a data) q
  | write {a : Addr} {c : Client} {io : ℕ → WriteResult} (k : ℕ) :
      q.client a = some c → QueueStep q (.serverWriteable a io)
        (q.setClient a (some ⟨c.queue.drop k, c.sent ++ c.queue.take k⟩))
  | closed {a : Addr} : QueueStep q (.closed a) (q.setClient a none)
  | protocolDestroy : QueueStep q .protocolDestroy q

def queueServer : Lts QueueState Event where
  init q := q = .init
  step := QueueStep

/-- The message overtakes the client `a`: another client, whose own queue has
room, sends it while the queue of `a` is full. -/
def Overtakes (q : QueueState) (a : Addr) : Event → Prop
  | .receive b _ => (∃ c ∈ q.client a, c.queue.length = maxMessageQueue - 1) ∧
      ∃ c ∈ q.client b, c.queue.length ≠ maxMessageQueue - 1
  | _ => False

theorem not_overtakes_own {q : QueueState} {a : Addr} {data : Bytes} :
    ¬Overtakes q a (.receive a data) := by
  rintro ⟨⟨c, hc, hfull⟩, c', hc', hroom⟩
  obtain rfl := Option.some.inj (hc.symm.trans hc')
  exact hroom hfull

section Queues

variable {q r : QueueState} {a b : Addr} {c c' : Client} {e : Event} {es : List Event}

/-- How the queue and the sent messages of a client follow the log: what has
been sent after `pre` and what is queued is a selection from it, and all of
it if `p` holds. -/
structure Follows (q r : QueueState) (c c' : Client) (new : List Bytes) (p : Prop) : Prop where
  log : r.log = q.log ++ new
  sublist : ∀ {pre rest log : List Bytes}, c.sent = pre ++ rest → (rest ++ c.queue).Sublist log →
    ∃ rest', c'.sent = pre ++ rest' ∧ (rest' ++ c'.queue).Sublist (log ++ new)
  eq : p → c'.sent ++ c'.queue = c.sent ++ c.queue ++ new

theorem Follows.of_same {p : Prop} (hlog : r.log = q.log) : Follows q r c c [] p where
  log := by simp [hlog]
  sublist := fun {pre rest log} hsent hsub ↦ ⟨rest, hsent, by simpa using hsub⟩
  eq := by simp

theorem QueueStep.follows (hstep : QueueStep q e r) (ha : q.client a = some c)
    (hne : e ≠ .closed a) :
    ∃ c' new, r.client a = some c' ∧ Follows q r c c' new (¬Overtakes q a e) := by
  cases hstep with
  | established hb =>
      rename_i b
      have hba : a ≠ b := by
        rintro rfl
        cases ha.symm.trans hb
      exact ⟨c, [], by simpa [QueueState.setClient, hba] using ha, .of_same rfl⟩
  | drop => exact ⟨c, [], ha, .of_same rfl⟩
  | protocolDestroy => exact ⟨c, [], ha, .of_same rfl⟩
  | closed =>
      rename_i b
      have hba : a ≠ b := by
        rintro rfl
        exact hne rfl
      exact ⟨c, [], by simpa [QueueState.setClient, hba] using ha, .of_same rfl⟩
  | @accept b cb data hb hroom =>
      refine ⟨{ c with queue := Ring.push maxMessageQueue c.queue data }, [data],
        by simp [QueueState.broadcast, ha], rfl,
        fun {pre rest log} hsent hsub ↦ ⟨rest, hsent, Ring.sublist_push hsub⟩, fun hover ↦ ?_⟩
      have hfull : c.queue.length ≠ maxMessageQueue - 1 :=
        fun hfull ↦ hover ⟨⟨c, ha, hfull⟩, cb, hb, hroom⟩
      simp [Ring.push_of_length_ne hfull]
  | @write b cb io k hb =>
      by_cases hba : a = b
      · subst hba
        obtain rfl := Option.some.inj (hb.symm.trans ha)
        refine ⟨⟨cb.queue.drop k, cb.sent ++ cb.queue.take k⟩, [],
          by simp [QueueState.setClient], by simp [QueueState.setClient], ?_, by simp⟩
        intro pre rest log hsent hsub
        exact ⟨rest ++ cb.queue.take k, by simp [hsent], by simpa using hsub⟩
      · exact ⟨c, [], by simpa [QueueState.setClient, hba] using ha, .of_same rfl⟩

/-- What a client has been sent and what is queued for it, over a run. -/
theorem follows_run {C : QueueState → Event → Prop} (hC : ∀ q e, C q e → e ≠ .closed a)
    (hrun : (queueServer.restrict C).Run q es r) (ha : q.client a = some c) :
    ∃ c' new, r.client a = some c' ∧
      Follows q r c c' new (∀ q e, C q e → ¬Overtakes q a e) := by
  induction hrun with
  | nil => exact ⟨c, [], ha, .of_same rfl⟩
  | @snoc es u v e hprev hstep ih =>
      obtain ⟨c₁, new₁, ha₁, h₁⟩ := ih
      obtain ⟨c₂, new₂, ha₂, h₂⟩ := hstep.1.follows ha₁ (hC u e hstep.2)
      refine ⟨c₂, new₁ ++ new₂, ha₂, ?_, fun {pre rest log} hsent hsub ↦ ?_, fun hexact ↦ ?_⟩
      · rw [h₂.log, h₁.log, List.append_assoc]
      · obtain ⟨rest₁, hsent₁, hsub₁⟩ := h₁.sublist hsent hsub
        rw [← List.append_assoc]
        exact h₂.sublist hsent₁ hsub₁
      · rw [h₂.eq (hexact u e hstep.2), h₁.eq hexact, List.append_assoc]

end Queues

/-! ## The ring refines the queues -/

variable {s s₁ t : State} {a b : Addr} {pss pss' : PerSessionData} {e : Event} {es : List Event}

/-- The client that a session stands for. -/
def State.toClient (s : State) (pss : PerSessionData) : Client := ⟨s.backlog pss, pss.sent⟩

/-- The queues that the ring stands for. -/
def State.toQueues (s : State) : QueueState :=
  { log := s.mem.blocks
    client := fun a ↦ (s.sessions a).map s.toClient }

theorem toQueues_client (ha : s.sessions a = some pss) :
    s.toQueues.client a = some (s.toClient pss) := by
  simp [State.toQueues, ha]

theorem toClient_congr (hvhd : t.vhd = s.vhd) (hmem : t.mem = s.mem)
    (htail : pss'.ringbufferTail = pss.ringbufferTail) (hsent : pss'.sent = pss.sent) :
    t.toClient pss' = s.toClient pss := by
  simp only [State.toClient, State.backlog, State.lag, State.count, hvhd, hmem, htail, hsent]

/-- A callback for one session that leaves the others' queues alone. -/
theorem toQueues_eq_setClient {c : Option Client} (hblocks : t.mem.blocks = s.mem.blocks)
    (ha : (t.sessions a).map t.toClient = c)
    (hother : ∀ b, b ≠ a → (t.sessions b).map t.toClient = (s.sessions b).map s.toClient) :
    t.toQueues = s.toQueues.setClient a c := by
  simp only [State.toQueues, QueueState.setClient, QueueState.mk.injEq]
  refine ⟨hblocks, funext fun b ↦ ?_⟩
  by_cases hb : b = a
  · subst hb
    simp [ha]
  · simp [hb, hother b hb]

theorem queueStep_established (hs : Ok s) (hnone : s.sessions a = none) :
    QueueStep s.toQueues (.established a) (established s a).toQueues := by
  have hq : s.toQueues.client a = none := by simp [State.toQueues, hnone]
  have heq : (established s a).toQueues = s.toQueues.setClient a (some ⟨[], []⟩) := by
    refine toQueues_eq_setClient rfl ?_ fun b hb ↦ ?_
    · have hzero := (Ring.lag_eq_zero_iff hs.ring.head_lt hs.ring.head_lt).mpr rfl
      have hblocks : s.mem.blocks.length = s.count := rfl
      have hnil : s.mem.blocks.drop (s.count - 0) = [] := List.drop_of_length_le hblocks.le
      rw [← hzero] at hnil
      simp only [established, State.setSession, Function.update_self, Option.map_some,
        Option.some.injEq]
      exact congrArg (Client.mk · []) hnil
    · simp only [established, State.setSession, Function.update_of_ne hb]
      rfl
  rw [heq]
  exact .established hq

theorem queueStep_receive (hs : Ok s) (ha : s.sessions a = some pss) {data : Bytes}
    (hrecv : Received s t a pss data) : QueueStep s.toQueues (.receive a data) t.toQueues := by
  have hlen := RingOk.length_backlog (hs.tail a pss ha)
  have hmem := hrecv.mem
  rw [State.received] at hmem
  have hclient : ∀ b, t.toQueues.client b = (s.sessions b).map fun q ↦
      ⟨if s.lag pss = maxMessageQueue - 1 then s.backlog q
        else Ring.push maxMessageQueue (s.backlog q) data, q.sent⟩ := by
    intro b
    simp only [State.toQueues, hrecv.sessions b]
    cases hq : s.sessions b with
    | none => rfl
    | some q =>
        simp only [Option.map_some, State.toClient, Option.some.injEq, Client.mk.injEq]
        exact ⟨(hrecv.backlog hs hq _).2, rfl⟩
  by_cases hfull : s.lag pss = maxMessageQueue - 1
  · simp only [hfull, if_true] at hmem hclient
    have heq : t.toQueues = s.toQueues := by
      have hlog : t.toQueues.log = s.toQueues.log := congrArg Ledger.blocks hmem
      have hfun : t.toQueues.client = s.toQueues.client := funext hclient
      cases ht : t.toQueues
      cases hs' : s.toQueues
      simp_all
    rw [heq]
    exact .drop (toQueues_client ha) (hlen.trans hfull)
  · simp only [hfull, if_false] at hmem hclient
    have heq : t.toQueues = s.toQueues.broadcast data := by
      have hlog : t.toQueues.log = s.toQueues.log ++ [data] := by
        have hblocks : t.mem.blocks = (s.accept data).mem.blocks := congrArg Ledger.blocks hmem
        exact hblocks.trans (accept_blocks s data)
      have hfun : t.toQueues.client = (s.toQueues.broadcast data).client := by
        refine funext fun b ↦ (hclient b).trans ?_
        simp [QueueState.broadcast, State.toQueues, State.toClient, Function.comp_def]
      cases ht : t.toQueues
      simp_all [QueueState.broadcast]
    rw [heq]
    exact .accept (toQueues_client ha) fun h ↦ hfull (hlen.symm.trans h)

theorem queueStep_serverWriteable (hs : Ok s) (ha : s.sessions a = some pss)
    {io : ℕ → WriteResult} (ht : serverWriteable s a io = some t) :
    QueueStep s.toQueues (.serverWriteable a io) t.toQueues := by
  obtain ⟨t', pss', k, ht', hdrained, -, -, -⟩ := serverWriteable_spec hs ha io
  obtain rfl := Option.some.inj (ht.symm.trans ht')
  have htail : TailOk (s.setSession a { pss with writable := false })
      { pss with writable := false } := (hs.tail a pss ha).congr rfl rfl rfl
  have hvhd : t.vhd = s.vhd := hdrained.vhd
  have hmem : t.mem = s.mem := hdrained.mem
  have hbacklog : s.backlog pss' = (s.backlog pss).drop k := hdrained.backlog htail
  have hsent : pss'.sent = pss.sent ++ (s.backlog pss).take k := hdrained.sent
  have heq : t.toQueues = s.toQueues.setClient a
      (some ⟨(s.toClient pss).queue.drop k, (s.toClient pss).sent ++ (s.toClient pss).queue.take k⟩) := by
    refine toQueues_eq_setClient (congrArg Ledger.blocks hmem) ?_ fun b hb ↦ ?_
    · rw [hdrained.self, Option.map_some, State.toClient, backlog_congr hvhd hmem, hbacklog, hsent]
      rfl
    · obtain ⟨allow, -, hallow⟩ := hdrained.other b hb
      have hsame : (s.setSession a { pss with writable := false }).sessions b = s.sessions b := by
        simp [State.setSession, hb]
      rw [hallow, hsame, Option.map_map]
      cases s.sessions b with
      | none => rfl
      | some q => exact congrArg some (toClient_congr hvhd hmem rfl rfl)
  rw [heq]
  exact .write k (toQueues_client ha)

theorem queueStep_of_step (hs : Ok s) (hstep : step s e = some t) :
    QueueStep s.toQueues e t.toQueues := by
  obtain ⟨he, hcall⟩ := step_eq_some_iff.mp hstep
  cases e with
  | established a =>
      obtain rfl := Option.some.inj hcall
      exact queueStep_established hs he.2
  | receive a data =>
      obtain ⟨-, pss, ha, -⟩ := he
      obtain ⟨t', ht', hrecv⟩ := receive_spec hs ha data
      obtain rfl := Option.some.inj (hcall.symm.trans ht')
      exact queueStep_receive hs ha hrecv
  | serverWriteable a io =>
      obtain ⟨-, pss, ha, -⟩ := he
      exact queueStep_serverWriteable hs ha hcall
  | closed a =>
      obtain rfl := Option.some.inj hcall
      have heq : State.toQueues { s with sessions := Function.update s.sessions a none }
          = s.toQueues.setClient a none := by
        refine toQueues_eq_setClient rfl (by simp) fun b hb ↦ ?_
        simp only [Function.update_of_ne hb]
        rfl
      rw [heq]
      exact .closed
  | protocolDestroy =>
      obtain rfl := Option.some.inj hcall
      obtain ⟨hblocks, -, hsessions, hhead, -⟩ := destroySlots_spec s maxMessageQueue
      have hclient : (protocolDestroy s).toClient = s.toClient := by
        funext pss
        simp only [State.toClient, State.backlog, State.lag, State.count, Ledger.next,
          protocolDestroy, hblocks, hhead]
      have heq : (protocolDestroy s).toQueues = s.toQueues := by
        simp only [State.toQueues, hclient]
        simp only [protocolDestroy, hblocks, hsessions]
      rw [heq]
      exact .protocolDestroy

/-- Every run of the ring is a run of the queues with the same events. -/
theorem queues_run {C : QueueState → Event → Prop} (hs : mirrorServer.Reachable s)
    (hrun : (mirrorServer.restrict fun u e ↦ C u.toQueues e).Run s es t) :
    (queueServer.restrict C).Run s.toQueues es t.toQueues := by
  induction hrun with
  | nil => exact .nil
  | snoc hprev hstep ih =>
      have hu := hs.run hprev.of_restrict
      have he := (step_eq_some_iff.mp hstep.1).1
      exact ih.snoc ⟨queueStep_of_step (ok_of_reachable hu he.destroyed) hstep.1, hstep.2⟩

/-! ## What a connection gets -/

/-- The messages that a new connection has been sent and those queued for it,
over a run that keeps to `C` and does not close it. -/
theorem exists_client_of_run {C : QueueState → Event → Prop} (hs : mirrorServer.Reachable s)
    (hjoin : step s (.established a) = some s₁) (hC : ∀ q e, C q e → e ≠ .closed a)
    (hrun : (mirrorServer.restrict fun u e ↦ C u.toQueues e).Run s₁ es t) :
    ∃ pss new, t.sessions a = some pss ∧ t.mem.blocks = s.mem.blocks ++ new ∧
      (pss.sent ++ t.backlog pss).Sublist new ∧
      ((∀ q e, C q e → ¬Overtakes q a e) → pss.sent ++ t.backlog pss = new) := by
  have hs₁ : mirrorServer.Reachable s₁ := hs.step hjoin
  have he := (step_eq_some_iff.mp hjoin).1
  have hqueue := queueStep_of_step (ok_of_reachable hs he.destroyed) hjoin
  obtain rfl : established s a = s₁ := Option.some.inj (step_eq_some_iff.mp hjoin).2
  have ha : (established s a).toQueues.client a = some ⟨[], []⟩ := by
    generalize (established s a).toQueues = r at hqueue
    cases hqueue
    simp [QueueState.setClient]
  obtain ⟨c, new, hc, hfollows⟩ := follows_run hC (queues_run hs₁ hrun) ha
  obtain ⟨pss, hpss, rfl⟩ := Option.map_eq_some_iff.mp hc
  refine ⟨pss, new, hpss, hfollows.log, ?_, fun hover ↦ ?_⟩
  · obtain ⟨rest, hsent, hsub⟩ :=
      hfollows.sublist (List.append_nil []).symm (List.Sublist.refl [])
    have hrest : pss.sent = rest := by simpa [State.toClient] using hsent
    simpa [State.toClient, hrest] using hsub
  · have heq := hfollows.eq hover
    simpa [State.toClient] using heq

/-- Whatever the other clients do, a client is sent messages that were
accepted after it came, each at most once and in their order. -/
theorem sent_sublist (hs : mirrorServer.Reachable s) (hjoin : step s (.established a) = some s₁)
    (hrun : mirrorServer.Run s₁ es t) (hclosed : ∀ e ∈ es, e ≠ .closed a) :
    ∃ pss new, t.sessions a = some pss ∧ t.mem.blocks = s.mem.blocks ++ new ∧
      (pss.sent ++ t.backlog pss).Sublist new := by
  obtain ⟨pss, new, hpss, hblocks, hsub, -⟩ :=
    exists_client_of_run (C := fun _ e ↦ e ≠ .closed a) hs hjoin (fun _ _ h ↦ h)
      (hrun.restrict fun e he _ ↦ hclosed e he)
  exact ⟨pss, new, hpss, hblocks, hsub⟩

/-- The client 1 comes, then another one, whose message it is sent. -/
theorem sent_sublist_two_clients :
    ∃ s₁ t pss new, mirrorServer.Run .init [.established 1] s₁ ∧
      mirrorServer.Run s₁ [.established 2, .receive 2 [7],
        .serverWriteable 1 fun _ ↦ .written false] t ∧
      t.sessions 1 = some pss ∧ t.mem.blocks = State.init.mem.blocks ++ new ∧
      (pss.sent ++ t.backlog pss).Sublist new := by
  obtain ⟨s₁, t, hrun₀, -, hrun⟩ : ∃ s₁ t, mirrorServer.Run .init [.established 1] s₁ ∧ True ∧
      mirrorServer.Run s₁ [.established 2, .receive 2 [7],
        .serverWriteable 1 fun _ ↦ .written false] t :=
    Lts.exists_runs_of_replay (by decide +kernel)
  have hjoin : step .init (.established 1) = some s₁ := by
    simpa using Lts.run_ofStep_iff.mp hrun₀
  obtain ⟨pss, new, h⟩ := sent_sublist (.of_init rfl) hjoin hrun (by simp)
  exact ⟨s₁, t, pss, new, hrun₀, hrun, h⟩

/-- A client that no message overtakes is sent every message accepted since it
came, in order: those sent and those queued for it make up the whole log. -/
theorem sent_eq_of_not_overtaken (hs : mirrorServer.Reachable s)
    (hjoin : step s (.established a) = some s₁)
    (hrun : (mirrorServer.restrict fun u e ↦
      e ≠ .closed a ∧ ¬Overtakes u.toQueues a e).Run s₁ es t) :
    ∃ pss, t.sessions a = some pss ∧
      t.mem.blocks = s.mem.blocks ++ (pss.sent ++ t.backlog pss) := by
  obtain ⟨pss, new, hpss, hblocks, -, heq⟩ :=
    exists_client_of_run (C := fun q e ↦ e ≠ .closed a ∧ ¬Overtakes q a e) hs hjoin
      (fun _ _ h ↦ h.1) hrun
  exact ⟨pss, hpss, by rw [heq fun _ _ h ↦ h.2, hblocks]⟩

/-- The client 1 sends a message, is sent it, and then another client comes. -/
theorem sent_eq_of_not_overtaken_own :
    ∃ s₁ t pss, mirrorServer.Run .init [.established 1] s₁ ∧
      mirrorServer.Run s₁ [.receive 1 [7], .serverWriteable 1 fun _ ↦ .written false,
        .established 2] t ∧
      t.sessions 1 = some pss ∧
      t.mem.blocks = State.init.mem.blocks ++ (pss.sent ++ t.backlog pss) := by
  obtain ⟨s₁, t, hrun₀, -, hrun⟩ : ∃ s₁ t, mirrorServer.Run .init [.established 1] s₁ ∧ True ∧
      mirrorServer.Run s₁ [.receive 1 [7], .serverWriteable 1 fun _ ↦ .written false,
        .established 2] t :=
    Lts.exists_runs_of_replay (by decide +kernel)
  have hjoin : step .init (.established 1) = some s₁ := by
    simpa using Lts.run_ofStep_iff.mp hrun₀
  have hrun' : (mirrorServer.restrict fun u e ↦
      e ≠ .closed 1 ∧ ¬Overtakes u.toQueues 1 e).Run s₁ [.receive 1 [7],
      .serverWriteable 1 fun _ ↦ .written false, .established 2] t := by
    refine hrun.restrict fun e he u ↦ ?_
    simp only [List.mem_cons, List.not_mem_nil, or_false] at he
    rcases he with rfl | rfl | rfl
    · exact ⟨by simp, not_overtakes_own⟩
    · exact ⟨by simp, id⟩
    · exact ⟨by simp, id⟩
  obtain ⟨pss, h⟩ := sent_eq_of_not_overtaken (.of_init rfl) hjoin hrun'
  exact ⟨s₁, t, pss, hrun₀, hrun, h⟩

/-- As long as a client is the only one that sends, it gets back everything
that it was not made to drop. -/
theorem sent_eq_of_sole_sender (hs : mirrorServer.Reachable s)
    (hjoin : step s (.established a) = some s₁) (hrun : mirrorServer.Run s₁ es t)
    (hclosed : ∀ e ∈ es, e ≠ .closed a) (hsole : ∀ b data, .receive b data ∈ es → b = a) :
    ∃ pss, t.sessions a = some pss ∧
      t.mem.blocks = s.mem.blocks ++ (pss.sent ++ t.backlog pss) := by
  let C : QueueState → Event → Prop := fun _ e ↦
    e ≠ .closed a ∧ ∀ b data, e = .receive b data → b = a
  have hrun' : (mirrorServer.restrict fun u e ↦ C u.toQueues e).Run s₁ es t :=
    hrun.restrict fun e he _ ↦ ⟨hclosed e he, fun b data heq ↦ hsole b data (heq ▸ he)⟩
  obtain ⟨pss, new, hpss, hblocks, -, heq⟩ :=
    exists_client_of_run (C := C) hs hjoin (fun _ _ h ↦ h.1) hrun'
  refine ⟨pss, hpss, ?_⟩
  rw [hblocks, heq]
  intro q e he hover
  cases e with
  | receive b data =>
      obtain rfl := he.2 b data rfl
      exact not_overtakes_own hover
  | _ => exact hover

/-- The client 1 sends, and two others come to listen. -/
theorem sent_eq_of_sole_sender_three_clients :
    ∃ s₁ t pss, mirrorServer.Run .init [.established 1] s₁ ∧
      mirrorServer.Run s₁ [.established 2, .receive 1 [7], .established 3, .receive 1 [8],
        .serverWriteable 1 fun _ ↦ .written true] t ∧
      t.sessions 1 = some pss ∧
      t.mem.blocks = State.init.mem.blocks ++ (pss.sent ++ t.backlog pss) := by
  obtain ⟨s₁, t, hrun₀, -, hrun⟩ : ∃ s₁ t, mirrorServer.Run .init [.established 1] s₁ ∧ True ∧
      mirrorServer.Run s₁ [.established 2, .receive 1 [7], .established 3, .receive 1 [8],
        .serverWriteable 1 fun _ ↦ .written true] t :=
    Lts.exists_runs_of_replay (by decide +kernel)
  have hjoin : step .init (.established 1) = some s₁ := by
    simpa using Lts.run_ofStep_iff.mp hrun₀
  obtain ⟨pss, h⟩ := sent_eq_of_sole_sender (.of_init rfl) hjoin hrun (by simp) fun b data h ↦ by
    simp only [List.mem_cons, reduceCtorEq, Event.receive.injEq, List.not_mem_nil, or_false,
      false_or] at h
    rcases h with ⟨hb, -⟩ | ⟨hb, -⟩ <;> exact hb
  exact ⟨s₁, t, pss, hrun₀, hrun, h⟩

/-- A client that a message overtakes loses 512 messages, the new one and those
queued for it: what it is sent from then on came later. -/
theorem lost_of_overtaken (hs : mirrorServer.Reachable s) (hover : Overtakes s.toQueues a e)
    (hstep : step s e = some s₁) (hrun : mirrorServer.Run s₁ es t)
    (hclosed : ∀ e ∈ es, e ≠ .closed a) :
    ∃ pss pss' rest new, s.sessions a = some pss ∧
      (s.backlog pss).length + 1 = maxMessageQueue ∧ t.sessions a = some pss' ∧
      t.mem.blocks = s₁.mem.blocks ++ new ∧ pss'.sent = pss.sent ++ rest ∧ rest.Sublist new := by
  have he := (step_eq_some_iff.mp hstep).1
  have hqueue := queueStep_of_step (ok_of_reachable hs he.destroyed) hstep
  cases e with
  | receive b data =>
      obtain ⟨⟨c, hc, hfull⟩, cb, hcb, hroom⟩ := hover
      obtain ⟨pss, ha, rfl⟩ := Option.map_eq_some_iff.mp hc
      have hbroadcast : s₁.toQueues = s.toQueues.broadcast data := by
        generalize s₁.toQueues = r at hqueue
        cases hqueue with
        | accept => rfl
        | drop hb hfull' => exact absurd hfull' (Option.some.inj (hb.symm.trans hcb) ▸ hroom)
      have hempty : s₁.toQueues.client a = some ⟨[], pss.sent⟩ := by
        simp only [hbroadcast, QueueState.broadcast, toQueues_client ha, Option.map_some,
          Ring.push, hfull, if_true]
        rfl
      obtain ⟨c', new, hc', hfollows⟩ := follows_run (C := fun _ e ↦ e ≠ .closed a)
        (fun _ _ h ↦ h) (queues_run (hs.step hstep) (hrun.restrict fun e he _ ↦ hclosed e he)) hempty
      obtain ⟨pss', ha', rfl⟩ := Option.map_eq_some_iff.mp hc'
      obtain ⟨rest, hsent, hsub⟩ :=
        hfollows.sublist (List.append_nil pss.sent).symm (List.Sublist.refl [])
      have hlen : (s.backlog pss).length = maxMessageQueue - 1 := hfull
      refine ⟨pss, pss', rest, new, ha, ?_, ha', hfollows.log, hsent,
        (List.sublist_append_left rest _).trans hsub⟩
      rw [hlen]
      rfl
  | _ => exact hover.elim

theorem overtakes_iff (hs : Ok s) {data : Bytes} :
    Overtakes s.toQueues a (.receive b data) ↔
      (∃ pss ∈ s.sessions a, s.lag pss = maxMessageQueue - 1) ∧
        ∃ pss ∈ s.sessions b, s.lag pss ≠ maxMessageQueue - 1 := by
  have hlen : ∀ {c : Addr} {p : ℕ → Prop}, (∃ q ∈ s.toQueues.client c, p q.queue.length) ↔
      ∃ pss ∈ s.sessions c, p (s.lag pss) := by
    intro c p
    constructor
    · rintro ⟨q, hq, hp⟩
      obtain ⟨pss, hpss, rfl⟩ := Option.map_eq_some_iff.mp hq
      rw [State.toClient, RingOk.length_backlog (hs.tail c pss hpss)] at hp
      exact ⟨pss, hpss, hp⟩
    · rintro ⟨pss, hpss, hp⟩
      refine ⟨s.toClient pss, toQueues_client hpss, ?_⟩
      rwa [State.toClient, RingOk.length_backlog (hs.tail c pss hpss)]
  exact and_congr (hlen (p := (· = maxMessageQueue - 1))) (hlen (p := (· ≠ maxMessageQueue - 1)))

/-- The second message of the client 3 overtakes the client 1. -/
theorem lost_of_overtaken_slowReader :
    ∃ s s₁ t pss pss' rest new, mirrorServer.Run .init slowReader s ∧
      step s (.receive 3 [9]) = some s₁ ∧ mirrorServer.Run s₁ [.receive 3 [10]] t ∧
      s.sessions 1 = some pss ∧ (s.backlog pss).length + 1 = maxMessageQueue ∧
      t.sessions 1 = some pss' ∧ t.mem.blocks = s₁.mem.blocks ++ new ∧
      pss'.sent = pss.sent ++ rest ∧ rest.Sublist new := by
  obtain ⟨s, t, hrun₀, hP, hrun⟩ : ∃ s t, mirrorServer.Run .init slowReader s ∧
      (s.destroyed = false ∧ (∃ pss ∈ s.sessions 1, s.lag pss = maxMessageQueue - 1) ∧
        ∃ pss ∈ s.sessions 3, s.lag pss ≠ maxMessageQueue - 1) ∧
      mirrorServer.Run s [.receive 3 [9], .receive 3 [10]] t :=
    Lts.exists_runs_of_replay (by decide +kernel)
  have hs : mirrorServer.Reachable s := ⟨_, _, rfl, hrun₀⟩
  have hover : Overtakes s.toQueues 1 (.receive 3 [9]) :=
    (overtakes_iff (ok_of_reachable hs hP.1)).mpr hP.2
  obtain ⟨s₁, hstep, hrun₁⟩ := Lts.run_ofStep_cons_iff.mp hrun
  obtain ⟨pss, pss', rest, new, h⟩ := lost_of_overtaken hs hover hstep hrun₁ (by simp)
  exact ⟨s, s₁, t, pss, pss', rest, new, hrun₀, hstep, hrun₁, h⟩

end EsNotebook.Mirror
