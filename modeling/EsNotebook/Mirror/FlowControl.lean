import EsNotebook.Mirror.Queues

/-!
# Flow control

A client that leaves room for one more message behind itself is not read from
until some client has come down to 497 messages to go.  For a client that is
never overtaken this is a matter of time, because it has so many messages to
go itself.  Overtaken, it has none, and waits for the others.
-/

namespace EsNotebook.Mirror

open CMemory

variable {s s₁ t : State} {a b : Addr} {pss pss' : PerSessionData} {e : Event} {es : List Event}

/-- What a step does to a session that stays: it is notified of a message,
written to, or left alone but for its flow. -/
theorem step_session (hs : Ok s) (hstep : step s e = some t) (ha : s.sessions a = some pss)
    (hne : e ≠ .closed a) :
    (∃ b q data, e = .receive b data ∧ s.sessions b = some q ∧ Received s t b q data ∧
      t.sessions a = some (pss.notified (decide (s.Throttles q) && a = b))) ∨
    (∃ io pss' k, e = .serverWriteable a io ∧
      Drained (s.setSession a { pss with writable := false }) t a
        { pss with writable := false } pss' k ∧
      (s.lag pss' = 0 ∨ pss'.writable = true ∨ pss'.closing = true)) ∨
    (∃ allow, t.sessions a = some { pss with rxFlow := pss.rxFlow || allow } ∧
      (∀ q, t.lag q = s.lag q) ∧
      (allow = true → ∃ b io q, e = .serverWriteable b io ∧ s.sessions b = some q ∧
        maxMessageQueue - 15 < s.lag q)) := by
  obtain ⟨he, hcall⟩ := step_eq_some_iff.mp hstep
  cases e with
  | established b =>
      obtain rfl := Option.some.inj hcall
      have hba : a ≠ b := by
        rintro rfl
        cases ha.symm.trans he.2
      exact .inr (.inr ⟨false, by simpa [established, State.setSession, hba] using ha,
        fun q ↦ lag_congr rfl q, by simp⟩)
  | receive b data =>
      obtain ⟨-, q, hb, -⟩ := he
      obtain ⟨t', ht', hrecv⟩ := receive_spec hs hb data
      obtain rfl := Option.some.inj (hcall.symm.trans ht')
      exact .inl ⟨b, q, data, rfl, hb, hrecv, by simp [hrecv.sessions a, ha]⟩
  | serverWriteable b io =>
      obtain ⟨-, q, hb, -⟩ := he
      obtain ⟨t', q', k, ht', hdrained, hend, -, -⟩ := serverWriteable_spec hs hb io
      obtain rfl := Option.some.inj (hcall.symm.trans ht')
      by_cases hba : a = b
      · subst hba
        obtain rfl := Option.some.inj (ha.symm.trans hb)
        exact .inr (.inl ⟨io, q', k, rfl, hdrained, hend⟩)
      · obtain ⟨allow, hallow, hsession⟩ := hdrained.other a hba
        refine .inr (.inr ⟨allow, ?_, lag_congr hdrained.vhd, fun h ↦ ⟨b, io, q, rfl, hb, hallow h⟩⟩)
        simpa [State.setSession, hba, ha] using hsession
  | closed b =>
      obtain rfl := Option.some.inj hcall
      have hba : a ≠ b := by
        rintro rfl
        exact hne rfl
      exact .inr (.inr ⟨false, by simpa [hba] using ha, lag_congr rfl, by simp⟩)
  | protocolDestroy =>
      obtain rfl := Option.some.inj hcall
      obtain ⟨-, -, hsessions, hhead, -⟩ := destroySlots_spec s maxMessageQueue
      refine .inr (.inr ⟨false, by simpa [protocolDestroy, hsessions] using ha, fun q ↦ ?_, by simp⟩)
      simp only [State.lag, protocolDestroy, hhead]

/-- A session appears when its connection is established, with an empty
queue. -/
theorem fresh_of_step (hs : Ok s) (hstep : step s e = some t) (hnone : s.sessions a = none)
    (ht : t.sessions a = some pss) : e = .established a ∧ t.lag pss = 0 ∧ pss.rxFlow = true := by
  obtain ⟨he, hcall⟩ := step_eq_some_iff.mp hstep
  cases e with
  | established b =>
      obtain rfl := Option.some.inj hcall
      by_cases hba : a = b
      · subst hba
        obtain rfl : _ = pss := by simpa [established, State.setSession] using ht
        exact ⟨rfl, (Ring.lag_eq_zero_iff hs.ring.head_lt hs.ring.head_lt).mpr rfl, rfl⟩
      · simp [established, State.setSession, hba, hnone] at ht
  | receive b data =>
      obtain ⟨-, q, hb, -⟩ := he
      obtain ⟨t', ht', hrecv⟩ := receive_spec hs hb data
      obtain rfl := Option.some.inj (hcall.symm.trans ht')
      simp [hrecv.sessions a, hnone] at ht
  | serverWriteable b io =>
      obtain ⟨-, q, hb, -⟩ := he
      obtain ⟨t', q', k, ht', hdrained, -⟩ := serverWriteable_spec hs hb io
      obtain rfl := Option.some.inj (hcall.symm.trans ht')
      have hba : a ≠ b := by
        rintro rfl
        cases hnone.symm.trans hb
      obtain ⟨allow, -, hsession⟩ := hdrained.other a hba
      simp [hsession, State.setSession, hba, hnone] at ht
  | closed b =>
      obtain rfl := Option.some.inj hcall
      by_cases hba : a = b
      · simp [hba] at ht
      · simp [hba, hnone] at ht
  | protocolDestroy =>
      obtain rfl := Option.some.inj hcall
      obtain ⟨-, -, hsessions, -⟩ := destroySlots_spec s maxMessageQueue
      simp [protocolDestroy, hsessions, hnone] at ht

/-! ## Nothing is left lying -/

/-- The messages queued for a session will be taken up. -/
def Waiting (s : State) (pss : PerSessionData) : Prop :=
  s.lag pss = 0 ∨ pss.writable = true ∨ pss.closing = true

theorem waiting_step (hs : Ok s) (hstep : step s e = some t)
    (h : ∀ a pss, s.sessions a = some pss → Waiting s pss) (ht : t.sessions a = some pss') :
    Waiting t pss' := by
  cases hold : s.sessions a with
  | none => exact .inl (fresh_of_step hs hstep hold ht).2.1
  | some pss =>
      have hne : e ≠ .closed a := by
        rintro rfl
        obtain rfl := Option.some.inj (step_eq_some_iff.mp hstep).2
        simp at ht
      rcases step_session hs hstep hold hne with ⟨b, q, data, -, -, -, hsession⟩ |
        ⟨io, pss₁, k, -, hdrained, hend⟩ | ⟨allow, hsession, hlag, -⟩
      · obtain rfl := Option.some.inj (ht.symm.trans hsession)
        exact .inr (.inl rfl)
      · obtain rfl := Option.some.inj (ht.symm.trans hdrained.self)
        rwa [Waiting, lag_congr hdrained.vhd]
      · obtain rfl := Option.some.inj (ht.symm.trans hsession)
        rcases h a pss hold with hzero | hor
        · exact .inl ((hlag pss).trans hzero)
        · exact .inr hor

/-- In every state of every run, a session for which messages are queued has a
writeable callback to come or is being closed. -/
theorem waiting_of_reachable (hs : mirrorServer.Reachable s) (ha : s.sessions a = some pss) :
    Waiting s pss := by
  obtain ⟨s₀, es, rfl, hrun⟩ := hs
  induction hrun generalizing a pss with
  | nil => cases ha
  | snoc hprev hstep ih =>
      have he := (step_eq_some_iff.mp hstep).1
      have hok := ok_of_reachable ⟨_, _, rfl, hprev⟩ he.destroyed
      exact waiting_step hok hstep (fun b q ↦ ih) ha

/-- A message is queued for the client 2, whose pipe was choked before it. -/
theorem waiting_choked :
    ∃ s pss, mirrorServer.Run .init [.established 1, .established 2, .receive 1 [7],
        .receive 1 [8], .serverWriteable 2 fun _ ↦ .written true] s ∧
      s.sessions 2 = some pss ∧ Waiting s pss := by
  obtain ⟨s, hrun, pss, ha, -⟩ : ∃ s, mirrorServer.Run .init
      [.established 1, .established 2, .receive 1 [7], .receive 1 [8],
        .serverWriteable 2 fun _ ↦ .written true] s ∧ ∃ pss ∈ s.sessions 2, s.lag pss ≠ 0 :=
    Lts.exists_run_of_replay (by decide +kernel)
  exact ⟨s, pss, hrun, ha, waiting_of_reachable ⟨_, _, rfl, hrun⟩ ha⟩

/-! ## Throttled clients -/

/-- A client that is not read from has more than 497 messages to go. -/
def Throttled (s : State) (pss : PerSessionData) : Prop :=
  pss.rxFlow = false → maxMessageQueue - 15 < s.lag pss

theorem throttled_step (hs : Ok s) (hstep : step s e = some t) (ha : s.sessions a = some pss)
    (hne : e ≠ .closed a) (hover : ¬Overtakes s.toQueues a e) (h : Throttled s pss) :
    ∃ pss', t.sessions a = some pss' ∧ Throttled t pss' := by
  rcases step_session hs hstep ha hne with ⟨b, q, data, rfl, hb, hrecv, hsession⟩ |
    ⟨io, pss', k, -, hdrained, -⟩ | ⟨allow, hsession, hlag, -⟩
  · refine ⟨_, hsession, fun hoff ↦ ?_⟩
    obtain ⟨htail', hbacklog⟩ := hrecv.backlog hs ha (decide (s.Throttles q) && a = b)
    have hlen := congrArg List.length hbacklog
    have htail := hs.tail a pss ha
    rw [RingOk.length_backlog htail'] at hlen
    have hthrottles : pss.rxFlow = false ∨ s.Throttles q ∧ a = b := by
      have himp : pss.rxFlow = true → s.Throttles q ∧ a = b := by
        simpa [PerSessionData.notified] using hoff
      cases hrx : pss.rxFlow with
      | false => exact .inl rfl
      | true => exact .inr (himp hrx)
    by_cases hfull : s.lag q = maxMessageQueue - 1
    · -- the message is dropped
      rw [if_pos hfull, RingOk.length_backlog htail] at hlen
      rw [hlen]
      rcases hthrottles with hoff | ⟨-, rfl⟩
      · exact h hoff
      · obtain rfl := Option.some.inj (ha.symm.trans hb)
        rw [hfull]
        decide
    · have hroom : (s.backlog pss).length ≠ maxMessageQueue - 1 := by
        intro hpss
        refine hover ⟨⟨_, toQueues_client ha, hpss⟩, _, toQueues_client hb, fun hq ↦ hfull ?_⟩
        rwa [State.toClient, RingOk.length_backlog (hs.tail b q hb)] at hq
      rw [if_neg hfull, Ring.push_of_length_ne hroom, List.length_append, List.length_singleton,
        RingOk.length_backlog htail] at hlen
      rw [hlen]
      rcases hthrottles with hoff | ⟨hq, rfl⟩
      · exact (h hoff).trans (Nat.lt_succ_self _)
      · obtain rfl := Option.some.inj (ha.symm.trans hb)
        rcases hq with hq | hq
        · exact absurd hq hfull
        · rw [hq]
          decide
  · refine ⟨pss', hdrained.self, fun hoff ↦ ?_⟩
    have hoff₀ : pss.rxFlow = false := by
      by_contra hon
      have hon' := hdrained.rxFlow (by simpa using hon)
      rw [hoff] at hon'
      cases hon'
    rw [lag_congr hdrained.vhd]
    by_contra hle
    have hon := hdrained.allow (h hoff₀) (Nat.not_lt.mp hle)
    rw [hoff] at hon
    cases hon
  · refine ⟨_, hsession, fun hoff ↦ ?_⟩
    have hoff₀ : pss.rxFlow = false := by
      simp only [Bool.or_eq_false_iff] at hoff
      exact hoff.1
    exact (hlag pss).symm ▸ h hoff₀

/-- As long as no message overtakes a client, throttling it is temporary: while
it is not read from, it has more than 497 messages to go and a writeable
callback to come, and the turn that leaves 497 messages ends it. -/
theorem throttled_of_not_overtaken (hs : mirrorServer.Reachable s)
    (hjoin : step s (.established a) = some s₁)
    (hrun : (mirrorServer.restrict fun u e ↦
      e ≠ .closed a ∧ ¬Overtakes u.toQueues a e).Run s₁ es t) :
    ∃ pss, t.sessions a = some pss ∧
      (pss.rxFlow = false → maxMessageQueue - 15 < t.lag pss ∧
        (pss.writable = true ∨ pss.closing = true)) := by
  have hs₁ := hs.step hjoin
  have hthrottled : ∃ pss, t.sessions a = some pss ∧ Throttled t pss := by
    induction hrun with
    | nil =>
        have he := (step_eq_some_iff.mp hjoin).1
        have hjoined : s₁.sessions a ≠ none := by
          obtain rfl := Option.some.inj (step_eq_some_iff.mp hjoin).2
          simp [established, State.setSession]
        obtain ⟨pss, hpss⟩ := Option.ne_none_iff_exists'.mp hjoined
        have hfresh := fresh_of_step (ok_of_reachable hs he.destroyed) hjoin he.2 hpss
        exact ⟨pss, hpss, fun hoff ↦ by rw [hfresh.2.2] at hoff; cases hoff⟩
    | snoc hprev hstep ih =>
        obtain ⟨pss, hpss, hthrottled⟩ := ih
        have hu := hs₁.run hprev.of_restrict
        have he := (step_eq_some_iff.mp hstep.1).1
        exact throttled_step (ok_of_reachable hu he.destroyed) hstep.1 hpss hstep.2.1 hstep.2.2
          hthrottled
  obtain ⟨pss, hpss, hthrottled⟩ := hthrottled
  refine ⟨pss, hpss, fun hoff ↦ ⟨hthrottled hoff, ?_⟩⟩
  rcases waiting_of_reachable (hs₁.run hrun.of_restrict) hpss with hzero | hor
  · have hlt := hthrottled hoff
    rw [hzero] at hlt
    exact absurd hlt (Nat.not_lt_zero _)
  · exact hor

/-- The client 1 fills its own queue until it is throttled. -/
theorem throttled_after_510_messages :
    ∃ s₁ t pss, mirrorServer.Run .init [.established 1] s₁ ∧
      mirrorServer.Run s₁ (List.replicate 510 (.receive 1 [7])) t ∧ t.sessions 1 = some pss ∧
      (pss.rxFlow = false → maxMessageQueue - 15 < t.lag pss ∧
        (pss.writable = true ∨ pss.closing = true)) := by
  obtain ⟨s₁, t, hrun₀, -, hrun⟩ : ∃ s₁ t, mirrorServer.Run .init [.established 1] s₁ ∧ True ∧
      mirrorServer.Run s₁ (List.replicate 510 (.receive 1 [7])) t :=
    Lts.exists_runs_of_replay (by decide +kernel)
  have hjoin : step .init (.established 1) = some s₁ := by
    simpa using Lts.run_ofStep_iff.mp hrun₀
  have hrun' : (mirrorServer.restrict fun u e ↦
      e ≠ .closed 1 ∧ ¬Overtakes u.toQueues 1 e).Run s₁
      (List.replicate 510 (.receive 1 [7])) t := by
    refine hrun.restrict fun e he u ↦ ?_
    obtain rfl := List.eq_of_mem_replicate he
    exact ⟨by simp, not_overtakes_own⟩
  obtain ⟨pss, h⟩ := throttled_of_not_overtaken (.of_init rfl) hjoin hrun'
  exact ⟨s₁, t, pss, hrun₀, hrun, h⟩

/-- Only a client with more than 497 messages to go opens the flow again.  As
long as no such client is written to, a throttled client stays so, also if it
has been overtaken and has nothing to go itself. -/
theorem throttled_while_none_behind (hs : mirrorServer.Reachable s)
    (ha : s.sessions a = some pss) (hoff : pss.rxFlow = false)
    (hrun : (mirrorServer.restrict fun u e ↦ e ≠ .closed a ∧
      ∀ b io, e = .serverWriteable b io → ∀ q, u.sessions b = some q →
        u.lag q ≤ maxMessageQueue - 15).Run s es t) :
    ∃ pss', t.sessions a = some pss' ∧ pss'.rxFlow = false := by
  induction hrun with
  | nil => exact ⟨pss, ha, hoff⟩
  | snoc hprev hstep ih =>
      obtain ⟨pss₁, ha₁, hoff₁⟩ := ih
      have hu := hs.run hprev.of_restrict
      have hok := ok_of_reachable hu (step_eq_some_iff.mp hstep.1).1.destroyed
      rcases step_session hok hstep.1 ha₁ hstep.2.1 with ⟨b, q, data, rfl, -, -, hsession⟩ |
        ⟨io, pss', k, rfl, hdrained, -⟩ | ⟨allow, hsession, -, hallow⟩
      · exact ⟨_, hsession, by simp [PerSessionData.notified, hoff₁]⟩
      · refine ⟨pss', hdrained.self, ?_⟩
        by_contra hon
        rcases hdrained.rxFlow_of (by simpa using hon) with hon₁ | hlt
        · cases hoff₁.symm.trans hon₁
        · exact absurd hlt (Nat.not_lt.mpr (hstep.2.2 a io rfl pss₁ ha₁))
      · refine ⟨_, hsession, ?_⟩
        cases allow with
        | false => simpa using hoff₁
        | true =>
            obtain ⟨b, io, q, rfl, hb, hlt⟩ := hallow rfl
            exact absurd hlt (Nat.not_lt.mpr (hstep.2.2 b io rfl q hb))

/-- The client 2 has been throttled and then overtaken; nobody is behind. -/
theorem throttled_while_none_behind_slowReader :
    ∃ s t pss pss', mirrorServer.Run .init (slowReader ++ [.receive 3 [9]]) s ∧
      s.sessions 2 = some pss ∧ s.lag pss = 0 ∧
      mirrorServer.Run s [.receive 3 [10], .established 4, .receive 4 [11]] t ∧
      t.sessions 2 = some pss' ∧ pss'.rxFlow = false := by
  obtain ⟨s, t, hrun₀, hP, hrun⟩ : ∃ s t,
      mirrorServer.Run .init (slowReader ++ [.receive 3 [9]]) s ∧
      (∃ pss ∈ s.sessions 2, s.lag pss = 0 ∧ pss.rxFlow = false) ∧
      mirrorServer.Run s [.receive 3 [10], .established 4, .receive 4 [11]] t :=
    Lts.exists_runs_of_replay (by decide +kernel)
  obtain ⟨pss, ha, hlag, hoff⟩ := hP
  have hrun' : (mirrorServer.restrict fun u e ↦ e ≠ .closed 2 ∧
      ∀ b io, e = .serverWriteable b io → ∀ q, u.sessions b = some q →
        u.lag q ≤ maxMessageQueue - 15).Run s
      [.receive 3 [10], .established 4, .receive 4 [11]] t := by
    refine hrun.restrict fun e he u ↦ ?_
    simp only [List.mem_cons, List.not_mem_nil, or_false] at he
    rcases he with rfl | rfl | rfl <;> simp
  obtain ⟨pss', h⟩ := throttled_while_none_behind ⟨_, _, rfl, hrun₀⟩ ha hoff hrun'
  exact ⟨s, t, pss, pss', hrun₀, ha, hlag, hrun, h⟩

end EsNotebook.Mirror
