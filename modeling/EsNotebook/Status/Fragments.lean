import EsNotebook.Status.Sessions

/-!
# Fragments on each connection

Each connection carries one sequence of frames, written over many callbacks
with changes of the list in between.  It is always a sequence of complete
messages, the last one perhaps unfinished, and a session whose walk is not
over has a writeable callback to come.
-/

namespace EsNotebook.Status

variable {lws : Lws} {s t : State} {ls : List Addr} {a b : Addr} {pss pss' : PerSessionData}
  {es : List Event}

/-! ## Invariants of each session -/

/-- What is known of a session: its user data, whether a writeable callback is
requested, whether it is being closed, and the frames it has sent. -/
abbrev SessionProp := PerSessionData → Prop → Prop → List WsFrame → Prop

/-- A property of a session that its callbacks and those of all other sessions
preserve. -/
structure SessionInvariant (lws : Lws) (P : SessionProp) : Prop where
  fresh : ∀ vhd next wsi now ua, now < 2 ^ 63 → P (freshSession vhd next wsi now ua) True False []
  announced : ∀ vhd pss n w c fs, P pss w c fs → P { pss.triggerResend vhd with next := n } True c fs
  idled : ∀ pss w fs, pss.walk = .none → P pss w False fs → P pss False False fs
  wrote : ∀ s ls pss w fs ok frame pss', Sessions s ls → P pss w False fs →
    walkStep lws s pss = some (some (frame, pss')) →
    P pss' (ok = true ∧ pss'.walk ≠ .none) (¬ok) (fs ++ if ok then [frame] else [])

/-- The session `b` of `s` has the property. -/
def Has (P : SessionProp) (s : State) (b : Addr) (pss : PerSessionData) : Prop :=
  P pss (b ∈ s.writable) (b ∈ s.closing) (s.sent b)

theorem SessionInvariant.step {P : SessionProp} (hP : SessionInvariant lws P) (h : Sessions s ls)
    {e : Event} (hstep : step lws s e = some t)
    (hs : ∀ b pss, s.sessions.get? b = some pss → Has P s b pss)
    (hb : t.sessions.get? b = some pss') : Has P t b pss' := by
  obtain ⟨he, hcall⟩ := step_eq_some_iff.mp hstep
  cases hold : s.sessions.get? b with
  | none =>
      -- `b` has just been established
      have hbt : b ∈ openAfter ls e := (h.step hstep).mem_of_get? hb
      have hbs : b ∉ ls := fun hmem ↦ by simpa [hold] using (h.mem_iff b).mp hmem
      cases e with
      | established a wsi now ua =>
          have hba : b = a := by simpa [openAfter, hbs] using hbt
          subst hba
          obtain ⟨t', ht', -, -, hget, hw, hc, hsent, -⟩ := established_spec h he.1 wsi now ua
          obtain rfl := Option.some.inj (hcall.symm.trans ht')
          obtain rfl := Option.some.inj (hb.symm.trans hget)
          simpa only [Has, hw, hc, hsent] using hP.fresh _ _ _ _ _ he.2
      | serverWriteable a ok => exact absurd hbt hbs
      | receive a => exact absurd hbt hbs
      | closed a => exact absurd (List.mem_of_mem_erase hbt) hbs
  | some pss =>
      have hne : e ≠ .closed b := by
        rintro rfl
        have hbt : b ∈ ls.erase b := (h.step hstep).mem_of_get? hb
        exact absurd rfl (h.chain.nodup.mem_erase_iff.mp hbt).1
      have hold' := hs b pss hold
      rcases step_session h hstep hold hne with hu | ha | ⟨ok, rfl, hi | ⟨frame, pss₁, hw⟩⟩
      · obtain rfl := Option.some.inj (hold.symm.trans (hu.get?.symm.trans hb))
        simpa only [Has, hu.mem_writable, hu.mem_closing, hu.sent] using hold'
      · obtain ⟨n, hn⟩ := ha.get? pss hold
        obtain rfl := Option.some.inj (hb.symm.trans hn)
        have hw : b ∈ t.writable := ha.mem_writable (by simp [hold])
        simpa only [Has, hw, ha.mem_closing, ha.sent] using hP.announced t.vhd pss n _ _ _ hold'
      · obtain rfl := Option.some.inj (hb.symm.trans hi.get?)
        have hc : b ∉ s.closing := he.2
        have hwalk : pss'.walk = .none := by
          rcases walkStep_cases lws h pss' with ⟨hwalk, -⟩ | ⟨_, _, hsome, -⟩
          · exact hwalk
          · cases hi.walkStep.symm.trans hsome
        rw [Has] at hold'
        simp only [hc] at hold'
        simpa only [Has, hi.not_mem_writable, hi.mem_closing, hc, hi.sent] using
          hP.idled pss' _ _ hwalk hold'
      · obtain rfl := Option.some.inj (hb.symm.trans hw.get?)
        have hc : b ∉ s.closing := he.2
        rw [Has] at hold'
        simp only [hc] at hold'
        simpa only [Has, hw.mem_writable, hw.mem_closing, hc, or_false, hw.sent] using
          hP.wrote s ls pss _ _ ok frame pss' h hold' hw.walkStep

/-- An invariant of each session holds of all sessions in every run. -/
theorem SessionInvariant.reachable {P : SessionProp} (hP : SessionInvariant lws P)
    (hs : (statusServer lws).Reachable s) (hb : s.sessions.get? b = some pss) : Has P s b pss := by
  obtain ⟨s₀, es, rfl, hrun⟩ := hs
  induction hrun generalizing b pss with
  | nil => simp [State.init, Heap.get?] at hb
  | snoc hprev hstep ih => exact hP.step (sessions_of_run hprev) hstep (fun b pss ↦ ih) hb

/-! ## Fragmentation -/

/-- What the receiver makes of a frame, inside a message or between two: a new
message may not begin inside another, and a continuation needs a message. -/
def WsFrame.receive (inMessage : Bool) (frame : WsFrame) : Option Bool :=
  if frame.text = inMessage then none else some !frame.fin

/-- Whether a message is still open after the frames, if they are fragments of
messages at all. -/
def received (frames : List WsFrame) : Option Bool := frames.foldlM WsFrame.receive false

theorem received_append_singleton (frames : List WsFrame) (frame : WsFrame) :
    received (frames ++ [frame]) = (received frames).bind (WsFrame.receive · frame) := by
  simp [received, List.foldlM_append]

/-- The walk is in the middle of a message. -/
def EWalk.inMessage : EWalk → Bool
  | .list | .final => true
  | .none | .initial => false

@[simp] theorem PerSessionData.triggerResend_inMessage (vhd : PerVhostData)
    (pss : PerSessionData) : (pss.triggerResend vhd).walk.inMessage = pss.walk.inMessage := by
  unfold triggerResend
  split
  · next h => simp [h, EWalk.inMessage]
  · rfl

/-- A step of the walk writes a frame that fits where the message stands. -/
theorem receive_walkStep (h : Sessions s ls) {frame : WsFrame}
    (hstep : walkStep lws s pss = some (some (frame, pss'))) :
    frame.receive pss.walk.inMessage = some pss'.walk.inMessage := by
  obtain ⟨-, -, ⟨hw, ht, hf, hw'⟩ | ⟨hw, ht, hf, hw'⟩ | ⟨hw, ht, hf, hpss'⟩⟩ :=
    walkStep_some h hstep
  · simp [WsFrame.receive, EWalk.inMessage, hw, ht, hf, hw']
  · rcases hw' with hw' | hw' <;> simp [WsFrame.receive, EWalk.inMessage, hw, ht, hf, hw']
  · have hin : pss.walk.inMessage = true := by rcases hw with hw | hw <;> simp [hw, EWalk.inMessage]
    have hout : pss'.walk.inMessage = false := by
      rw [hpss', walkFinal_walk]
      split <;> rfl
    simp [WsFrame.receive, hin, hout, ht, hf]

/-- The frames sent are fragments of messages, and the walk knows whether the
last message is finished. -/
theorem fragments_invariant : SessionInvariant lws fun pss _ c frames ↦
    (received frames).isSome ∧ (¬c → received frames = some pss.walk.inMessage) where
  fresh := by simp [received, freshSession, EWalk.inMessage]
  announced := by simp
  idled := by simp
  wrote := by
    rintro s ls pss w frames ok frame pss' h ⟨hsome, hopen⟩ hstep
    have hopen := hopen not_false
    cases ok with
    | false => simpa using hsome
    | true =>
        have hnext : received (frames ++ [frame]) = some pss'.walk.inMessage := by
          rw [received_append_singleton, hopen]
          exact receive_walkStep h hstep
        simp [hnext]

/-- Over every order of connections, writeable callbacks, write errors and
closings, each client gets fragments in a valid order; a message is open on a
connection exactly while its walk is in the list or before the end. -/
theorem fragments_of_reachable (hs : (statusServer lws).Reachable s)
    (ha : s.sessions.get? a = some pss) :
    (received (s.sent a)).isSome ∧
      (a ∉ s.closing → received (s.sent a) = some pss.walk.inMessage) :=
  fragments_invariant.reachable hs ha

/-- The second client leaves while the first is inside a message. -/
theorem fragments_next_gone :
    ∃ (s : State) (pss : PerSessionData), (statusServer .sample).Run .init
        [.established 1 10 100 none, .established 2 11 200 none, .serverWriteable 1 true,
          .closed 2, .serverWriteable 1 true] s ∧
      s.sessions.get? 1 = some pss ∧ (received (s.sent 1)).isSome ∧
      (1 ∉ s.closing → received (s.sent 1) = some pss.walk.inMessage) := by
  obtain ⟨s, hrun, h⟩ : ∃ s, (statusServer .sample).Run .init
      [.established 1 10 100 none, .established 2 11 200 none, .serverWriteable 1 true,
        .closed 2, .serverWriteable 1 true] s ∧ (s.sessions.get? 1).isSome = true :=
    Lts.exists_run_of_replay (by decide)
  obtain ⟨pss, ha⟩ := Option.isSome_iff_exists.mp h
  exact ⟨s, pss, hrun, ha, fragments_of_reachable ⟨_, _, rfl, hrun⟩ ha⟩

/-! ## Requests for a writeable callback -/

/-- A walk in progress waits for a writeable callback, and only such a walk. -/
theorem writable_invariant : SessionInvariant lws fun pss w c _ ↦
    (¬c → (w ↔ pss.walk ≠ .none)) ∧ (pss.changedPartway → pss.walk ≠ .none) where
  fresh := by simp [freshSession]
  announced := by
    rintro vhd pss n w c frames ⟨-, hch⟩
    simp only [PerSessionData.triggerResend]
    split
    · simp
    · next hwalk => simp [hwalk]
  idled := by
    rintro pss w frames hwalk ⟨-, hch⟩
    exact ⟨by simp [hwalk], hch⟩
  wrote := by
    rintro s ls pss w frames ok frame pss' h ⟨-, hch⟩ hstep
    refine ⟨by cases ok <;> simp, fun hch' ↦ ?_⟩
    obtain ⟨-, -, ⟨-, -, -, hw⟩ | ⟨-, -, -, hw | hw⟩ | ⟨-, -, -, hpss'⟩⟩ := walkStep_some h hstep
    · simp [hw]
    · simp [hw]
    · simp [hw]
    · rw [hpss', walkFinal_changedPartway] at hch'
      rw [hpss', walkFinal_walk, if_pos hch']
      simp

/-- In every state of every run, a session that is not being closed has a
writeable callback requested exactly when its walk is not over, so that no
message stops in the middle and no callback is asked for in vain. -/
theorem mem_writable_iff (hs : (statusServer lws).Reachable s)
    (ha : s.sessions.get? a = some pss) (hc : a ∉ s.closing) :
    a ∈ s.writable ↔ pss.walk ≠ .none :=
  (writable_invariant.reachable hs ha).1 hc

/-- The walk of a client that is alone, after its header. -/
theorem mem_writable_after_header :
    ∃ (s : State) (pss : PerSessionData), (statusServer .sample).Run .init
        [.established 1 10 100 none, .serverWriteable 1 true] s ∧
      s.sessions.get? 1 = some pss ∧ (1 ∈ s.writable ↔ pss.walk ≠ .none) := by
  obtain ⟨s, hrun, h, hc⟩ : ∃ s, (statusServer .sample).Run .init
      [.established 1 10 100 none, .serverWriteable 1 true] s ∧
      (s.sessions.get? 1).isSome = true ∧ 1 ∉ s.closing :=
    Lts.exists_run_of_replay (by decide)
  obtain ⟨pss, ha⟩ := Option.isSome_iff_exists.mp h
  exact ⟨s, pss, hrun, ha, mem_writable_iff ⟨_, _, rfl, hrun⟩ ha hc⟩

/-! ## A change in the middle of a message -/

/-- A step keeps the mark of a change in the middle of a message. -/
theorem changedPartway_step (h : Sessions s ls) {e : Event} (hstep : step lws s e = some t)
    (hb : s.sessions.get? b = some pss) (hch : pss.changedPartway = true) (hne : e ≠ .closed b) :
    ∃ pss', t.sessions.get? b = some pss' ∧ pss'.changedPartway = true := by
  rcases step_session h hstep hb hne with hu | ha | ⟨ok, -, hi | ⟨frame, pss', hw⟩⟩
  · exact ⟨pss, hu.get?.trans hb, hch⟩
  · obtain ⟨n, hn⟩ := ha.get? pss hb
    refine ⟨_, hn, ?_⟩
    simp only [PerSessionData.triggerResend]
    split
    · exact hch
    · rfl
  · exact ⟨pss, hi.get?, hch⟩
  · exact ⟨pss', hw.get?, (walkStep_some h hw.walkStep).2.1 hch⟩

theorem changedPartway_run (hs : (statusServer lws).Reachable s)
    (hb : s.sessions.get? b = some pss) (hch : pss.changedPartway = true)
    (hrun : (statusServer lws).Run s es t) (hne : .closed b ∉ es) :
    ∃ pss', t.sessions.get? b = some pss' ∧ pss'.changedPartway = true := by
  induction hrun with
  | nil => exact ⟨pss, hb, hch⟩
  | snoc hprev hstep ih =>
      rw [List.mem_append, not_or] at hne
      obtain ⟨pss₁, hb₁, hch₁⟩ := ih hne.1
      obtain ⟨ls, hls⟩ := exists_sessions (hs.run hprev)
      exact changedPartway_step hls hstep hb₁ hch₁ fun he ↦ hne.2 (by simp [he])

/-- `changed_partway` is never cleared.  Once the list has changed in the
middle of a message, that client is sent the list over and over: whatever
happens until its connection is closed, it has a writeable callback to come
or is being closed after an error. -/
theorem writable_of_changedPartway (hs : (statusServer lws).Reachable s)
    (hb : s.sessions.get? b = some pss) (hch : pss.changedPartway = true)
    (hrun : (statusServer lws).Run s es t) (hne : .closed b ∉ es) :
    ∃ pss', t.sessions.get? b = some pss' ∧ pss'.walk ≠ .none ∧
      (b ∈ t.writable ∨ b ∈ t.closing) := by
  obtain ⟨pss', hb', hch'⟩ := changedPartway_run hs hb hch hrun hne
  have hinv := writable_invariant.reachable (hs.run hrun) hb'
  refine ⟨pss', hb', hinv.2 hch', ?_⟩
  by_cases hc : b ∈ t.closing
  · exact .inr hc
  · exact .inl ((hinv.1 hc).mpr (hinv.2 hch'))

/-- A second client comes while the first is inside a message; then nothing
happens but writes to the first, two messages long. -/
theorem writable_after_two_messages :
    ∃ (s t : State) (pss' : PerSessionData),
      (statusServer .sample).Run .init
        [.established 1 10 100 none, .serverWriteable 1 true, .established 2 11 200 none] s ∧
      (statusServer .sample).Run s (List.replicate 7 (.serverWriteable 1 true)) t ∧
      t.sessions.get? 1 = some pss' ∧ pss'.walk ≠ .none ∧ (1 ∈ t.writable ∨ 1 ∈ t.closing) := by
  obtain ⟨s, t, hrun₀, hP, hrun⟩ : ∃ s t,
      (statusServer .sample).Run .init
        [.established 1 10 100 none, .serverWriteable 1 true, .established 2 11 200 none] s ∧
      ((s.sessions.get? 1).any fun pss ↦ pss.changedPartway) = true ∧
      (statusServer .sample).Run s (List.replicate 7 (.serverWriteable 1 true)) t :=
    Lts.exists_runs_of_replay (by decide)
  obtain ⟨pss, ha, hch⟩ := (Option.any_eq_true _ _).mp hP
  obtain ⟨pss', ha', hwalk, hor⟩ :=
    writable_of_changedPartway ⟨_, _, rfl, hrun₀⟩ ha hch hrun (by decide)
  exact ⟨s, t, pss', hrun₀, hrun, ha', hwalk, hor⟩

end EsNotebook.Status
