import EsNotebook.FileTransfer.ServerSession

/-!
# Handshake order and message types

The server tests only the magic of the first frame and does not look at the
frame that starts the transfer.  The order of the handshake is therefore
enforced by type exactly in the runs whose frames have the expected types.
-/

namespace EsNotebook.FileTransfer

open CMemory

def receivedFrames (log : List ServerLog) : List Bytes :=
  log.filterMap fun
    | .received frame => some frame
    | .queued _ => none

/-- A frame of type `FSS_FILE_REQ` has arrived. -/
def Requested (log : List ServerLog) : Prop :=
  ∃ frame ∈ receivedFrames log, load32 frame 0 = some fssFileReq

/-- `FSS_FILE_RESP_OK` has been queued. -/
def Replied (log : List ServerLog) : Prop :=
  ∃ w ∈ queuedWrites log, load32 w.payload 0 = some fssFileRespOk

/-- A frame of type `FSS_FILE_START` has arrived after the reply was queued. -/
def StartedAfterReply (log : List ServerLog) : Prop :=
  ∃ pre post, log = pre ++ post ∧ Replied pre ∧
    ∃ frame ∈ receivedFrames post, load32 frame 0 = some fssFileStart

instance (log : List ServerLog) : Decidable (Requested log) :=
  inferInstanceAs (Decidable (∃ frame ∈ receivedFrames log, _))

@[simp] theorem receivedFrames_append (l l' : List ServerLog) :
    receivedFrames (l ++ l') = receivedFrames l ++ receivedFrames l' := by
  simp [receivedFrames]

theorem Requested.append {l : List ServerLog} (h : Requested l) (l' : List ServerLog) :
    Requested (l ++ l') := by
  obtain ⟨frame, hmem, htype⟩ := h
  exact ⟨frame, by simp [hmem], htype⟩

theorem Replied.append {l : List ServerLog} (h : Replied l) (l' : List ServerLog) :
    Replied (l ++ l') := by
  obtain ⟨w, hmem, htype⟩ := h
  exact ⟨w, by simpa [queuedWrites] using Or.inl (by simpa [queuedWrites] using hmem), htype⟩

theorem StartedAfterReply.append {l : List ServerLog} (h : StartedAfterReply l)
    (l' : List ServerLog) : StartedAfterReply (l ++ l') := by
  obtain ⟨pre, post, rfl, hreplied, frame, hmem, htype⟩ := h
  exact ⟨pre, post ++ l', by simp, hreplied, frame, by simp [hmem], htype⟩

/-- What a state may be entered for. -/
def HandshakeOrder (s : ServerRun) : Prop :=
  (s.pss.state ∈ [.headerReady, .waitStart, .transfer, .done] → Requested s.log) ∧
    (s.pss.state ∈ [.transfer, .done] → StartedAfterReply s.log)

/-- A frame moves the handshake on only if it has the type that the state
waits for. -/
def TypedAdvance (s : ServerRun) (c : ServerCall) (t : ServerRun) : Prop :=
  (s.pss.state = .connected → t.pss.state = .headerReady →
      load32 c.inp 0 = some fssFileReq) ∧
    (s.pss.state = .waitStart → t.pss.state = .transfer →
      load32 c.inp 0 = some fssFileStart)

/-- The handshake is enforced along the calls `es` of one session. -/
def HandshakeEnforced (F : Bytes) (es : List ServerCall) : Prop :=
  (∀ pre u, pre <+: es → (serverSession F).Run ServerRun.start pre u → HandshakeOrder u) ∧
    ∀ pre c u t, pre ++ [c] <+: es → (serverSession F).Run ServerRun.start pre u →
      (serverSession F).step u c t → TypedAdvance u c t

/-- The frame that the header check lets through is a request, and the frame
that opens the file is a start. -/
def FrameExpected (s : ServerRun) (c : ServerCall) : Prop :=
  c.reason = .receive →
    (s.pss.state = .connected → headerRefused c.inp = some false →
        load32 c.inp 0 = some fssFileReq) ∧
      (s.pss.state = .waitStart → c.io.fopen = true →
        load32 c.inp 0 = some fssFileStart)

/-- Every frame of the session that moves it on has the expected type. -/
def FramesExpected (F : Bytes) (es : List ServerCall) : Prop :=
  ∀ pre c u t, pre ++ [c] <+: es → (serverSession F).Run ServerRun.start pre u →
    (serverSession F).step u c t → FrameExpected u c

/-- In one step the types are right exactly when the frame is expected. -/
theorem typedAdvance_iff_frameExpected {F : Bytes} {s t : ServerRun} {c : ServerCall}
    (h : ServerTransition F s c t) : TypedAdvance s c t ↔ FrameExpected s c := by
  cases h with
  | headerRefused hreason hstate hhdr => simp [TypedAdvance, FrameExpected, hstate, hhdr]
  | headerAccepted hreason hstate hhdr =>
      simp [TypedAdvance, FrameExpected, hreason, hstate, hhdr]
  | started hreason hstate hopen =>
      simp [TypedAdvance, FrameExpected, hreason, hstate, hopen]
  | notOpened hreason hstate hopen => simp [TypedAdvance, FrameExpected, hstate, hopen]
  | ignored _ hconn hwait => simp [TypedAdvance, FrameExpected, hconn, hwait]
  | replied hreason hstate => simp [TypedAdvance, FrameExpected, hreason, hstate]
  | replyFailed hreason hstate => simp [TypedAdvance, FrameExpected, hreason, hstate]
  | sent hreason hstate => simp [TypedAdvance, FrameExpected, hreason, hstate]
  | sendFailed hreason hstate => simp [TypedAdvance, FrameExpected, hreason, hstate]
  | idle hreason =>
      have hstay : ∀ st st' : FileServerState, st ≠ st' → s.pss.state = st →
          s.pss.state ≠ st' := fun st st' hne heq ↦ heq ▸ hne
      constructor
      · intro _ hcontra
        exact (hreason hcontra).elim
      · intro _
        exact ⟨fun hs ht ↦ (hstay _ _ (by decide) hs ht).elim,
          fun hs ht ↦ (hstay _ _ (by decide) hs ht).elim⟩

/-- What the log of a session holds in each state when every frame so far was
expected. -/
def HandshakePhase (s : ServerRun) : Prop :=
  match s.pss.state with
  | .headerReady => Requested s.log
  | .waitStart => Requested s.log ∧ Replied s.log
  | .transfer | .done => Requested s.log ∧ StartedAfterReply s.log
  | _ => True

theorem handshakePhase_step {F : Bytes} {s t : ServerRun} {c : ServerCall}
    (hexp : FrameExpected s c) (hs : HandshakePhase s) (h : ServerTransition F s c t) :
    HandshakePhase t := by
  have hframe (log : List ServerLog) : c.inp ∈ receivedFrames (log ++ [.received c.inp]) := by
    simp [receivedFrames]
  cases h with
  | headerRefused => exact trivial
  | headerAccepted hreason hstate hhdr =>
      exact ⟨c.inp, hframe _, (hexp hreason).1 hstate hhdr⟩
  | started hreason hstate hopen =>
      simp only [HandshakePhase, hstate] at hs
      obtain ⟨hreq, hrep⟩ := hs
      refine ⟨hreq.append _, s.log, [.received c.inp], rfl, hrep, c.inp, hframe [], ?_⟩
      exact (hexp hreason).2 hstate hopen
  | notOpened => exact trivial
  | ignored =>
      cases hstate : s.pss.state <;> simp only [HandshakePhase, hstate] at hs ⊢
      · exact hs.append _
      · exact ⟨hs.1.append _, hs.2.append _⟩
      · exact ⟨hs.1.append _, hs.2.append _⟩
      · exact ⟨hs.1.append _, hs.2.append _⟩
  | replied _ hstate =>
      simp only [HandshakePhase, hstate] at hs
      exact ⟨hs.append _, respOk c.io, by simp, load32_respOk _⟩
  | replyFailed => exact hs
  | @sent _ blk _ hstate =>
      simp only [HandshakePhase, hstate] at hs
      have hlog : Requested (s.log ++ [.queued (contentWrite blk)]) ∧
          StartedAfterReply (s.log ++ [.queued (contentWrite blk)]) :=
        ⟨hs.1.append _, hs.2.append _⟩
      by_cases hlast : blk.length < 10000
      · simpa only [HandshakePhase, if_pos hlast] using hlog
      · simpa only [HandshakePhase, if_neg hlast] using hlog
  | sendFailed => exact hs
  | idle => exact hs

theorem handshakeOrder_of_phase {s : ServerRun} (h : HandshakePhase s) : HandshakeOrder s := by
  cases hstate : s.pss.state <;> simp only [HandshakePhase, hstate] at h <;>
    simp [HandshakeOrder, hstate, h]

theorem handshakeOrder_of_reachable {F : Bytes} {s : ServerRun}
    (h : ((serverSession F).restrict FrameExpected).Reachable s) : HandshakeOrder s := by
  have hinv : ((serverSession F).restrict FrameExpected).Invariant HandshakePhase :=
    { init := by
        rintro s rfl
        exact trivial
      step := by
        rintro s c t hs ⟨hstep, hexp⟩
        exact handshakePhase_step hexp hs (serverTransition_of_step hstep).2 }
  exact handshakeOrder_of_phase (hinv.reachable h)

/-- For every sequence of calls: the handshake is enforced by message type if
and only if every frame that moves the session on has the expected type. -/
theorem handshake_enforced_iff_frames_expected (F : Bytes) (es : List ServerCall) :
    HandshakeEnforced F es ↔ FramesExpected F es := by
  constructor
  · rintro ⟨_, htyped⟩ pre c u t hle hrun hstep
    exact (typedAdvance_iff_frameExpected (serverTransition_of_step hstep).2).mp
      (htyped pre c u t hle hrun hstep)
  · intro hexp
    constructor
    · intro pre u hle hrun
      have hrun' := hrun.restrict_of_steps (C := FrameExpected)
        fun pre' c v w hle' ↦ hexp pre' c v w (hle'.trans hle)
      exact handshakeOrder_of_reachable ⟨_, pre, rfl, hrun'⟩
    · intro pre c u t hle hrun hstep
      exact (typedAdvance_iff_frameExpected (serverTransition_of_step hstep).2).mpr
        (hexp pre c u t hle hrun hstep)

/-- A single `FSS_DUMMY` frame with an acceptable size puts the session into
`FSS_HEADER_READY` although nothing was requested. -/
theorem handshake_not_enforced_dummy :
    ¬HandshakeEnforced [] [⟨.receive, headerFrame fssDummy, .ok⟩] := by
  rintro ⟨horder, _⟩
  let calls : List ServerCall := [⟨.receive, headerFrame fssDummy, .ok⟩]
  have hready : ∃ u, calls.foldlM (serverStep []) ServerRun.start = some u ∧
      u.pss.state = .headerReady ∧ ¬Requested u.log := by
    refine ⟨⟨⟨.headerReady, [], 1, [], none⟩, [.received (headerFrame fssDummy)], false⟩, ?_⟩
    decide +kernel
  obtain ⟨u, hu, hstate, hnot⟩ := hready
  have hrun := horder calls u (List.prefix_refl _) (Lts.run_ofStep_iff.mpr hu)
  exact hnot (hrun.1 (by simp [hstate]))

end EsNotebook.FileTransfer
