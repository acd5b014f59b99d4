import EsNotebook.FileTransfer.Server

/-!
# The size in an accepted header

`callback_file_server` refuses a header whose `int` size is greater than
`FSS_MAX_FILE_SIZE`, and stores the size of any other with the right magic.
The comparison is signed, so a header with the top bit of its size set is
accepted as well.
-/

namespace EsNotebook.FileTransfer

open CMemory

/-- The stored size lies in the range of file sizes, and the header that set
it, the first frame of the session, carried the magic. -/
structure SizeWithinLimit (s : ServerRun) : Prop where
  nonneg : 0 ≤ s.pss.filesize.toInt
  le_max : s.pss.filesize.toInt ≤ fssMaxFileSize
  header : ∃ frame type, s.log.head? = some (.received frame) ∧
    load32 frame 0 = some type ∧ fssGetMagic type = fssMagic ∧
      load32 frame 4 = some s.pss.filesize

/-- A header that the call does not refuse has a size that is not negative. -/
def AcceptsNonneg (s : ServerRun) (c : ServerCall) : Prop :=
  c.reason = .receive → s.pss.state = .connected → headerRefused c.inp = some false →
    ∀ size, load32 c.inp 4 = some size → 0 ≤ size.toInt

/-- The header that a call accepts. -/
def acceptedFrames (s : ServerRun) (c : ServerCall) : List Bytes :=
  if c.reason = .receive ∧ s.pss.state = .connected ∧ headerRefused c.inp = some false then
    [c.inp]
  else []

theorem headerRefused_eq_false_iff {inp : Bytes} : headerRefused inp = some false ↔
    ∃ type size, load32 inp 0 = some type ∧ fssGetMagic type = fssMagic ∧
      load32 inp 4 = some size ∧ size.toInt ≤ fssMaxFileSize := by
  unfold headerRefused
  constructor
  · intro h
    obtain ⟨type, htype, h⟩ := Option.bind_eq_some_iff.mp h
    split at h
    case isTrue => simp at h
    case isFalse hmagic =>
      obtain ⟨size, hsize, h⟩ := Option.bind_eq_some_iff.mp h
      exact ⟨type, size, htype, not_not.mp hmagic, hsize, by simpa using h⟩
  · rintro ⟨type, size, htype, hmagic, hsize, hle⟩
    simp [htype, hmagic, hsize, hle]

/-- The headers that a session has accepted, at most one, and what it keeps of
them. -/
inductive AcceptPhase (s : ServerRun) : List Bytes → Prop
  | waiting (hstate : s.pss.state = .connected) (hlog : s.log = []) : AcceptPhase s []
  | refused (hstate : s.pss.state = .error) : AcceptPhase s []
  | accepted {frame : Bytes} (hstate : s.pss.state ≠ .connected)
      (hhead : s.log.head? = some (.received frame))
      (hhdr : headerRefused frame = some false)
      (hsize : load32 frame 4 = some s.pss.filesize) : AcceptPhase s [frame]

theorem acceptedFrames_of_not_connected {s : ServerRun} {c : ServerCall}
    (h : s.pss.state ≠ .connected) : acceptedFrames s c = [] :=
  if_neg fun hall ↦ h hall.2.1

theorem acceptPhase_step_waiting {F : Bytes} {s t : ServerRun} {c : ServerCall}
    (hstate : s.pss.state = .connected) (hlog : s.log = []) (h : ServerTransition F s c t) :
    AcceptPhase t (acceptedFrames s c) := by
  cases h with
  | headerRefused _ _ hhdr =>
      have hnone : acceptedFrames s c = [] := by simp [acceptedFrames, hhdr]
      rw [hnone]
      exact .refused rfl
  | headerAccepted hreason _ hhdr _ _ hsize =>
      have hone : acceptedFrames s c = [c.inp] := if_pos ⟨hreason, hstate, hhdr⟩
      rw [hone]
      exact .accepted (by simp) (by simp [hlog]) hhdr hsize
  | idle hreason =>
      have hnone : acceptedFrames s c = [] := if_neg fun hall ↦ hreason hall.1
      rw [hnone]
      exact .waiting hstate hlog
  | started _ hother | notOpened _ hother | replied _ hother | replyFailed _ hother
  | sent _ hother | sendFailed _ hother => simp [hstate] at hother
  | ignored _ hconn => exact absurd hstate hconn

/-- Once a header has been accepted its size stays, and no other is looked at. -/
theorem acceptPhase_step_accepted {F : Bytes} {s t : ServerRun} {c : ServerCall} {frame : Bytes}
    (hstate : s.pss.state ≠ .connected) (hhead : s.log.head? = some (.received frame))
    (hhdr : headerRefused frame = some false)
    (hsize : load32 frame 4 = some s.pss.filesize) (h : ServerTransition F s c t) :
    AcceptPhase t [frame] := by
  have hgrow (e : ServerLog) : (s.log ++ [e]).head? = some (.received frame) := by
    simp [List.head?_append, hhead]
  cases h with
  | headerRefused _ hconn | headerAccepted _ hconn => exact absurd hconn hstate
  | started | notOpened | replied => exact .accepted (by simp) (hgrow _) hhdr hsize
  | ignored => exact .accepted hstate (hgrow _) hhdr hsize
  | replyFailed | sendFailed => exact .accepted hstate hhead hhdr hsize
  | @sent pos blk =>
      refine .accepted ?_ (hgrow _) hhdr hsize
      by_cases hlast : blk.length < 10000 <;> simp [hlast]
  | idle => exact .accepted hstate hhead hhdr hsize

theorem acceptPhase_of_run {F : Bytes} {es : List ServerCall} {s : ServerRun}
    (h : (serverSession F).Run .start es s) :
    AcceptPhase s (Lts.outputs (serverStep F) acceptedFrames .start es) := by
  induction h with
  | nil => exact .waiting rfl rfl
  | @snoc es s t c hrun hstep ih =>
      obtain ⟨-, htrans⟩ := serverTransition_of_step hstep
      rw [Lts.outputs_snoc hrun]
      generalize Lts.outputs (serverStep F) acceptedFrames .start es = frames at ih
      cases ih with
      | waiting hstate hlog => exact acceptPhase_step_waiting hstate hlog htrans
      | refused hstate =>
          rw [acceptedFrames_of_not_connected (by simp [hstate])]
          have herror : t.pss.state = .error := by
            cases htrans with
            | headerRefused | notOpened => rfl
            | headerAccepted _ hother | started _ hother | replied _ hother | sent _ hother =>
                simp [hstate] at hother
            | ignored | replyFailed | sendFailed | idle => exact hstate
          exact .refused herror
      | accepted hstate hhead hhdr hsize =>
          rw [acceptedFrames_of_not_connected hstate]
          exact acceptPhase_step_accepted hstate hhead hhdr hsize htrans

/-- A state at or after `FSS_HEADER_READY` keeps one accepted header. -/
theorem accepted_of_headerReady {F : Bytes} {es fs : List ServerCall} {u s : ServerRun}
    (hrun : (serverSession F).Run .start es u) (hready : u.pss.state = .headerReady)
    (hlater : (serverSession F).Run u fs s) :
    ∃ frame, Lts.outputs (serverStep F) acceptedFrames .start (es ++ fs) = [frame] ∧
      s.log.head? = some (.received frame) ∧ headerRefused frame = some false ∧
        load32 frame 4 = some s.pss.filesize := by
  induction hlater with
  | nil =>
      have hphase := acceptPhase_of_run hrun
      rw [List.append_nil]
      generalize Lts.outputs (serverStep F) acceptedFrames .start es = frames at hphase
      cases hphase with
      | waiting hstate | refused hstate => simp [hready] at hstate
      | accepted _ hhead hhdr hsize => exact ⟨_, rfl, hhead, hhdr, hsize⟩
  | @snoc fs s t c hmore hstep ih =>
      obtain ⟨frame, hone, -⟩ := ih
      have hwhole := hrun.append hmore
      have hphase := acceptPhase_of_run (hwhole.snoc hstep)
      rw [Lts.outputs_snoc hwhole, hone] at hphase
      rw [← List.append_assoc, Lts.outputs_snoc hwhole, hone]
      generalize hframes : [frame] ++ acceptedFrames s c = frames at hphase ⊢
      cases hphase with
      | waiting | refused => simp at hframes
      | accepted _ hhead hhdr hsize => exact ⟨_, rfl, hhead, hhdr, hsize⟩

/-- A session at or after `FSS_HEADER_READY` has a size within the limit
exactly when the header it accepted did not carry a negative one. -/
theorem size_within_limit_iff (F : Bytes) (es fs : List ServerCall) (u s : ServerRun) :
    (serverSession F).Run .start es u → u.pss.state = .headerReady →
      (serverSession F).Run u fs s →
        (SizeWithinLimit s ↔ ∀ x c y, (serverSession F).Passes .start (es ++ fs) s x c y →
          AcceptsNonneg x c) := by
  intro hrun hready hlater
  have hwhole := hrun.append hlater
  obtain ⟨frame, hone, hhead, hhdr, hsize⟩ := accepted_of_headerReady hrun hready hlater
  have hmem (x : Bytes) : x ∈ [frame] ↔ ∃ v c y,
      (serverSession F).Passes .start (es ++ fs) s v c y ∧ x ∈ acceptedFrames v c := by
    rw [← hone]
    exact Lts.mem_outputs_iff hwhole
  constructor
  · intro hlimit x c y hpass hreason hstate hok size hload
    have hframe : c.inp = frame := by
      apply List.mem_singleton.mp
      exact (hmem c.inp).mpr ⟨x, c, y, hpass, by simp [acceptedFrames, hreason, hstate, hok]⟩
    rw [hframe, hsize] at hload
    rw [← Option.some.inj hload]
    exact hlimit.nonneg
  · intro hcond
    obtain ⟨x, c, y, hpass, hc⟩ := (hmem frame).mp (List.mem_singleton_self frame)
    have haccepts : c.reason = .receive ∧ x.pss.state = .connected ∧
        headerRefused c.inp = some false := by
      by_contra hno
      simp [acceptedFrames, hno] at hc
    have hframe : c.inp = frame := by
      simpa [acceptedFrames, haccepts, eq_comm] using hc
    obtain ⟨type, size, htype, hmagic, hload, hle⟩ := headerRefused_eq_false_iff.mp hhdr
    obtain rfl := Option.some.inj (hsize.symm.trans hload)
    refine ⟨?_, hle, frame, type, hhead, htype, hmagic, hsize⟩
    exact hcond x c y hpass haccepts.1 haccepts.2.1 haccepts.2.2 _ (hframe ▸ hsize)

theorem size_within_limit_iff_request : ∃ call u,
    (serverSession []).Run .start [call] u ∧ u.pss.state = .headerReady ∧
      (SizeWithinLimit u ↔ ∀ x c y, (serverSession []).Passes .start ([call] ++ []) u x c y →
        AcceptsNonneg x c) := by
  let call : ServerCall := ⟨.receive, headerFrame fssFileReq, .ok⟩
  have hreplay : ∃ u, (serverSession []).Run .start [call] u ∧ u.pss.state = .headerReady := by
    apply Lts.exists_run_of_replay
    decide +kernel
  obtain ⟨u, hrun, hready⟩ := hreplay
  exact ⟨call, u, hrun, hready, size_within_limit_iff [] [call] [] u u hrun hready .nil⟩

/-- A request with size `0x80000000`. -/
def negativeRequest : Bytes :=
  ({ FssHeaderHsk.zero with type := fssFileReq, filesize := 0x80000000 } : FssHeaderHsk).toBytes

theorem negative_size_accepted :
    ¬∀ F es fs u s, (serverSession F).Run .start es u → u.pss.state = .headerReady →
      (serverSession F).Run u fs s → SizeWithinLimit s := by
  intro h
  let call : ServerCall := ⟨.receive, negativeRequest, .ok⟩
  have hreplay : ∃ s, (serverSession []).Run .start [call] s ∧
      s.pss.state = .headerReady ∧ s.pss.filesize.toInt < 0 := by
    apply Lts.exists_run_of_replay
    decide +kernel
  obtain ⟨s, hrun, hready, hneg⟩ := hreplay
  have hlimit := h [] [call] [] s s hrun hready .nil
  have hnonneg := hlimit.nonneg
  omega

end EsNotebook.FileTransfer
