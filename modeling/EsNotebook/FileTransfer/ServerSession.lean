import EsNotebook.Lib.Pipe
import EsNotebook.FileTransfer.Server

/-!
# A server session against an arbitrary client

The peer chooses the frames and the event loop chooses when `WRITEABLE`
fires.  `SessionPhase` ties the state of the session to the payloads queued
so far; one call preserves it, so it holds after any sequence of calls.
-/

namespace EsNotebook.FileTransfer

open CMemory

def queuedWrites (log : List ServerLog) : List LwsWrite :=
  log.filterMap fun
    | .queued w => some w
    | .received _ => none

@[simp] theorem queuedWrites_received (log : List ServerLog) (frame : Bytes) :
    queuedWrites (log ++ [.received frame]) = queuedWrites log := by
  simp [queuedWrites]

@[simp] theorem queuedWrites_queued (log : List ServerLog) (w : LwsWrite) :
    queuedWrites (log ++ [.queued w]) = queuedWrites log ++ [w] := by
  simp [queuedWrites]

/-- The first `k` blocks of the file as they are queued. -/
def contentWrites (F : Bytes) (k : ℕ) : List LwsWrite :=
  (List.range k).map fun i ↦ contentWrite (block 10000 F i)

@[simp] theorem contentWrites_zero (F : Bytes) : contentWrites F 0 = [] := rfl

theorem contentWrites_succ (F : Bytes) (k : ℕ) :
    contentWrites F (k + 1) = contentWrites F k ++ [contentWrite (block 10000 F k)] := by
  simp [contentWrites, List.range_succ]

@[simp] theorem contentWrites_length (F : Bytes) (k : ℕ) :
    (contentWrites F k).length = k := by
  simp [contentWrites]

theorem flatten_contentWrites (F : Bytes) (k : ℕ) :
    ((contentWrites F k).map LwsWrite.payload).flatten = F.take (10000 * k) := by
  rw [contentWrites, List.map_map]
  exact flatten_map_block 10000 F k

/-- No read of `testfile.bin` fails: `fread` is short only at end of file. -/
def NoReadError (_ : ServerRun) (c : ServerCall) : Prop :=
  c.reason = .serverWriteable → c.io.freadError = none

theorem fread_eq_block {F : Bytes} {k : ℕ} {err : Option (Fin 10000)} (herr : err = none) :
    fread F (10000 * k) err = block 10000 F k := by
  subst herr
  rfl

/-- What has been queued in each state.  The file position is that of the
queued blocks unless the session ended in a failed write. -/
def SessionPhase (F : Bytes) (s : ServerRun) : Prop :=
  match s.pss.state with
  | .none => False
  | .connected | .headerReady => queuedWrites s.log = []
  | .waitStart => ∃ io, queuedWrites s.log = [respOk io]
  | .transfer => ∃ io k, queuedWrites s.log = respOk io :: contentWrites F k ∧
      k ≤ F.length / 10000 ∧ (s.closed = false → s.pss.fp = some (10000 * k))
  | .done => (∃ io, queuedWrites s.log =
      respOk io :: contentWrites F (F.length / 10000 + 1)) ∧ s.pss.fp = some F.length
  | .error => queuedWrites s.log = [] ∨ ∃ io, queuedWrites s.log = [respOk io]

theorem sessionPhase_step {F : Bytes} {s t : ServerRun} {c : ServerCall}
    (hread : NoReadError s c) (hopen : s.closed = false) (hs : SessionPhase F s)
    (h : ServerTransition F s c t) : SessionPhase F t := by
  cases h with
  | headerRefused _ hstate _ =>
      simp only [SessionPhase, hstate] at hs
      simp [SessionPhase, hs]
  | headerAccepted _ hstate =>
      simp only [SessionPhase, hstate] at hs
      simp [SessionPhase, hs]
  | started _ hstate _ =>
      simp only [SessionPhase, hstate] at hs
      obtain ⟨io, hio⟩ := hs
      exact ⟨io, 0, by simp [hio], Nat.zero_le _, fun _ ↦ rfl⟩
  | notOpened _ hstate _ =>
      simp only [SessionPhase, hstate] at hs
      exact Or.inr (by simpa using hs)
  | ignored =>
      simpa [SessionPhase, hopen] using hs
  | replied _ hstate _ =>
      simp only [SessionPhase, hstate] at hs
      exact ⟨c.io, by simp [hs]⟩
  | replyFailed _ hstate _ =>
      simpa [SessionPhase, hstate] using hs
  | @sent pos blk hreason hstate hpos hblock _ =>
      simp only [SessionPhase, hstate] at hs
      obtain ⟨io, k, hqueued, hk, hfp⟩ := hs
      have hpos' : pos = 10000 * k := Option.some.inj (hpos.symm.trans (hfp hopen))
      rw [hpos', fread_eq_block (hread hreason)] at hblock
      have hlast := block_length_lt_iff (by omega) hk
      rw [← hblock] at hlast
      have hqueued' : queuedWrites (s.log ++ [.queued (contentWrite blk)]) =
          respOk io :: contentWrites F (k + 1) := by
        rw [queuedWrites_queued, hqueued, contentWrites_succ, hblock, List.cons_append]
      by_cases hshort : blk.length < 10000
      · simp only [SessionPhase, if_pos hshort]
        refine ⟨⟨io, hlast.mp hshort ▸ hqueued'⟩, ?_⟩
        have hmul : 10000 * k ≤ F.length := by omega
        have hlen : blk.length = min 10000 (F.length - 10000 * k) := by simp [hblock]
        rw [hpos']
        congr 1
        omega
      · simp only [SessionPhase, if_neg hshort]
        have hne : k ≠ F.length / 10000 := fun heq ↦ hshort (hlast.mpr heq)
        have hfull : blk.length = 10000 := by
          have hle : blk.length ≤ 10000 := by simp [hblock]
          omega
        refine ⟨io, k + 1, hqueued', by omega, fun _ ↦ ?_⟩
        rw [hpos', hfull, Nat.mul_succ]
  | sendFailed _ hstate _ _ _ =>
      simp only [SessionPhase, hstate] at hs ⊢
      obtain ⟨io, k, hqueued, hk, _⟩ := hs
      exact ⟨io, k, hqueued, hk, nofun⟩
  | idle => exact hs

theorem sessionPhase_of_reachable {F : Bytes} {s : ServerRun}
    (h : ((serverSession F).restrict NoReadError).Reachable s) : SessionPhase F s := by
  have hinv : ((serverSession F).restrict NoReadError).Invariant (SessionPhase F) :=
    { init := by
        rintro s rfl
        rfl
      step := by
        rintro s c t hs ⟨hstep, hread⟩
        obtain ⟨hopen, htrans⟩ := serverTransition_of_step hstep
        exact sessionPhase_step hread hopen hs htrans }
  exact hinv.reachable h

/-! ## The order of the states -/

/-- The edges of the state machine, and staying where one is. -/
inductive ServerMoves : FileServerState → FileServerState → Prop
  | stay (st : FileServerState) : ServerMoves st st
  | accept : ServerMoves .connected .headerReady
  | refuse : ServerMoves .connected .error
  | reply : ServerMoves .headerReady .waitStart
  | start : ServerMoves .waitStart .transfer
  | noFile : ServerMoves .waitStart .error
  | finish : ServerMoves .transfer .done

theorem serverMoves_of_transition {F : Bytes} {s t : ServerRun} {c : ServerCall}
    (h : ServerTransition F s c t) : ServerMoves s.pss.state t.pss.state := by
  cases h with
  | headerRefused _ hstate _ => exact hstate ▸ .refuse
  | headerAccepted _ hstate => exact hstate ▸ .accept
  | started _ hstate _ => exact hstate ▸ .start
  | notOpened _ hstate _ => exact hstate ▸ .noFile
  | ignored => exact .stay _
  | replied _ hstate _ => exact hstate ▸ .reply
  | replyFailed => exact .stay _
  | @sent _ blk _ hstate =>
      rw [hstate]
      by_cases hlast : blk.length < 10000
      · simpa only [if_pos hlast] using ServerMoves.finish
      · simpa only [if_neg hlast] using ServerMoves.stay .transfer
  | sendFailed => exact .stay _
  | idle => exact .stay _

/-- A frame that arrives in any state but the two that expect one changes
nothing. -/
theorem pss_eq_of_unexpected_frame {F : Bytes} {s t : ServerRun} {c : ServerCall}
    (h : ServerTransition F s c t) (hopen : s.closed = false) (hreason : c.reason = .receive)
    (hconn : s.pss.state ≠ .connected) (hwait : s.pss.state ≠ .waitStart) :
    t = { s with log := s.log ++ [.received c.inp] } := by
  cases h with
  | headerRefused _ hstate _ => exact (hconn hstate).elim
  | headerAccepted _ hstate => exact (hconn hstate).elim
  | started _ hstate _ => exact (hwait hstate).elim
  | notOpened _ hstate _ => exact (hwait hstate).elim
  | ignored => rw [hopen]
  | replied hwrite => simp [hreason] at hwrite
  | replyFailed hwrite => simp [hreason] at hwrite
  | sent hwrite => simp [hreason] at hwrite
  | sendFailed hwrite => simp [hreason] at hwrite
  | idle hnot => exact (hnot hreason).elim

/-- The number of `WRITEABLE` calls in the transfer state whose block was
queued. -/
def contentCalls (s : ServerRun) : ℕ :=
  (queuedWrites s.log).countP fun w ↦ w.site = .fileContent

/-- Only a successful `WRITEABLE` call in the transfer state counts. -/
theorem contentCalls_of_transition {F : Bytes} {s t : ServerRun} {c : ServerCall}
    (h : ServerTransition F s c t) :
    contentCalls t = contentCalls s +
      if c.reason = .serverWriteable ∧ s.pss.state = .transfer ∧ t.closed = false
        then 1 else 0 := by
  cases h with
  | headerRefused hreason => simp [contentCalls, hreason]
  | headerAccepted hreason => simp [contentCalls, hreason]
  | started hreason => simp [contentCalls, hreason]
  | notOpened hreason => simp [contentCalls, hreason]
  | ignored hreason => simp [contentCalls, hreason]
  | replied _ hstate => simp [contentCalls, hstate, respOk]
  | replyFailed => simp [contentCalls]
  | sent hreason hstate => simp [contentCalls, hreason, hstate, contentWrite]
  | sendFailed => simp [contentCalls]
  | idle _ hstate =>
      rw [if_neg fun h ↦ (hstate h.1).2 h.2.1]
      rfl

@[simp] theorem countP_contentWrites (F : Bytes) (k : ℕ) :
    (contentWrites F k).countP (fun w ↦ decide (w.site = .fileContent)) = k := by
  rw [List.countP_eq_length.mpr, contentWrites_length]
  intro w hw
  obtain ⟨i, _, rfl⟩ := List.mem_map.mp hw
  simp [contentWrite]

theorem contentCalls_respOk {F : Bytes} {s : ServerRun} {io : ServerIo} {k : ℕ}
    (h : queuedWrites s.log = respOk io :: contentWrites F k) : contentCalls s = k := by
  rw [contentCalls, h, List.countP_cons, countP_contentWrites]
  simp [respOk]

theorem contentCalls_of_sessionPhase {F : Bytes} {s : ServerRun} (h : SessionPhase F s) :
    s.pss.state = .done ↔ contentCalls s = F.length / 10000 + 1 := by
  have hzero (hq : queuedWrites s.log = [] ∨ ∃ io, queuedWrites s.log = [respOk io]) :
      contentCalls s = 0 := by
    rcases hq with hq | ⟨io, hq⟩
    · simp [contentCalls, hq]
    · exact contentCalls_respOk (F := F) (k := 0) hq
  unfold SessionPhase at h
  split at h
  case h_1 => exact h.elim
  case h_2 hstate => simp [hstate, hzero (.inl h)]
  case h_3 hstate => simp [hstate, hzero (.inl h)]
  case h_4 hstate => simp [hstate, hzero (.inr h)]
  case h_5 hstate =>
    obtain ⟨io, k, hqueued, hk, _⟩ := h
    rw [hstate, contentCalls_respOk hqueued]
    simp only [reduceCtorEq, false_iff]
    omega
  case h_6 hstate =>
    obtain ⟨⟨io, hqueued⟩, _⟩ := h
    rw [hstate, contentCalls_respOk hqueued]
    simp
  case h_7 hstate => simp [hstate, hzero h]

/-- One 8-byte `FSS_FILE_RESP_OK` header, then the blocks of the file from the
first on. -/
def ReplyThenBlocks (F : Bytes) (ws : List LwsWrite) : Prop :=
  ∃ hdr k, ws = hdr :: contentWrites F k ∧ hdr.site = .fileRespOk ∧
    hdr.payload.length = 8 ∧ load32 hdr.payload 0 = some fssFileRespOk

theorem replyThenBlocks_respOk {F : Bytes} {ws : List LwsWrite} {io : ServerIo} {k : ℕ}
    (h : ws = respOk io :: contentWrites F k) : ReplyThenBlocks F ws :=
  ⟨respOk io, k, h, rfl, respOk_payload_length io, load32_respOk io⟩

theorem replyThenBlocks_of_sessionPhase {F : Bytes} {s : ServerRun} (h : SessionPhase F s) :
    queuedWrites s.log = [] ∨ ReplyThenBlocks F (queuedWrites s.log) := by
  unfold SessionPhase at h
  split at h
  case h_1 => exact h.elim
  case h_2 => exact .inl h
  case h_3 => exact .inl h
  case h_4 =>
    obtain ⟨io, hqueued⟩ := h
    exact .inr (replyThenBlocks_respOk (k := 0) hqueued)
  case h_5 =>
    obtain ⟨io, k, hqueued, _⟩ := h
    exact .inr (replyThenBlocks_respOk hqueued)
  case h_6 =>
    obtain ⟨⟨io, hqueued⟩, _⟩ := h
    exact .inr (replyThenBlocks_respOk hqueued)
  case h_7 =>
    rcases h with h | ⟨io, hqueued⟩
    · exact .inl h
    · exact .inr (replyThenBlocks_respOk (k := 0) hqueued)

/-- What a session that has been driven into `s` has done and can do next. -/
structure ServerSessionSpec (F : Bytes) (s : ServerRun) : Prop where
  moves : ∀ c t, serverStep F s c = some t → ServerMoves s.pss.state t.pss.state
  ignores : ∀ c t, serverStep F s c = some t → c.reason = .receive →
    s.pss.state ≠ .connected → s.pss.state ≠ .waitStart →
      t = { s with log := s.log ++ [.received c.inp] }
  queued : queuedWrites s.log = [] ∨ ReplyThenBlocks F (queuedWrites s.log)
  counts : ∀ c t, serverStep F s c = some t → contentCalls t = contentCalls s +
    if c.reason = .serverWriteable ∧ s.pss.state = .transfer ∧ t.closed = false
      then 1 else 0
  done_iff : s.pss.state = .done ↔ contentCalls s = F.length / 10000 + 1
  complete : s.pss.state = .done →
    ((queuedWrites s.log).tail.map LwsWrite.payload).flatten = F
  silent : s.pss.state = .done → ∀ c t, serverStep F s c = some t →
    queuedWrites t.log = queuedWrites s.log

theorem queuedWrites_of_done {F : Bytes} {s t : ServerRun} {c : ServerCall}
    (h : ServerTransition F s c t) (hdone : s.pss.state = .done) :
    queuedWrites t.log = queuedWrites s.log := by
  cases h with
  | headerRefused | headerAccepted | started | notOpened | ignored => simp
  | replied _ hstate => simp [hdone] at hstate
  | replyFailed => rfl
  | sent _ hstate => simp [hdone] at hstate
  | sendFailed => rfl
  | idle => rfl

/-- Any client, any order of frames and `WRITEABLE` calls: a session without
read errors goes through its states in order, answers once, and sends the
file block by block until exactly all of it has been sent. -/
theorem serverSession_meets_spec (F : Bytes) (s : ServerRun)
    (h : ((serverSession F).restrict NoReadError).Reachable s) : ServerSessionSpec F s := by
  have hphase := sessionPhase_of_reachable h
  refine
    { moves := ?_, ignores := ?_, counts := ?_, complete := ?_, silent := ?_
      queued := replyThenBlocks_of_sessionPhase hphase
      done_iff := contentCalls_of_sessionPhase hphase }
  · intro c t hstep
    exact serverMoves_of_transition (serverTransition_of_step hstep).2
  · intro c t hstep hreason hconn hwait
    obtain ⟨hopen, htrans⟩ := serverTransition_of_step hstep
    exact pss_eq_of_unexpected_frame htrans hopen hreason hconn hwait
  · intro c t hstep
    exact contentCalls_of_transition (serverTransition_of_step hstep).2
  · intro hdone
    simp only [SessionPhase, hdone] at hphase
    obtain ⟨⟨io, hqueued⟩, _⟩ := hphase
    rw [hqueued, List.tail_cons, contentWrites, List.map_map]
    exact flatten_map_block_all (by omega) F
  · intro hdone c t hstep
    exact queuedWrites_of_done (serverTransition_of_step hstep).2 hdone

theorem serverSession_meets_spec_two_bytes :
    ∃ s, s.pss.state = .done ∧ ServerSessionSpec [72, 105] s := by
  let calls := handshakeCalls ++ [⟨.serverWriteable, [], .ok⟩]
  obtain ⟨s, hs⟩ : ∃ s, calls.foldlM (serverStep [72, 105]) ServerRun.start = some s :=
    Option.isSome_iff_exists.mp (by decide +kernel)
  have hdone : (calls.foldlM (serverStep [72, 105]) ServerRun.start).map
      (fun t : ServerRun ↦ t.pss.state) = some FileServerState.done := by decide +kernel
  refine ⟨s, by simpa [hs] using hdone, serverSession_meets_spec _ _ ?_⟩
  have hrun : (serverSession [72, 105]).Run ServerRun.start calls s :=
    Lts.run_ofStep_iff.mpr hs
  have hread : ∀ c ∈ calls, c.io.freadError = none := by decide +kernel
  exact ⟨ServerRun.start, calls, rfl, hrun.restrict fun c hc _ _ ↦ hread c hc⟩

end EsNotebook.FileTransfer
