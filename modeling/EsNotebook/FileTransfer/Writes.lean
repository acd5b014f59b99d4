import EsNotebook.FileTransfer.Client
import EsNotebook.FileTransfer.Server

/-!
# The calls of `lws_write`

Both machines pass a pointer into a local array to `lws_write` and compare
the `int` that it returns with the count they passed.  Two things are asked
of every such call: a short write must leave the session in its state, and
the `LWS_PRE` bytes before the pointer, which the library may overwrite, must
lie in the array.
-/

namespace EsNotebook.FileTransfer

open CMemory

/-- The writes that a callback makes, whatever becomes of them. -/
def serverSends (F : Bytes) (s : ServerRun) (c : ServerCall) : List LwsWrite :=
  ((callbackFileServer F c.io c.reason s.pss c.inp).bind ServerOutcome.write).toList

def clientSends (s : ClientRun) (c : ClientCall) : List LwsWrite :=
  ((callbackFileClient c.io c.reason s.psc c.inp).bind ClientOutcome.write).toList

/-- A call that sends the next block of the file. -/
structure SendsContent (s : ServerRun) (c : ServerCall) : Prop where
  reason : c.reason = .serverWriteable
  state : s.pss.state = .transfer

/-- A call that sends one of the two headers of the client. -/
structure SendsHeader (s : ClientRun) (c : ClientCall) : Prop where
  reason : c.reason = .writeable
  state : s.psc.state = .connected ∨ s.psc.state = .confirmed ∧ c.io.fopen = true

/-- The state field moves only with a write that was accepted whole; any other
write makes the callback return -1. -/
def MovesOnlyIfQueued {σ : Type} (before after : σ) (write : Option LwsWrite)
    (r : BitVec 32) (ret : ℤ) : Prop :=
  match write with
  | none => after = before
  | some w => w.Queued r ∨ ret = -1 ∧ after = before

/-! ## The server -/

/-- What a `SERVER_WRITEABLE` call sends in each state. -/
theorem serverWriteable_cases {F : Bytes} {io : ServerIo} {pss : PerSessionFileInfo}
    {o : ServerOutcome} (h : serverWriteable F io pss = some o) :
    MovesOnlyIfQueued pss.state o.pss.state o.write io.lwsWrite o.ret ∧
      (pss.state = .headerReady ∧ o.write = some (respOk io) ∨
        pss.state = .transfer ∧ (∃ block, o.write = some (contentWrite block)) ∨
        pss.state ≠ .transfer ∧ o.write = none) := by
  unfold serverWriteable at h
  split at h
  case h_1 hstate =>
    dsimp only at h
    split at h
    case isTrue =>
      obtain rfl := Option.some.inj h
      exact ⟨.inr ⟨rfl, rfl⟩, .inl ⟨hstate, rfl⟩⟩
    case isFalse hfull =>
      obtain rfl := Option.some.inj h
      have hwrite : (respOk io).Queued io.lwsWrite := by
        simpa [LwsWrite.Queued, fssHskHdrSize] using hfull
      exact ⟨.inl hwrite, .inl ⟨hstate, rfl⟩⟩
  case h_2 hstate =>
    obtain ⟨pos, -, h⟩ := Option.bind_eq_some_iff.mp h
    generalize fread F pos io.freadError = block at h
    have hqueued (hfull : ¬io.lwsWrite.toInt < block.length) :
        (contentWrite block).Queued io.lwsWrite := by
      simpa [LwsWrite.Queued, contentWrite] using hfull
    dsimp only at h
    split at h
    case isTrue =>
      obtain rfl := Option.some.inj h
      exact ⟨.inr ⟨rfl, rfl⟩, .inr (.inl ⟨hstate, block, rfl⟩)⟩
    case isFalse hfull =>
      split at h <;> obtain rfl := Option.some.inj h <;>
        exact ⟨.inl (hqueued hfull), .inr (.inl ⟨hstate, block, rfl⟩)⟩
  case h_3 _ htransfer =>
    obtain rfl := Option.some.inj h
    exact ⟨rfl, .inr (.inr ⟨htransfer, rfl⟩)⟩

/-- The callback of an open session is defined in every state but a transfer
without a file. -/
theorem exists_serverWriteable {F : Bytes} (io : ServerIo) {pss : PerSessionFileInfo}
    (h : pss.state = .transfer → pss.fp.isSome) : ∃ o, serverWriteable F io pss = some o := by
  unfold serverWriteable
  split
  case h_1 =>
    dsimp only
    split <;> exact ⟨_, rfl⟩
  case h_2 hstate =>
    obtain ⟨pos, hpos⟩ := Option.isSome_iff_exists.mp (h hstate)
    rw [hpos, Option.bind_eq_bind, Option.bind_some]
    dsimp only
    split
    · exact ⟨_, rfl⟩
    · split <;> exact ⟨_, rfl⟩
  case h_3 => exact ⟨_, rfl⟩

theorem fp_isSome_of_reachable {F : Bytes} {s : ServerRun}
    (h : (serverSession F).Reachable s) : s.pss.state = .transfer → s.pss.fp.isSome := by
  have hinv : (serverSession F).Invariant fun s ↦
      s.pss.state = .transfer → s.pss.fp.isSome :=
    { init := by
        rintro s rfl
        simp [ServerRun.start]
      step := by
        intro s c t hs hstep
        obtain ⟨-, htrans⟩ := serverTransition_of_step hstep
        cases htrans with
        | headerRefused | headerAccepted | notOpened | replied => simp
        | started | sent | sendFailed => simp
        | ignored | replyFailed | idle => exact hs }
  exact hinv.reachable h

theorem write_eq_none_of_not_writeable {F : Bytes} {io : ServerIo} {reason : ServerReason}
    {pss : PerSessionFileInfo} {inp : Bytes} {o : ServerOutcome}
    (hreason : reason ≠ .serverWriteable)
    (h : callbackFileServer F io reason pss inp = some o) : o.write = none := by
  cases reason with
  | serverWriteable => exact absurd rfl hreason
  | receive =>
      obtain ⟨pss', -, rfl⟩ := Option.map_eq_some_iff.mp h
      rfl
  | established | filterProtocolConnection | wsPeerInitiatedClose | other =>
      rw [← Option.some.inj h]

/-! ## The client -/

/-- What a `CLIENT_WRITEABLE` call sends: a header from the start of the array,
or nothing. -/
theorem clientWriteable_cases (io : ClientIo) (psc : PerSessionFileClientInfo) :
    (psc.state = .connected ∨ psc.state = .confirmed ∧ io.fopen = true) ∧
        (∃ w, (clientWriteable io psc).write = some w ∧
          w.payload.length = FssHeaderHsk.size ∧ w.offset = 0) ∧
        (if ltSizeofHeader io.lwsWrite then (clientWriteable io psc).ret = -1 ∧
            (clientWriteable io psc).psc.state = psc.state
          else (clientWriteable io psc).ret = 0) ∨
      ¬(psc.state = .connected ∨ psc.state = .confirmed ∧ io.fopen = true) ∧
        (clientWriteable io psc).write = none ∧
        (clientWriteable io psc).psc.state = psc.state := by
  unfold clientWriteable
  split
  case h_1 hstate =>
    refine .inl ⟨.inl hstate, ⟨requestWrite, ?_, requestWrite_payload_length, rfl⟩, ?_⟩
    · split <;> rfl
    · split <;> simp
  case h_2 hstate =>
    by_cases hopen : io.fopen = true
    · rw [if_pos hopen]
      refine .inl ⟨.inr ⟨hstate, hopen⟩,
        ⟨startWrite io, ?_, startWrite_payload_length io, rfl⟩, ?_⟩
      · dsimp only
        split <;> rfl
      · dsimp only
        split <;> simp
    · rw [if_neg hopen]
      refine .inr ⟨?_, rfl, rfl⟩
      simp [hstate, hopen]
  case h_3 hconn hconf =>
    refine .inr ⟨?_, rfl, rfl⟩
    rintro (hstate | ⟨hstate, -⟩)
    · exact hconn hstate
    · exact hconf hstate

theorem clientReceive_write {psc : PerSessionFileClientInfo} {inp : Bytes} {o : ClientOutcome}
    (h : clientReceive psc inp = some o) : o.write = none := by
  unfold clientReceive at h
  split at h
  case h_1 =>
    obtain ⟨type, -, h⟩ := Option.bind_eq_some_iff.mp h
    split at h <;> rw [← Option.some.inj h]
  case h_2 =>
    dsimp only at h
    split at h
    · split at h <;> rw [← Option.some.inj h]
    · cases h
  case h_3 => rw [← Option.some.inj h]

/-- The comparison with `sizeof` in terms of the `int` that was returned: a
negative one is a large `size_t`. -/
theorem ltSizeofHeader_iff {r : BitVec 32} :
    ltSizeofHeader r = true ↔ 0 ≤ r.toInt ∧ r.toInt < FssHeaderHsk.size := by
  have hext : (r.signExtend 64).toInt = r.toInt := BitVec.toInt_signExtend_of_le (by omega)
  have hlt := r.isLt
  have hwide := (r.signExtend 64).isLt
  rw [ltSizeofHeader, decide_eq_true_iff]
  rw [BitVec.toInt_eq_toNat_cond] at hext
  rw [BitVec.toInt_eq_toNat_cond] at hext ⊢
  simp only [FssHeaderHsk.size] at *
  split at hext <;> split at hext <;> split <;> omega

/-! ## Failed writes -/

theorem clientWriteable_moves_iff (io : ClientIo) (psc : PerSessionFileClientInfo) :
    MovesOnlyIfQueued psc.state (clientWriteable io psc).psc.state (clientWriteable io psc).write
        io.lwsWrite (clientWriteable io psc).ret ↔
      0 ≤ io.lwsWrite.toInt ∨
        ¬(psc.state = .connected ∨ psc.state = .confirmed ∧ io.fopen = true) := by
  rcases clientWriteable_cases io psc with ⟨hsends, ⟨w, hwrite, hlen, -⟩, hret⟩ |
    ⟨hno, hwrite, hstate⟩
  · have hqueued : w.Queued io.lwsWrite ↔ (FssHeaderHsk.size : ℤ) ≤ io.lwsWrite.toInt := by
      rw [LwsWrite.Queued, hlen]
    simp only [hwrite, MovesOnlyIfQueued, hsends, not_true, or_false, hqueued]
    by_cases hshort : ltSizeofHeader io.lwsWrite = true
    · rw [if_pos hshort] at hret
      obtain ⟨hnonneg, -⟩ := ltSizeofHeader_iff.mp hshort
      simp [hret, hnonneg]
    · rw [if_neg hshort] at hret
      have hrange : ¬(0 ≤ io.lwsWrite.toInt ∧ io.lwsWrite.toInt < FssHeaderHsk.size) :=
        fun h ↦ hshort (ltSizeofHeader_iff.mpr h)
      simp only [hret, FssHeaderHsk.size] at hrange ⊢
      constructor
      · rintro (hle | ⟨hcontra, -⟩) <;> omega
      · intro hnonneg
        left
        omega
  · simp [hwrite, MovesOnlyIfQueued, hstate, hno]

/-- The server keeps its state on every failed write.  The client does exactly
when the write reports no error: it takes a negative result for a large one. -/
theorem failed_write_keeps_state_iff (F : Bytes) :
    (∀ s io inp, (serverSession F).Reachable s →
      ∃ o, callbackFileServer F io .serverWriteable s.pss inp = some o ∧
        MovesOnlyIfQueued s.pss.state o.pss.state o.write io.lwsWrite o.ret) ∧
    ∀ s io inp, clientSession.Reachable s →
      ∃ o, callbackFileClient io .writeable s.psc inp = some o ∧
        (MovesOnlyIfQueued s.psc.state o.psc.state o.write io.lwsWrite o.ret ↔
          0 ≤ io.lwsWrite.toInt ∨ ¬SendsHeader s ⟨.writeable, inp, io⟩) := by
  constructor
  · intro s io inp h
    obtain ⟨o, ho⟩ := exists_serverWriteable io (fp_isSome_of_reachable h)
    exact ⟨o, ho, (serverWriteable_cases ho).1⟩
  · intro s io inp _
    refine ⟨_, rfl, ?_⟩
    have hsends : SendsHeader s ⟨.writeable, inp, io⟩ ↔
        (s.psc.state = .connected ∨ s.psc.state = .confirmed ∧ io.fopen = true) :=
      ⟨SendsHeader.state, fun hstate ↦ ⟨rfl, hstate⟩⟩
    rw [hsends]
    exact clientWriteable_moves_iff io s.psc

/-- The write of the request returns -1 and the client waits for the reply. -/
theorem client_advances_on_error :
    ¬∀ s io inp, clientSession.Reachable s →
      ∃ o, callbackFileClient io .writeable s.psc inp = some o ∧
        MovesOnlyIfQueued s.psc.state o.psc.state o.write io.lwsWrite o.ret := by
  intro h
  obtain ⟨o, ho, hmoves⟩ := h ClientRun.start { ClientIo.ok with lwsWrite := -1 } [] (.of_init rfl)
  have hall := (clientWriteable_moves_iff { ClientIo.ok with lwsWrite := -1 }
    ClientRun.start.psc).mp (Option.some.inj ho ▸ hmoves)
  rcases hall with hnonneg | hno
  · exact absurd hnonneg (by decide)
  · exact hno (.inl rfl)

/-! ## Room for the frame header -/

/-- The `LWS_PRE` bytes before the pointer and the bytes passed lie in the
array. -/
structure LwsWrite.HasRoom (w : LwsWrite) : Prop where
  pre : lwsPre ≤ w.offset
  fits : w.offset + w.payload.length ≤ w.size

theorem respOk_hasRoom (io : ServerIo) : (respOk io).HasRoom := by
  refine ⟨Nat.le_refl _, ?_⟩
  rw [respOk_payload_length]
  simp [respOk]

theorem not_hasRoom_of_offset {w : LwsWrite} (h : w.offset = 0) : ¬w.HasRoom := by
  rintro ⟨hpre, -⟩
  simp [h, lwsPre] at hpre

/-- The reply of the server has room, a block of the file has none. -/
theorem serverSends_hasRoom_iff {F : Bytes} {s t : ServerRun} {c : ServerCall}
    (h : (serverSession F).step s c t) :
    (∀ w ∈ serverSends F s c, w.HasRoom) ↔ ¬SendsContent s c := by
  obtain ⟨-, o, ho, -⟩ := serverStep_eq_some.mp h
  have hsends : serverSends F s c = o.write.toList := by
    simp [serverSends, ho]
  rw [hsends]
  by_cases hreason : c.reason = .serverWriteable
  · rw [hreason] at ho
    obtain ⟨-, ⟨hstate, hwrite⟩ | ⟨hstate, block, hwrite⟩ | ⟨hstate, hwrite⟩⟩ :=
      serverWriteable_cases ho
    · have hno : ¬SendsContent s c := fun hcontent ↦ by simp [hcontent.state] at hstate
      simp [hwrite, hno, respOk_hasRoom]
    · have hcontent : SendsContent s c := ⟨hreason, hstate⟩
      have hroom : ¬(contentWrite block).HasRoom := not_hasRoom_of_offset rfl
      simp [hwrite, hcontent, hroom]
    · have hno : ¬SendsContent s c := fun hcontent ↦ hstate hcontent.state
      simp [hwrite, hno]
  · have hno : ¬SendsContent s c := fun hcontent ↦ hreason hcontent.reason
    simp [write_eq_none_of_not_writeable hreason ho, hno]

/-- The headers of the client have none either. -/
theorem clientSends_hasRoom_iff {s t : ClientRun} {c : ClientCall}
    (h : clientSession.step s c t) :
    (∀ w ∈ clientSends s c, w.HasRoom) ↔ ¬SendsHeader s c := by
  obtain ⟨-, o, ho, -⟩ := clientStep_eq_some.mp h
  have hsends : clientSends s c = o.write.toList := by
    simp [clientSends, ho]
  rw [hsends]
  by_cases hreason : c.reason = .writeable
  · rw [hreason] at ho
    obtain rfl := Option.some.inj ho
    rcases clientWriteable_cases c.io s.psc with ⟨hstate, ⟨w, hwrite, -, hoffset⟩, -⟩ |
      ⟨hstate, hwrite, -⟩
    · have hheader : SendsHeader s c := ⟨hreason, hstate⟩
      simp [hwrite, hheader, not_hasRoom_of_offset hoffset]
    · have hno : ¬SendsHeader s c := fun hheader ↦ hstate hheader.state
      simp [hwrite, hno]
  · have hno : ¬SendsHeader s c := fun hheader ↦ hreason hheader.reason
    have hwrite : o.write = none := by
      cases hcase : c.reason with
      | writeable => exact absurd hcase hreason
      | receive =>
          rw [hcase] at ho
          exact clientReceive_write ho
      | established | closed | other =>
          rw [hcase] at ho
          rw [← Option.some.inj ho]
    simp [hwrite, hno]

/-- In a run of the server every send has room exactly when no step sends a
block of the file, and in a run of the client exactly when none sends a
header. -/
theorem sends_have_room_iff (F : Bytes) :
    (∀ es s, (serverSession F).Run .start es s →
      ((∀ w ∈ Lts.outputs (serverStep F) (serverSends F) .start es, w.HasRoom) ↔
        ∀ u c v, (serverSession F).Passes .start es s u c v → ¬SendsContent u c)) ∧
    ∀ es s, clientSession.Run .start es s →
      ((∀ w ∈ Lts.outputs clientStep clientSends .start es, w.HasRoom) ↔
        ∀ u c v, clientSession.Passes .start es s u c v → ¬SendsHeader u c) := by
  constructor
  · intro es s hrun
    exact Lts.forall_mem_outputs_iff (fun _ _ _ ↦ serverSends_hasRoom_iff) hrun
  · intro es s hrun
    exact Lts.forall_mem_outputs_iff (fun _ _ _ ↦ clientSends_hasRoom_iff) hrun

/-- The first header of the client starts at the first byte of the array. -/
theorem request_has_no_room :
    ¬∀ es s, clientSession.Run .start es s →
      ∀ w ∈ Lts.outputs clientStep clientSends .start es, w.HasRoom := by
  intro h
  let call : ClientCall := ⟨.writeable, [], .ok⟩
  obtain ⟨s, hs⟩ : ∃ s, clientStep .start call = some s := ⟨_, rfl⟩
  have hrun : clientSession.Run .start [call] s := .single hs
  have hsent : requestWrite ∈ Lts.outputs clientStep clientSends .start [call] := by
    have hsends : clientSends .start call = [requestWrite] := rfl
    simp [Lts.outputs, hsends]
  exact not_hasRoom_of_offset rfl (h _ _ hrun requestWrite hsent)

end EsNotebook.FileTransfer
