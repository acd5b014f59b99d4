import EsNotebook.Lib.Lts
import EsNotebook.FileTransfer.Header

/-!
# The file server callback

`callbackFileServer` is `callback_file_server` of `test-server-file.c`.  What
the environment decides during one call (the stack garbage, the results of
`lws_write`, `fopen` and `fread`) is an argument.  The result is `none` where
C leaves the behaviour undefined: a read past the end of the frame, a string
that does not fit its field, a null `FILE *`.

A session is the sequence of calls after `LWS_CALLBACK_ESTABLISHED`;
`serverStep` runs one call and logs the frames received and the payloads
queued.  `ServerTransition` lists everything one call can do, and every later
invariant is proved from that list.
-/

namespace EsNotebook.FileTransfer

open CMemory

/-- `struct per_session_file_info`; `fp` is the position in `testfile.bin`,
`none` for a null pointer. -/
structure PerSessionFileInfo where
  state : FileServerState
  filename : Bytes
  filesize : BitVec 32
  checksum : Bytes
  fp : Option ℕ
  deriving DecidableEq, Repr

/-- The session memory as the library allocates it, all bytes zero. -/
def PerSessionFileInfo.zero : PerSessionFileInfo :=
  { state := .none, filename := [], filesize := 0, checksum := [], fp := none }

/-- What the environment answers during one server callback. -/
structure ServerIo where
  /-- the uninitialised bytes of `buf`, seen as a header -/
  stack : FssHeaderHsk
  /-- the `int` that `lws_write` returns -/
  lwsWrite : BitVec 32
  /-- whether `fopen("testfile.bin", "rb")` succeeds -/
  fopen : Bool
  /-- a read error in `fread` after so many bytes -/
  freadError : Option (Fin 10000)

inductive ServerReason where
  | established
  | serverWriteable
  | receive
  | filterProtocolConnection
  | wsPeerInitiatedClose
  | other
  deriving DecidableEq, Repr

/-- The session after the call, the `lws_write` the call makes, if any, and
its return value. -/
structure ServerOutcome where
  pss : PerSessionFileInfo
  write : Option LwsWrite
  ret : ℤ

/-- `fread(buf, 1, 10000, fp)` on a file with content `F` at position `pos`. -/
def fread (F : Bytes) (pos : ℕ) (err : Option (Fin 10000)) : Bytes :=
  match err with
  | none => (F.drop pos).take 10000
  | some k => (F.drop pos).take k

theorem fread_eq_take (F : Bytes) (pos : ℕ) (err : Option (Fin 10000)) :
    fread F pos err = (F.drop pos).take (fread F pos err).length := by
  cases err <;> simp [fread, List.take_eq_take_iff]

theorem fread_length_le (F : Bytes) (pos : ℕ) (err : Option (Fin 10000)) :
    (fread F pos err).length ≤ F.length - pos := by
  cases err <;> simp [fread]

/-- The condition under which a received header is refused.  The size is
read only when the magic is right. -/
def headerRefused (inp : Bytes) : Option Bool := do
  let type ← load32 inp 0
  if fssGetMagic type ≠ fssMagic then some true
  else
    let filesize ← load32 inp 4
    some (decide (fssMaxFileSize < filesize.toInt))

def serverReceive (io : ServerIo) (pss : PerSessionFileInfo) (inp : Bytes) :
    Option PerSessionFileInfo :=
  match pss.state with
  | .connected => do
      if ← headerRefused inp then some { pss with state := .error }
      else
        let filename ← strcpyField fssMaxFilenameLen (inp.drop FssHeaderHsk.filenameOffset)
        let checksum ← strcpyField fssFileChecksumLen (inp.drop FssHeaderHsk.checksumOffset)
        let filesize ← load32 inp 4
        some { pss with
          filename := filename, checksum := checksum, filesize := filesize
          state := .headerReady }
  | .waitStart =>
      -- the frame is not looked at: any frame starts the transfer
      if io.fopen then some { pss with fp := some 0, state := .transfer }
      else some { pss with fp := none, state := .error }
  | _ => do
      -- the type only selects which message is printed
      let _type ← load32 inp 0
      some pss

def serverWriteable (F : Bytes) (io : ServerIo) (pss : PerSessionFileInfo) :
    Option ServerOutcome :=
  match pss.state with
  | .headerReady =>
      let hdr := { io.stack with type := fssFileRespOk }
      let w : LwsWrite :=
        ⟨.fileRespOk, lwsPre, lwsPre + 10240, hdr.toBytes.take fssHskHdrSize⟩
      if io.lwsWrite.toInt < fssHskHdrSize then some ⟨pss, some w, -1⟩
      else some ⟨{ pss with state := .waitStart }, some w, 0⟩
  | .transfer => do
      let pos ← pss.fp
      let block := fread F pos io.freadError
      -- unlike the reply, the block is passed from the start of the array
      let w : LwsWrite := ⟨.fileContent, 0, lwsPre + 10240, block⟩
      let pss := { pss with fp := some (pos + block.length) }
      if io.lwsWrite.toInt < block.length then some ⟨pss, some w, -1⟩
      else if block.length < 10000 then some ⟨{ pss with state := .done }, some w, 0⟩
      else some ⟨pss, some w, 0⟩
  | _ => some ⟨pss, none, 0⟩

def callbackFileServer (F : Bytes) (io : ServerIo) (reason : ServerReason)
    (pss : PerSessionFileInfo) (inp : Bytes) : Option ServerOutcome :=
  match reason with
  | .established => some ⟨{ pss with state := .connected }, none, 0⟩
  | .serverWriteable => serverWriteable F io pss
  | .receive => (serverReceive io pss inp).map (⟨·, none, 0⟩)
  | .filterProtocolConnection | .wsPeerInitiatedClose | .other => some ⟨pss, none, 0⟩

/-! ## Sessions -/

/-- What a session has seen and sent, oldest first. -/
inductive ServerLog where
  | received (frame : Bytes)
  | queued (w : LwsWrite)
  deriving DecidableEq, Repr

structure ServerRun where
  pss : PerSessionFileInfo
  log : List ServerLog
  closed : Bool
  deriving DecidableEq, Repr

/-- One call of the callback after `ESTABLISHED`. -/
structure ServerCall where
  reason : ServerReason
  inp : Bytes
  io : ServerIo

/-- The session after a call with outcome `o`.  A write that is not accepted
whole ends the session, and so does a non-zero return value. -/
def ServerRun.after (s : ServerRun) (c : ServerCall) (o : ServerOutcome) : ServerRun :=
  let log := if c.reason = .receive then s.log ++ [.received c.inp] else s.log
  match o.write with
  | none => ⟨o.pss, log, decide (o.ret ≠ 0)⟩
  | some w =>
      if w.Queued c.io.lwsWrite then ⟨o.pss, log ++ [.queued w], decide (o.ret ≠ 0)⟩
      else ⟨o.pss, log, true⟩

/-- One callback of an open session. -/
def serverStep (F : Bytes) (s : ServerRun) (c : ServerCall) : Option ServerRun :=
  if s.closed ∨ c.reason = .established then none
  else (callbackFileServer F c.io c.reason s.pss c.inp).map (s.after c)

/-- The session that `ESTABLISHED` leaves. -/
def ServerRun.start : ServerRun :=
  { pss := { PerSessionFileInfo.zero with state := .connected }, log := [], closed := false }

theorem start_eq_established (F : Bytes) (io : ServerIo) (inp : Bytes) :
    callbackFileServer F io .established PerSessionFileInfo.zero inp =
      some ⟨ServerRun.start.pss, none, 0⟩ := rfl

def serverSession (F : Bytes) : Lts ServerRun ServerCall :=
  Lts.ofStep ServerRun.start (serverStep F)

/-- An environment in which every call succeeds. -/
def ServerIo.ok : ServerIo :=
  { stack := FssHeaderHsk.zero, lwsWrite := 10000, fopen := true, freadError := none }

/-- Request, reply and start, as a well-behaved client drives them. -/
def handshakeCalls : List ServerCall :=
  [⟨.receive, headerFrame fssFileReq, .ok⟩, ⟨.serverWriteable, [], .ok⟩,
    ⟨.receive, headerFrame fssFileStart, .ok⟩]

/-- The reply that accepts a header: eight bytes, the last four of them
whatever the stack held. -/
def respOk (io : ServerIo) : LwsWrite :=
  ⟨.fileRespOk, lwsPre, lwsPre + 10240,
    ({ io.stack with type := fssFileRespOk } : FssHeaderHsk).toBytes.take fssHskHdrSize⟩

/-- The write of one block of the file. -/
def contentWrite (block : Bytes) : LwsWrite :=
  ⟨.fileContent, 0, lwsPre + 10240, block⟩

@[simp] theorem respOk_payload_length (io : ServerIo) : (respOk io).payload.length = 8 := by
  simp [respOk, fssHskHdrSize, FssHeaderHsk.size]

@[simp] theorem load32_respOk (io : ServerIo) :
    load32 (respOk io).payload 0 = some fssFileRespOk := by
  rw [respOk, FssHeaderHsk.load32_type_take_hdr]

/-- Everything one call does to an open session. -/
inductive ServerTransition (F : Bytes) (s : ServerRun) (c : ServerCall) : ServerRun → Prop
  | headerRefused (hreason : c.reason = .receive) (hstate : s.pss.state = .connected)
      (hhdr : headerRefused c.inp = some true) :
      ServerTransition F s c
        ⟨{ s.pss with state := .error }, s.log ++ [.received c.inp], false⟩
  | headerAccepted {filename checksum : Bytes} {filesize : BitVec 32}
      (hreason : c.reason = .receive) (hstate : s.pss.state = .connected)
      (hhdr : FileTransfer.headerRefused c.inp = some false)
      (hname : strcpyField 256 (c.inp.drop 40) = some filename)
      (hsum : strcpyField 32 (c.inp.drop 8) = some checksum)
      (hsize : load32 c.inp 4 = some filesize) :
      ServerTransition F s c
        ⟨{ s.pss with filename, checksum, filesize, state := .headerReady },
          s.log ++ [.received c.inp], false⟩
  | started (hreason : c.reason = .receive) (hstate : s.pss.state = .waitStart)
      (hopen : c.io.fopen = true) :
      ServerTransition F s c
        ⟨{ s.pss with fp := some 0, state := .transfer }, s.log ++ [.received c.inp], false⟩
  | notOpened (hreason : c.reason = .receive) (hstate : s.pss.state = .waitStart)
      (hopen : c.io.fopen = false) :
      ServerTransition F s c
        ⟨{ s.pss with fp := none, state := .error }, s.log ++ [.received c.inp], false⟩
  | ignored (hreason : c.reason = .receive) (hconn : s.pss.state ≠ .connected)
      (hwait : s.pss.state ≠ .waitStart) (hread : 4 ≤ c.inp.length) :
      ServerTransition F s c ⟨s.pss, s.log ++ [.received c.inp], false⟩
  | replied (hreason : c.reason = .serverWriteable) (hstate : s.pss.state = .headerReady)
      (hwrite : (respOk c.io).Queued c.io.lwsWrite) :
      ServerTransition F s c
        ⟨{ s.pss with state := .waitStart }, s.log ++ [.queued (respOk c.io)], false⟩
  | replyFailed (hreason : c.reason = .serverWriteable) (hstate : s.pss.state = .headerReady)
      (hwrite : ¬(respOk c.io).Queued c.io.lwsWrite) :
      ServerTransition F s c ⟨s.pss, s.log, true⟩
  | sent {pos : ℕ} {block : Bytes} (hreason : c.reason = .serverWriteable)
      (hstate : s.pss.state = .transfer) (hpos : s.pss.fp = some pos)
      (hblock : block = fread F pos c.io.freadError)
      (hwrite : (contentWrite block).Queued c.io.lwsWrite) :
      ServerTransition F s c
        ⟨{ s.pss with
            fp := some (pos + block.length)
            state := if block.length < 10000 then .done else .transfer },
          s.log ++ [.queued (contentWrite block)], false⟩
  | sendFailed {pos : ℕ} {block : Bytes} (hreason : c.reason = .serverWriteable)
      (hstate : s.pss.state = .transfer) (hpos : s.pss.fp = some pos)
      (hblock : block = fread F pos c.io.freadError)
      (hwrite : ¬(contentWrite block).Queued c.io.lwsWrite) :
      ServerTransition F s c
        ⟨{ s.pss with fp := some (pos + block.length) }, s.log, true⟩
  | idle (hreason : c.reason ≠ .receive)
      (hstate : c.reason = .serverWriteable →
        s.pss.state ≠ .headerReady ∧ s.pss.state ≠ .transfer) :
      ServerTransition F s c s

theorem serverStep_eq_some {F : Bytes} {s t : ServerRun} {c : ServerCall} :
    serverStep F s c = some t ↔
      (s.closed = false ∧ c.reason ≠ .established) ∧
        ∃ o, callbackFileServer F c.io c.reason s.pss c.inp = some o ∧ s.after c o = t := by
  unfold serverStep
  by_cases h : s.closed ∨ c.reason = .established
  · have hno : ¬(s.closed = false ∧ c.reason ≠ .established) := by
      rintro ⟨hopen, hreason⟩
      simp [hopen, hreason] at h
    simp [h, hno]
  · have hyes : s.closed = false ∧ c.reason ≠ .established := by
      simpa using h
    rw [if_neg h, Option.map_eq_some_iff]
    simp [hyes]

namespace ServerRun

variable {s : ServerRun} {c : ServerCall} {pss : PerSessionFileInfo} {w : LwsWrite} {r : ℤ}

theorem after_received (hreason : c.reason = .receive) :
    s.after c ⟨pss, none, 0⟩ = ⟨pss, s.log ++ [.received c.inp], false⟩ := by
  simp [after, hreason]

theorem after_queued (hreason : c.reason ≠ .receive) (hwrite : w.Queued c.io.lwsWrite) :
    s.after c ⟨pss, some w, r⟩ = ⟨pss, s.log ++ [.queued w], decide (r ≠ 0)⟩ := by
  simp [after, hreason, hwrite]

theorem after_short (hreason : c.reason ≠ .receive) (hwrite : ¬w.Queued c.io.lwsWrite) :
    s.after c ⟨pss, some w, r⟩ = ⟨pss, s.log, true⟩ := by
  simp [after, hreason, hwrite]

theorem after_pss {o : ServerOutcome} : (s.after c o).pss = o.pss := by
  unfold after
  cases o.write with
  | none => rfl
  | some w =>
      dsimp only
      split <;> rfl

theorem after_idle (hopen : s.closed = false) (hreason : c.reason ≠ .receive) :
    s.after c ⟨s.pss, none, 0⟩ = s := by
  cases s
  simp_all [after]

end ServerRun

theorem serverTransition_of_receive {F : Bytes} {s : ServerRun} {c : ServerCall}
    {pss : PerSessionFileInfo} (hreason : c.reason = .receive)
    (h : serverReceive c.io s.pss c.inp = some pss) :
    ServerTransition F s c ⟨pss, s.log ++ [.received c.inp], false⟩ := by
  unfold serverReceive at h
  split at h
  case h_1 hstate =>
    obtain ⟨refused, hhdr, h⟩ := Option.bind_eq_some_iff.mp h
    cases refused with
    | true =>
        obtain rfl := Option.some.inj h
        exact .headerRefused hreason hstate hhdr
    | false =>
        obtain ⟨filename, hname, h⟩ := Option.bind_eq_some_iff.mp h
        obtain ⟨checksum, hsum, h⟩ := Option.bind_eq_some_iff.mp h
        obtain ⟨filesize, hsize, h⟩ := Option.bind_eq_some_iff.mp h
        obtain rfl := Option.some.inj h
        exact .headerAccepted hreason hstate hhdr hname hsum hsize
  case h_2 hstate =>
    split at h
    case isTrue hopen =>
      obtain rfl := Option.some.inj h
      exact .started hreason hstate hopen
    case isFalse hopen =>
      obtain rfl := Option.some.inj h
      exact .notOpened hreason hstate (by simpa using hopen)
  case h_3 hconn hwait =>
    obtain ⟨type, htype, h⟩ := Option.bind_eq_some_iff.mp h
    obtain rfl := Option.some.inj h
    have hread : 0 + 4 ≤ c.inp.length := load32_isSome_iff.mp (by simp [htype])
    exact .ignored hreason hconn hwait (by simpa using hread)

theorem serverTransition_of_writeable {F : Bytes} {s : ServerRun} {c : ServerCall}
    {o : ServerOutcome} (hopen : s.closed = false) (hreason : c.reason = .serverWriteable)
    (h : serverWriteable F c.io s.pss = some o) :
    ServerTransition F s c (s.after c o) := by
  have hnot : c.reason ≠ .receive := by simp [hreason]
  unfold serverWriteable at h
  split at h
  case h_1 hstate =>
    dsimp only at h
    split at h
    case isTrue hshort =>
      have hwrite : ¬(respOk c.io).Queued c.io.lwsWrite := by
        simpa [LwsWrite.Queued, fssHskHdrSize] using hshort
      obtain rfl : ⟨s.pss, some (respOk c.io), -1⟩ = o := Option.some.inj h
      rw [ServerRun.after_short hnot hwrite]
      exact .replyFailed hreason hstate hwrite
    case isFalse hfull =>
      have hwrite : (respOk c.io).Queued c.io.lwsWrite := by
        simpa [LwsWrite.Queued, fssHskHdrSize] using hfull
      obtain rfl : ⟨{ s.pss with state := .waitStart }, some (respOk c.io), 0⟩ = o :=
        Option.some.inj h
      rw [ServerRun.after_queued hnot hwrite]
      exact .replied hreason hstate hwrite
  case h_2 hstate =>
    obtain ⟨pos, hpos, h⟩ := Option.bind_eq_some_iff.mp h
    generalize hblock : fread F pos c.io.freadError = block at h
    dsimp only at h
    split at h
    case isTrue hshort =>
      have hwrite : ¬(contentWrite block).Queued c.io.lwsWrite := by
        simpa [LwsWrite.Queued, contentWrite] using hshort
      obtain rfl : ⟨{ s.pss with fp := some (pos + block.length) },
        some (contentWrite block), -1⟩ = o := Option.some.inj h
      rw [ServerRun.after_short hnot hwrite]
      exact .sendFailed hreason hstate hpos hblock.symm hwrite
    case isFalse hfull =>
      have hwrite : (contentWrite block).Queued c.io.lwsWrite := by
        simpa [LwsWrite.Queued, contentWrite] using hfull
      have hsent := ServerTransition.sent hreason hstate hpos hblock.symm hwrite
      split at h
      case isTrue hlast =>
        obtain rfl : ⟨{ s.pss with fp := some (pos + block.length), state := .done },
          some (contentWrite block), 0⟩ = o := Option.some.inj h
        rw [ServerRun.after_queued hnot hwrite]
        rw [if_pos hlast] at hsent
        exact hsent
      case isFalse hmore =>
        obtain rfl : ⟨{ s.pss with fp := some (pos + block.length) },
          some (contentWrite block), 0⟩ = o := Option.some.inj h
        rw [ServerRun.after_queued hnot hwrite]
        rw [if_neg hmore, ← hstate] at hsent
        exact hsent
  case h_3 hready htransfer =>
    obtain rfl : ⟨s.pss, none, 0⟩ = o := Option.some.inj h
    rw [ServerRun.after_idle hopen hnot]
    exact .idle hnot fun _ ↦ ⟨hready, htransfer⟩

theorem serverTransition_of_step {F : Bytes} {s t : ServerRun} {c : ServerCall}
    (h : serverStep F s c = some t) : s.closed = false ∧ ServerTransition F s c t := by
  obtain ⟨⟨hopen, hestablished⟩, o, ho, rfl⟩ := serverStep_eq_some.mp h
  refine ⟨hopen, ?_⟩
  have hidle (hnot : c.reason ≠ .receive) (hwrite : c.reason ≠ .serverWriteable)
      (ho : some (ServerOutcome.mk s.pss none 0) = some o) :
      ServerTransition F s c (s.after c o) := by
    rw [← Option.some.inj ho, ServerRun.after_idle hopen hnot]
    exact .idle hnot fun hcontra ↦ (hwrite hcontra).elim
  cases hreason : c.reason with
  | established => exact (hestablished hreason).elim
  | serverWriteable =>
      rw [hreason] at ho
      exact serverTransition_of_writeable hopen hreason ho
  | receive =>
      rw [hreason] at ho
      obtain ⟨pss, hpss, rfl⟩ := Option.map_eq_some_iff.mp ho
      rw [ServerRun.after_received hreason]
      exact serverTransition_of_receive hreason hpss
  | filterProtocolConnection =>
      rw [hreason] at ho
      exact hidle (by simp [hreason]) (by simp [hreason]) ho
  | wsPeerInitiatedClose =>
      rw [hreason] at ho
      exact hidle (by simp [hreason]) (by simp [hreason]) ho
  | other =>
      rw [hreason] at ho
      exact hidle (by simp [hreason]) (by simp [hreason]) ho

end EsNotebook.FileTransfer
