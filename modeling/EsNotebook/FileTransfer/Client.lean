import EsNotebook.Lib.Lts
import EsNotebook.FileTransfer.Header

/-!
# The file client callback

`callbackFileClient` is `callback_file_client` of `test-server-file.c`, in
the same style as the server: the environment's answers are an argument and
undefined behaviour is `none`.  `clientStep` runs one call of a session and
`ClientTransition` lists everything such a call can do.
-/

namespace EsNotebook.FileTransfer

open CMemory

/-- The output file: a null pointer, or what has been written to it. -/
inductive OutFile where
  | null
  | opened (content : Bytes)
  | closed (content : Bytes)
  deriving DecidableEq, Repr

def OutFile.content : OutFile → Bytes
  | .null => []
  | .opened content => content
  | .closed content => content

/-- The fields of `struct per_session_file_client_info` that the callback
uses. -/
structure PerSessionFileClientInfo where
  state : FileClientState
  bytes : BitVec 32
  outfp : OutFile
  deriving DecidableEq, Repr

/-- The session memory after `memset` in `main`. -/
def PerSessionFileClientInfo.zero : PerSessionFileClientInfo :=
  { state := .none, bytes := 0, outfp := .null }

structure ClientIo where
  /-- the uninitialised bytes of `buf`, seen as a header -/
  stack : FssHeaderHsk
  /-- the `int` that `lws_write` returns -/
  lwsWrite : BitVec 32
  /-- whether `fopen(filename, "wb")` succeeds -/
  fopen : Bool

inductive ClientReason where
  | established
  | closed
  | writeable
  | receive
  | other
  deriving DecidableEq, Repr

/-- The session after the call, its `lws_write`, the bytes it passes to
`fwrite`, its return value, and whether it called `exit(0)` instead. -/
structure ClientOutcome where
  psc : PerSessionFileClientInfo
  write : Option LwsWrite
  stored : Option Bytes
  ret : ℤ
  exited : Bool

/-- `n < sizeof(struct fss_header_hsk)` for an `int n`: both sides are
converted to `size_t`, so a negative `n` is not less. -/
def ltSizeofHeader (n : BitVec 32) : Bool :=
  (n.signExtend 64).toNat < FssHeaderHsk.size

def requestWrite : LwsWrite :=
  ⟨.fileReq, 0, lwsPre + 4096, headerFrame fssFileReq⟩

/-- The header that starts the transfer keeps the stack garbage in its
strings. -/
def startWrite (io : ClientIo) : LwsWrite :=
  ⟨.fileStart, 0, lwsPre + 4096,
    ({ io.stack with filesize := 1, type := fssFileStart } : FssHeaderHsk).toBytes⟩

/-- The byte count at which the client takes the file to be complete. -/
def expectedBytes : BitVec 32 := 83762340#32

def clientWriteable (io : ClientIo) (psc : PerSessionFileClientInfo) : ClientOutcome :=
  match psc.state with
  | .connected =>
      if ltSizeofHeader io.lwsWrite then ⟨psc, some requestWrite, none, -1, false⟩
      else ⟨{ psc with state := .waitConfirm }, some requestWrite, none, 0, false⟩
  | .confirmed =>
      if io.fopen then
        let psc := { psc with outfp := .opened [] }
        if ltSizeofHeader io.lwsWrite then ⟨psc, some (startWrite io), none, -1, false⟩
        else ⟨{ psc with state := .transfer }, some (startWrite io), none, 0, false⟩
      else ⟨{ psc with outfp := .null }, none, none, -1, false⟩
  | _ => ⟨psc, none, none, 0, false⟩  -- the dummy header is built but not sent

def clientReceive (psc : PerSessionFileClientInfo) (inp : Bytes) : Option ClientOutcome :=
  match psc.state with
  | .waitConfirm => do
      let type ← load32 inp 0
      if type = fssFileRespOk then
        some ⟨{ psc with state := .confirmed }, none, none, 0, false⟩
      else some ⟨psc, none, none, -1, false⟩
  | .transfer =>
      let bytes := psc.bytes + BitVec.ofNat 32 inp.length
      match psc.outfp with
      | .opened content =>
          if bytes = expectedBytes then
            let outfp := .closed (content ++ inp)
            some ⟨{ psc with bytes := bytes, outfp := outfp }, none, some inp, 0, true⟩
          else
            let outfp := .opened (content ++ inp)
            some ⟨{ psc with bytes := bytes, outfp := outfp }, none, some inp, 0, false⟩
      | _ => none
  | _ => some ⟨psc, none, none, 0, false⟩

def callbackFileClient (io : ClientIo) (reason : ClientReason)
    (psc : PerSessionFileClientInfo) (inp : Bytes) : Option ClientOutcome :=
  match reason with
  | .established => some ⟨{ psc with state := .connected }, none, none, 0, false⟩
  | .writeable => some (clientWriteable io psc)
  | .receive => clientReceive psc inp
  | .closed | .other => some ⟨psc, none, none, 0, false⟩

/-! ## Sessions -/

/-- What a client session has sent and stored, oldest first. -/
inductive ClientLog where
  | queued (w : LwsWrite)
  | stored (content : Bytes)
  deriving DecidableEq, Repr

structure ClientRun where
  psc : PerSessionFileClientInfo
  log : List ClientLog
  closed : Bool
  exited : Bool
  deriving DecidableEq, Repr

/-- One call of the callback after `CLIENT_ESTABLISHED`. -/
structure ClientCall where
  reason : ClientReason
  inp : Bytes
  io : ClientIo

/-- The session after a call with outcome `o`.  The connection ends with a
write that is not accepted whole, with a non-zero return value, and with the
`CLOSED` callback. -/
def ClientRun.after (s : ClientRun) (c : ClientCall) (o : ClientOutcome) : ClientRun :=
  let log := s.log ++ (o.stored.map ClientLog.stored).toList
  let ended := decide (o.ret ≠ 0) || decide (c.reason = .closed)
  match o.write with
  | none => ⟨o.psc, log, ended, o.exited⟩
  | some w =>
      if w.Queued c.io.lwsWrite then ⟨o.psc, log ++ [.queued w], ended, o.exited⟩
      else ⟨o.psc, log, true, o.exited⟩

def clientStep (s : ClientRun) (c : ClientCall) : Option ClientRun :=
  if s.closed ∨ s.exited ∨ c.reason = .established then none
  else (callbackFileClient c.io c.reason s.psc c.inp).map (s.after c)

/-- The session that `CLIENT_ESTABLISHED` leaves. -/
def ClientRun.start : ClientRun :=
  { psc := { PerSessionFileClientInfo.zero with state := .connected }
    log := [], closed := false, exited := false }

def clientSession : Lts ClientRun ClientCall :=
  Lts.ofStep .start clientStep

/-- An environment in which every call succeeds. -/
def ClientIo.ok : ClientIo :=
  { stack := FssHeaderHsk.zero, lwsWrite := 10000, fopen := true }

theorem start_eq_client_established (io : ClientIo) (inp : Bytes) :
    callbackFileClient io .established PerSessionFileClientInfo.zero inp =
      some ⟨ClientRun.start.psc, none, none, 0, false⟩ := rfl

/-- A write that is queued whole does not look short to the client. -/
theorem ltSizeofHeader_of_queued {w : LwsWrite} {r : BitVec 32}
    (hlen : w.payload.length = FssHeaderHsk.size) (h : w.Queued r) :
    ltSizeofHeader r = false := by
  have hle : (296 : ℤ) ≤ r.toInt := by
    simpa [LwsWrite.Queued, hlen, FssHeaderHsk.size] using h
  have hext : (r.signExtend 64).toInt = r.toInt := BitVec.toInt_signExtend_of_le (by omega)
  have hnat : ((r.signExtend 64).toNat : ℤ) = r.toInt := by
    rw [← hext]
    refine (BitVec.toInt_eq_toNat_of_lt ?_).symm
    have hbound := (r.signExtend 64).isLt
    rw [BitVec.toInt_eq_toNat_cond] at hext
    split at hext <;> omega
  have hge : ¬(r.signExtend 64).toNat < 296 := by omega
  exact decide_eq_false hge

/-- Everything one call does to an open client session. -/
inductive ClientTransition (s : ClientRun) (c : ClientCall) : ClientRun → Prop
  | requested (hreason : c.reason = .writeable) (hstate : s.psc.state = .connected)
      (hwrite : requestWrite.Queued c.io.lwsWrite) :
      ClientTransition s c ⟨{ s.psc with state := .waitConfirm },
        s.log ++ [.queued requestWrite], false, false⟩
  | requestFailed {t : ClientRun} (hreason : c.reason = .writeable)
      (hstate : s.psc.state = .connected) (hlog : t.log = s.log)
      (hout : t.psc.outfp = s.psc.outfp) (hclosed : t.closed = true)
      (hexited : t.exited = false) : ClientTransition s c t
  | started (hreason : c.reason = .writeable) (hstate : s.psc.state = .confirmed)
      (hopen : c.io.fopen = true) (hwrite : (startWrite c.io).Queued c.io.lwsWrite) :
      ClientTransition s c ⟨{ s.psc with outfp := .opened [], state := .transfer },
        s.log ++ [.queued (startWrite c.io)], false, false⟩
  | startFailed {t : ClientRun} (hreason : c.reason = .writeable)
      (hstate : s.psc.state = .confirmed) (hlog : t.log = s.log)
      (hout : t.psc.outfp = .opened [] ∨ t.psc.outfp = .null) (hclosed : t.closed = true)
      (hexited : t.exited = false) : ClientTransition s c t
  | confirmed (hreason : c.reason = .receive) (hstate : s.psc.state = .waitConfirm)
      (htype : load32 c.inp 0 = some fssFileRespOk) :
      ClientTransition s c ⟨{ s.psc with state := .confirmed }, s.log, false, false⟩
  | rejected {type : BitVec 32} (hreason : c.reason = .receive)
      (hstate : s.psc.state = .waitConfirm) (htype : load32 c.inp 0 = some type)
      (hne : type ≠ fssFileRespOk) :
      ClientTransition s c ⟨s.psc, s.log, true, false⟩
  | stored {content : Bytes} (hreason : c.reason = .receive)
      (hstate : s.psc.state = .transfer) (hout : s.psc.outfp = .opened content)
      (hmore : s.psc.bytes + BitVec.ofNat 32 c.inp.length ≠ expectedBytes) :
      ClientTransition s c
        ⟨{ s.psc with
            bytes := s.psc.bytes + BitVec.ofNat 32 c.inp.length
            outfp := .opened (content ++ c.inp) },
          s.log ++ [.stored c.inp], false, false⟩
  | finished {content : Bytes} (hreason : c.reason = .receive)
      (hstate : s.psc.state = .transfer) (hout : s.psc.outfp = .opened content)
      (hlast : s.psc.bytes + BitVec.ofNat 32 c.inp.length = expectedBytes) :
      ClientTransition s c
        ⟨{ s.psc with
            bytes := s.psc.bytes + BitVec.ofNat 32 c.inp.length
            outfp := .closed (content ++ c.inp) },
          s.log ++ [.stored c.inp], false, true⟩
  | unexpected (hreason : c.reason = .receive) (hwait : s.psc.state ≠ .waitConfirm)
      (htransfer : s.psc.state ≠ .transfer) : ClientTransition s c s
  | idle (hreason : c.reason ≠ .receive)
      (hstate : c.reason = .writeable →
        s.psc.state ≠ .connected ∧ s.psc.state ≠ .confirmed) :
      ClientTransition s c { s with closed := decide (c.reason = .closed) }

namespace ClientRun

variable {s : ClientRun} {c : ClientCall} {psc : PerSessionFileClientInfo} {w : LwsWrite}

theorem after_none {stored : Option Bytes} {r : ℤ} {x : Bool} (hreason : c.reason ≠ .closed) :
    s.after c ⟨psc, none, stored, r, x⟩ =
      ⟨psc, s.log ++ (stored.map ClientLog.stored).toList, decide (r ≠ 0), x⟩ := by
  simp [after, hreason]

theorem after_queued (hreason : c.reason ≠ .closed) (hwrite : w.Queued c.io.lwsWrite) :
    s.after c ⟨psc, some w, none, 0, false⟩ =
      ⟨psc, s.log ++ [.queued w], false, false⟩ := by
  simp [after, hreason, hwrite]

theorem after_psc {o : ClientOutcome} : (s.after c o).psc = o.psc := by
  unfold after
  cases o.write with
  | none => rfl
  | some w =>
      dsimp only
      split <;> rfl

theorem after_exited {o : ClientOutcome} : (s.after c o).exited = o.exited := by
  unfold after
  cases o.write with
  | none => rfl
  | some w =>
      dsimp only
      split <;> rfl

theorem after_short {r : ℤ} (hwrite : ¬w.Queued c.io.lwsWrite) :
    s.after c ⟨psc, some w, none, r, false⟩ = ⟨psc, s.log, true, false⟩ := by
  simp [after, hwrite]

end ClientRun

theorem clientStep_eq_some {s t : ClientRun} {c : ClientCall} :
    clientStep s c = some t ↔
      (s.closed = false ∧ s.exited = false ∧ c.reason ≠ .established) ∧
        ∃ o, callbackFileClient c.io c.reason s.psc c.inp = some o ∧ s.after c o = t := by
  unfold clientStep
  by_cases h : s.closed ∨ s.exited ∨ c.reason = .established
  · have hno : ¬(s.closed = false ∧ s.exited = false ∧ c.reason ≠ .established) := by
      rintro ⟨hopen, hrunning, hreason⟩
      simp [hopen, hrunning, hreason] at h
    simp [h, hno]
  · have hyes : s.closed = false ∧ s.exited = false ∧ c.reason ≠ .established := by
      simpa using h
    rw [if_neg h, Option.map_eq_some_iff]
    simp [hyes]

theorem requestWrite_payload_length : requestWrite.payload.length = FssHeaderHsk.size :=
  FssHeaderHsk.toBytes_length _

theorem startWrite_payload_length (io : ClientIo) :
    (startWrite io).payload.length = FssHeaderHsk.size :=
  FssHeaderHsk.toBytes_length _

theorem clientTransition_of_writeable {s : ClientRun} {c : ClientCall}
    (hrunning : s.exited = false) (hreason : c.reason = .writeable) :
    ClientTransition s c (s.after c (clientWriteable c.io s.psc)) := by
  have hnot : c.reason ≠ .closed := by simp [hreason]
  unfold clientWriteable
  split
  case h_1 hstate =>
    by_cases hwrite : requestWrite.Queued c.io.lwsWrite
    · rw [if_neg (by simp [ltSizeofHeader_of_queued requestWrite_payload_length hwrite]),
        ClientRun.after_queued hnot hwrite]
      exact .requested hreason hstate hwrite
    · split <;> rw [ClientRun.after_short hwrite] <;>
        exact .requestFailed hreason hstate rfl rfl rfl rfl
  case h_2 hstate =>
    by_cases hfile : c.io.fopen
    · rw [if_pos hfile]
      dsimp only
      by_cases hwrite : (startWrite c.io).Queued c.io.lwsWrite
      · have hlen := startWrite_payload_length c.io
        rw [if_neg (by simp [ltSizeofHeader_of_queued hlen hwrite]),
          ClientRun.after_queued hnot hwrite]
        exact .started hreason hstate hfile hwrite
      · split <;> rw [ClientRun.after_short hwrite] <;>
          exact .startFailed hreason hstate rfl (.inl rfl) rfl rfl
    · rw [if_neg hfile, ClientRun.after_none hnot]
      exact .startFailed hreason hstate (by simp) (.inr rfl) rfl rfl
  case h_3 hconn hconf =>
    rw [ClientRun.after_none hnot]
    have hidle := ClientTransition.idle (s := s) (c := c) (by simp [hreason])
      fun _ ↦ ⟨hconn, hconf⟩
    have heq : (⟨s.psc, s.log ++ ((none : Option Bytes).map ClientLog.stored).toList,
        decide ((0 : ℤ) ≠ 0), false⟩ : ClientRun) =
          { s with closed := decide (c.reason = .closed) } := by
      simp [hreason, hrunning]
    exact heq ▸ hidle

theorem clientTransition_of_receive {s : ClientRun} {c : ClientCall} {o : ClientOutcome}
    (hopen : s.closed = false) (hrunning : s.exited = false) (hreason : c.reason = .receive)
    (h : clientReceive s.psc c.inp = some o) : ClientTransition s c (s.after c o) := by
  have hnot : c.reason ≠ .closed := by simp [hreason]
  unfold clientReceive at h
  split at h
  case h_1 hstate =>
    obtain ⟨type, htype, h⟩ := Option.bind_eq_some_iff.mp h
    split at h
    case isTrue hok =>
      rw [← Option.some.inj h, ClientRun.after_none hnot]
      simpa using ClientTransition.confirmed hreason hstate (hok ▸ htype)
    case isFalse hne =>
      rw [← Option.some.inj h, ClientRun.after_none hnot]
      simpa using ClientTransition.rejected hreason hstate htype hne
  case h_2 hstate =>
    dsimp only at h
    split at h
    case h_1 content hout =>
      split at h
      case isTrue hlast =>
        rw [← Option.some.inj h, ClientRun.after_none hnot]
        exact .finished hreason hstate hout hlast
      case isFalse hmore =>
        rw [← Option.some.inj h, ClientRun.after_none hnot]
        exact .stored hreason hstate hout hmore
    case h_2 => cases h
  case h_3 hwait htransfer =>
    rw [← Option.some.inj h, ClientRun.after_none hnot]
    have heq : (⟨s.psc, s.log ++ ((none : Option Bytes).map ClientLog.stored).toList,
        decide ((0 : ℤ) ≠ 0), false⟩ : ClientRun) = s := by
      cases s
      simp_all
    rw [heq]
    exact .unexpected hreason hwait htransfer

theorem clientTransition_of_step {s t : ClientRun} {c : ClientCall}
    (h : clientStep s c = some t) :
    (s.closed = false ∧ s.exited = false) ∧ ClientTransition s c t := by
  obtain ⟨⟨hopen, hrunning, hestablished⟩, o, ho, rfl⟩ := clientStep_eq_some.mp h
  refine ⟨⟨hopen, hrunning⟩, ?_⟩
  have hidle (hnot : c.reason ≠ .receive) (hwrite : c.reason ≠ .writeable)
      (ho : some (ClientOutcome.mk s.psc none none 0 false) = some o) :
      ClientTransition s c (s.after c o) := by
    have heq : s.after c ⟨s.psc, none, none, 0, false⟩ =
        { s with closed := decide (c.reason = .closed) } := by
      simp [ClientRun.after, hrunning]
    rw [← Option.some.inj ho, heq]
    exact .idle hnot fun hcontra ↦ (hwrite hcontra).elim
  cases hreason : c.reason with
  | established => exact (hestablished hreason).elim
  | closed =>
      rw [hreason] at ho
      exact hidle (by simp [hreason]) (by simp [hreason]) ho
  | writeable =>
      rw [hreason] at ho
      rw [← Option.some.inj ho]
      exact clientTransition_of_writeable hrunning hreason
  | receive =>
      rw [hreason] at ho
      exact clientTransition_of_receive hopen hrunning hreason ho
  | other =>
      rw [hreason] at ho
      exact hidle (by simp [hreason]) (by simp [hreason]) ho

/-- What a client that has not exited may have in `outfp`: an open file while
it stores, and never a file that it has closed. -/
theorem outfp_of_reachable {s : ClientRun} (h : clientSession.Reachable s) :
    s.exited = false → (∀ content, s.psc.outfp ≠ .closed content) ∧
      (s.closed = false → s.psc.state = .transfer →
        ∃ content, s.psc.outfp = .opened content) := by
  have hinv : clientSession.Invariant fun s ↦
      s.exited = false → (∀ content, s.psc.outfp ≠ .closed content) ∧
        (s.closed = false → s.psc.state = .transfer →
          ∃ content, s.psc.outfp = .opened content) :=
    { init := by
        rintro s rfl
        intro _
        refine ⟨?_, ?_⟩
        · intro content
          simp [ClientRun.start, PerSessionFileClientInfo.zero]
        · simp [ClientRun.start]
      step := by
        intro s c t hs hstep hrunning
        obtain ⟨⟨hopen, hexited⟩, htrans⟩ := clientTransition_of_step hstep
        obtain ⟨hnever, htransfer⟩ := hs hexited
        cases htrans with
        | requested | confirmed => exact ⟨hnever, by simp⟩
        | requestFailed _ _ _ hout hclosed =>
            rw [hout]
            exact ⟨hnever, by simp [hclosed]⟩
        | started => exact ⟨by simp, by simp⟩
        | startFailed _ _ _ hout hclosed =>
            refine ⟨?_, by simp [hclosed]⟩
            rcases hout with hout | hout <;> simp [hout]
        | rejected => exact ⟨hnever, by simp⟩
        | stored => exact ⟨by simp, by simp⟩
        | finished => cases hrunning
        | unexpected => exact ⟨hnever, htransfer⟩
        | idle => exact ⟨hnever, fun _ ↦ htransfer hopen⟩ }
  exact hinv.reachable h

end EsNotebook.FileTransfer
