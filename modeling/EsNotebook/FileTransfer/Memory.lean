import EsNotebook.FileTransfer.ServerSession
import EsNotebook.FileTransfer.Client

/-!
# The sessions as C objects

The same two callbacks over the bytes of `struct per_session_file_info` and
`struct per_session_file_client_info`, with the offsets that x86_64 gives the
members.  A `strcpy` that leaves its field goes on into the next one, as it
does in C, until it meets a NUL or the end of the object; every copy is
recorded.  As long as the copies fit, the bytes represent the sessions of the
other modules.
-/

namespace EsNotebook.FileTransfer

open CMemory

/-- The value of the enumerator. -/
def FileServerState.code : FileServerState → BitVec 32
  | .none => 0
  | .connected => 1
  | .headerReady => 2
  | .waitStart => 3
  | .transfer => 4
  | .done => 5
  | .error => 6

def FileClientState.code : FileClientState → BitVec 32
  | .none => 0
  | .connected => 1
  | .waitConfirm => 2
  | .confirmed => 3
  | .transfer => 4
  | .done => 5
  | .error => 6

theorem FileServerState.code_injective {a b : FileServerState} (h : a.code = b.code) : a = b := by
  cases a <;> cases b <;> first | rfl | (revert h; decide)

theorem FileClientState.code_injective {a b : FileClientState} (h : a.code = b.code) : a = b := by
  cases a <;> cases b <;> first | rfl | (revert h; decide)

/-- A call together with the pointer that `fopen` returns during it. -/
structure MemoryCall (Reason Io : Type) where
  reason : Reason
  inp : Bytes
  io : Io
  ptr : BitVec 64

/-! ## The server -/

namespace ServerMemory

def state : Field := ⟨0, 4⟩
def filename : Field := ⟨4, fssMaxFilenameLen⟩
def filesize : Field := ⟨260, 4⟩
def checksum : Field := ⟨264, fssFileChecksumLen⟩
def fp : Field := ⟨296, 8⟩

/-- `sizeof(struct per_session_file_info)` -/
def size : ℕ := 304

end ServerMemory

/-- The session object, the position of the stream behind `fp`, and whether
the connection has ended. -/
structure ServerObject where
  mem : Bytes
  pos : ℕ
  closed : Bool

namespace ServerObject

def setState (s : ServerObject) (v : FileServerState) : Option ServerObject := do
  let m ← store s.mem ServerMemory.state.offset (bytes32 v.code)
  some { s with mem := m }

/-- `LWS_CALLBACK_RECEIVE`, with the string copies it made. -/
def receive (ptr : BitVec 64) (s : ServerObject) (inp : Bytes) :
    Option (ServerObject × List StringCopy) := do
  let state ← load32 s.mem ServerMemory.state.offset
  if state = FileServerState.connected.code then
    if ← headerRefused inp then
      let s ← s.setState .error
      some (s, [])
    else
      let (m, name) ← copyString s.mem ServerMemory.filename
        (inp.drop FssHeaderHsk.filenameOffset)
      let (m, sum) ← copyString m ServerMemory.checksum (inp.drop FssHeaderHsk.checksumOffset)
      let filesize ← load32 inp 4
      let m ← store m ServerMemory.filesize.offset (bytes32 filesize)
      let s ← setState { s with mem := m } .headerReady
      some (s, [name, sum])
  else if state = FileServerState.waitStart.code then
    let m ← store s.mem ServerMemory.fp.offset (leBytes 8 ptr.toNat)
    let s ← setState { s with mem := m, pos := 0 } (if ptr = 0 then .error else .transfer)
    some (s, [])
  else
    let _type ← load32 inp 0
    some (s, [])

/-- `LWS_CALLBACK_SERVER_WRITEABLE` -/
def writeable (F : Bytes) (io : ServerIo) (s : ServerObject) : Option ServerObject := do
  let state ← load32 s.mem ServerMemory.state.offset
  if state = FileServerState.headerReady.code then
    if io.lwsWrite.toInt < fssHskHdrSize then some { s with closed := true }
    else s.setState .waitStart
  else if state = FileServerState.transfer.code then
    let fp ← load 8 s.mem ServerMemory.fp.offset
    if fp = 0 then none
    else
      let block := fread F s.pos io.freadError
      let s := { s with pos := s.pos + block.length }
      if io.lwsWrite.toInt < block.length then some { s with closed := true }
      else if block.length < 10000 then s.setState .done
      else some s
  else some s

def step (F : Bytes) (s : ServerObject) (c : MemoryCall ServerReason ServerIo) :
    Option ServerObject :=
  if s.closed ∨ c.reason = .established then none
  else
    match c.reason with
    | .serverWriteable => s.writeable F c.io
    | .receive => (s.receive c.ptr c.inp).map Prod.fst
    | _ => some s

/-- The object that `ESTABLISHED` leaves of zeroed memory. -/
def start : ServerObject :=
  { mem := bytes32 FileServerState.connected.code ++ List.replicate 300 0
    pos := 0, closed := false }

end ServerObject

def serverObjects (F : Bytes) : Lts ServerObject (MemoryCall ServerReason ServerIo) :=
  Lts.ofStep .start (ServerObject.step F)

/-- The object shows the session of the other modules. -/
structure ServerObject.Represents (s : ServerObject) (r : PerSessionFileInfo) : Prop where
  length : s.mem.length = ServerMemory.size
  state : load32 s.mem 0 = some r.state.code
  filename : cString (ServerMemory.filename.bytes s.mem) = some r.filename
  filesize : load32 s.mem 260 = some r.filesize
  checksum : cString (ServerMemory.checksum.bytes s.mem) = some r.checksum
  fp : ∃ p, load 8 s.mem 296 = some p ∧ r.fp = if p = 0 then none else some s.pos

/-- Whatever string a receive copies stays in its field. -/
def ServerObject.CopiesFit (s : ServerObject) (c : MemoryCall ServerReason ServerIo) : Prop :=
  c.reason = .receive → ∀ t copies, s.receive c.ptr c.inp = some (t, copies) →
    ∀ copy ∈ copies, copy.Fits

namespace ServerObject

variable {s t : ServerObject} {r : PerSessionFileInfo}

theorem Represents.setState {v : FileServerState} (h : s.Represents r)
    (hset : s.setState v = some t) : t.Represents { r with state := v } := by
  obtain ⟨m, hm, hset⟩ := Option.bind_eq_some_iff.mp hset
  obtain rfl := Option.some.inj hset
  have hd (g : Field) (hg : 4 ≤ g.offset) :
      g.Disjoint ⟨ServerMemory.state.offset, (bytes32 v.code).length⟩ := by
    simp [Field.Disjoint, ServerMemory.state, hg]
  exact
    { length := (store_length hm).trans h.length
      state := load32_store_self hm
      filename := by
        rw [bytes_store_of_disjoint hm (hd _ (by decide))]
        exact h.filename
      filesize := (load32_store_of_disjoint hm (hd ⟨260, 4⟩ (by decide))).trans h.filesize
      checksum := by
        rw [bytes_store_of_disjoint hm (hd _ (by decide))]
        exact h.checksum
      fp := by
        rw [load_store_of_disjoint hm (hd ⟨296, 8⟩ (by decide))]
        exact h.fp }

theorem setState_closed {v : FileServerState} (h : s.setState v = some t) :
    t.closed = s.closed := by
  obtain ⟨m, -, h⟩ := Option.bind_eq_some_iff.mp h
  rw [← Option.some.inj h]

theorem exists_setState (h : s.mem.length = ServerMemory.size) (v : FileServerState) :
    ∃ t, s.setState v = some t := by
  have hroom : (store s.mem ServerMemory.state.offset (bytes32 v.code)).isSome := by
    rw [store_isSome_iff, h, bytes32_length]
    decide
  obtain ⟨m, hm⟩ := Option.isSome_iff_exists.mp hroom
  exact ⟨{ s with mem := m }, by simp [setState, hm]⟩

theorem setState_bytes {v : FileServerState} {g : Field} (h : s.setState v = some t)
    (hg : g.Disjoint ServerMemory.state) : g.bytes t.mem = g.bytes s.mem := by
  obtain ⟨m, hm, h⟩ := Option.bind_eq_some_iff.mp h
  rw [← Option.some.inj h]
  exact bytes_store_of_disjoint hm (by rw [bytes32_length]; exact hg)

theorem header_bytes {name sum : Bytes} {m m₁ m₂ m₃ : Bytes} {c₁ c₂ : StringCopy}
    {filesize : BitVec 32} {g : Field}
    (hname : copyString m ServerMemory.filename name = some (m₁, c₁)) (hfits₁ : c₁.Fits)
    (hsum : copyString m₁ ServerMemory.checksum sum = some (m₂, c₂)) (hfits₂ : c₂.Fits)
    (hsize : store m₂ ServerMemory.filesize.offset (bytes32 filesize) = some m₃)
    (hg : g.Disjoint ServerMemory.filename ∧ g.Disjoint ServerMemory.checksum ∧
      g.Disjoint ServerMemory.filesize) : g.bytes m₃ = g.bytes m := by
  obtain ⟨hg₁, hg₂, hg₃⟩ := hg
  calc g.bytes m₃ = g.bytes m₂ :=
        bytes_store_of_disjoint hsize (by rw [bytes32_length]; exact hg₃)
    _ = g.bytes m₁ := copyString_frame hsum hfits₂ hg₂
    _ = g.bytes m := copyString_frame hname hfits₁ hg₁

/-- The two copies of a header that fits, and the size after them. -/
theorem Represents.header {name sum : Bytes} {m₁ m₂ m₃ : Bytes} {c₁ c₂ : StringCopy}
    {filename checksum : Bytes} {filesize : BitVec 32} (h : s.Represents r)
    (hname : copyString s.mem ServerMemory.filename name = some (m₁, c₁)) (hfits₁ : c₁.Fits)
    (hsum : copyString m₁ ServerMemory.checksum sum = some (m₂, c₂)) (hfits₂ : c₂.Fits)
    (hsize : store m₂ ServerMemory.filesize.offset (bytes32 filesize) = some m₃)
    (hfilename : cString name = some filename) (hchecksum : cString sum = some checksum) :
    ({ s with mem := m₃ } : ServerObject).Represents
      { r with filename := filename, checksum := checksum, filesize := filesize } := by
  have hlen₁ : m₁.length = s.mem.length := copyString_length hname
  have hlen₂ : m₂.length = m₁.length := copyString_length hsum
  have hlen₃ : m₃.length = m₂.length := store_length hsize
  have hframe₃ (g : Field) (hg : g.Disjoint ServerMemory.filesize) :
      g.bytes m₃ = g.bytes m₂ :=
    bytes_store_of_disjoint hsize (by rw [bytes32_length]; exact hg)
  have hlen : m₃.length = s.mem.length := hlen₃.trans (hlen₂.trans hlen₁)
  exact
    { length := hlen.trans h.length
      state := (load32_congr hlen (header_bytes hname hfits₁ hsum hfits₂ hsize (g := ⟨0, 4⟩) (by decide))).trans
        h.state
      filename := by
        rw [hframe₃ _ (by decide), copyString_frame hsum hfits₂ (by decide),
          cString_bytes_of_fits hname hfits₁, hfilename]
      filesize := load32_store_self hsize
      checksum := by
        rw [hframe₃ _ (by decide), cString_bytes_of_fits hsum hfits₂, hchecksum]
      fp := by
        rw [load_congr hlen (header_bytes hname hfits₁ hsum hfits₂ hsize (g := ⟨296, 8⟩) (by decide))]
        exact h.fp }

theorem Represents.opened {ptr : BitVec 64} {m : Bytes} (h : s.Represents r)
    (hstore : store s.mem ServerMemory.fp.offset (leBytes 8 ptr.toNat) = some m) :
    ({ s with mem := m, pos := 0 } : ServerObject).Represents
      { r with fp := if ptr = 0 then none else some 0 } := by
  have hnull : ptr = 0 ↔ ptr.toNat = 0 := BitVec.toNat_eq
  have hd (g : Field) (hg : g.offset + g.size ≤ 296) :
      g.Disjoint ⟨ServerMemory.fp.offset, (leBytes 8 ptr.toNat).length⟩ := by
    simp [Field.Disjoint, ServerMemory.fp, hg]
  have hptr : load 8 m 296 = some ptr.toNat := by
    have hlt : ptr.toNat < 256 ^ 8 := ptr.isLt
    have hload : load 8 m 296 = some (leNat (leBytes 8 ptr.toNat)) :=
      load_store_self hstore (leBytes_length 8 _)
    rw [hload, leNat_leBytes, Nat.mod_eq_of_lt hlt]
  exact
    { length := (store_length hstore).trans h.length
      state := (load32_store_of_disjoint hstore (hd ⟨0, 4⟩ (by decide))).trans h.state
      filename := by
        rw [bytes_store_of_disjoint hstore (hd _ (by decide))]
        exact h.filename
      filesize := (load32_store_of_disjoint hstore (hd ⟨260, 4⟩ (by decide))).trans h.filesize
      checksum := by
        rw [bytes_store_of_disjoint hstore (hd _ (by decide))]
        exact h.checksum
      fp := ⟨ptr.toNat, hptr, by simp only [hnull]⟩ }

theorem start_represents : start.Represents ServerRun.start.pss :=
  { length := by decide +kernel
    state := by decide +kernel
    filename := by decide +kernel
    filesize := by decide +kernel
    checksum := by decide +kernel
    fp := ⟨0, by decide +kernel, rfl⟩ }

theorem Represents.receive {ptr : BitVec 64} {inp : Bytes} {copies : List StringCopy}
    {io : ServerIo} (h : s.Represents r) (hrec : s.receive ptr inp = some (t, copies))
    (hfit : ∀ copy ∈ copies, copy.Fits) (hio : io.fopen = decide (ptr ≠ 0)) :
    t.closed = s.closed ∧ ∃ r', serverReceive io r inp = some r' ∧ t.Represents r' := by
  obtain ⟨state, hload, hrec⟩ := Option.bind_eq_some_iff.mp hrec
  obtain rfl : r.state.code = state := Option.some.inj (h.state.symm.trans hload)
  split at hrec
  case isTrue hstate =>
    have hconn : r.state = .connected := FileServerState.code_injective hstate
    obtain ⟨refused, hhdr, hrec⟩ := Option.bind_eq_some_iff.mp hrec
    cases refused with
    | true =>
        obtain ⟨u, hset, hrec⟩ := Option.bind_eq_some_iff.mp hrec
        obtain ⟨rfl, rfl⟩ := Prod.mk.inj (Option.some.inj hrec)
        exact ⟨setState_closed hset, _, by simp [serverReceive, hconn, hhdr], h.setState hset⟩
    | false =>
        obtain ⟨⟨m₁, c₁⟩, hname, hrec⟩ := Option.bind_eq_some_iff.mp hrec
        obtain ⟨⟨m₂, c₂⟩, hsum, hrec⟩ := Option.bind_eq_some_iff.mp hrec
        obtain ⟨filesize, hsize, hrec⟩ := Option.bind_eq_some_iff.mp hrec
        obtain ⟨m₃, hstore, hrec⟩ := Option.bind_eq_some_iff.mp hrec
        obtain ⟨u, hset, hrec⟩ := Option.bind_eq_some_iff.mp hrec
        obtain ⟨rfl, rfl⟩ := Prod.mk.inj (Option.some.inj hrec)
        have hfits₁ : c₁.Fits := hfit c₁ (by simp)
        have hfits₂ : c₂.Fits := hfit c₂ (by simp)
        obtain ⟨filename, hfilename⟩ := Option.isSome_iff_exists.mp
          (strcpyField_isSome_iff.mpr ((fits_iff_mem_take hname).mp hfits₁))
        obtain ⟨checksum, hchecksum⟩ := Option.isSome_iff_exists.mp
          (strcpyField_isSome_iff.mpr ((fits_iff_mem_take hsum).mp hfits₂))
        have hheader := h.header hname hfits₁ hsum hfits₂ hstore
          (strcpyField_eq_some_iff.mp hfilename).1 (strcpyField_eq_some_iff.mp hchecksum).1
        have hsame := setState_closed hset
        refine ⟨hsame, _, ?_, hheader.setState hset⟩
        simp only [ServerMemory.filename, ServerMemory.checksum] at hfilename hchecksum
        simp [serverReceive, hconn, hhdr, hfilename, hchecksum, hsize]
  case isFalse hstate =>
    have hconn : r.state ≠ .connected := fun heq ↦ hstate (by rw [heq])
    split at hrec
    case isTrue hstate' =>
      have hwait : r.state = .waitStart := FileServerState.code_injective hstate'
      obtain ⟨m, hstore, hrec⟩ := Option.bind_eq_some_iff.mp hrec
      obtain ⟨u, hset, hrec⟩ := Option.bind_eq_some_iff.mp hrec
      obtain ⟨rfl, rfl⟩ := Prod.mk.inj (Option.some.inj hrec)
      have hsame := setState_closed hset
      refine ⟨hsame, _, ?_, (h.opened hstore).setState hset⟩
      rcases eq_or_ne ptr 0#64 with hptr | hptr <;> simp [serverReceive, hwait, hio, hptr]
    case isFalse hstate' =>
      have hwait : r.state ≠ .waitStart := fun heq ↦ hstate' (by rw [heq])
      obtain ⟨type, htype, hrec⟩ := Option.bind_eq_some_iff.mp hrec
      obtain ⟨rfl, rfl⟩ := Prod.mk.inj (Option.some.inj hrec)
      refine ⟨rfl, r, ?_, h⟩
      simp [serverReceive, htype]

theorem Represents.advance {pos k : ℕ} (h : s.Represents r) (hfp : r.fp = some pos) :
    pos = s.pos ∧ ({ s with pos := s.pos + k } : ServerObject).Represents
      { r with fp := some (pos + k) } := by
  obtain ⟨p, hload, hp⟩ := h.fp
  by_cases hnull : p = 0
  · simp [hnull, hfp] at hp
  · obtain rfl : pos = s.pos := by simpa [hnull, hfp] using hp
    exact ⟨rfl, { h with fp := ⟨p, hload, by simp [hnull]⟩ }⟩

theorem Represents.writeable {F : Bytes} {run : ServerRun} {c : ServerCall}
    (h : s.Represents run.pss) (hopen : s.closed = false) (hreason : c.reason = .serverWriteable)
    (hwrite : s.writeable F c.io = some t) :
    ∃ o, serverWriteable F c.io run.pss = some o ∧ t.Represents o.pss ∧
      (run.after c o).closed = t.closed := by
  have hnot : c.reason ≠ .receive := by simp [hreason]
  obtain ⟨state, hload, hwrite⟩ := Option.bind_eq_some_iff.mp hwrite
  obtain rfl : run.pss.state.code = state := Option.some.inj (h.state.symm.trans hload)
  split at hwrite
  case isTrue hstate =>
    have hready : run.pss.state = .headerReady := FileServerState.code_injective hstate
    have hlen : (respOk c.io).payload.length = 8 := respOk_payload_length c.io
    split at hwrite
    case isTrue hshort =>
      obtain rfl := Option.some.inj hwrite
      refine ⟨⟨run.pss, some (respOk c.io), -1⟩, ?_, { h with }, ?_⟩
      · simp [serverWriteable, hready, hshort, respOk]
      · rw [ServerRun.after_short hnot]
        simpa [LwsWrite.Queued, hlen, fssHskHdrSize] using hshort
    case isFalse hfull =>
      refine ⟨⟨{ run.pss with state := .waitStart }, some (respOk c.io), 0⟩, ?_,
        h.setState hwrite, ?_⟩
      · simp [serverWriteable, hready, hfull, respOk]
      · rw [ServerRun.after_queued hnot]
        · simp [setState_closed hwrite, hopen]
        · simpa [LwsWrite.Queued, hlen, fssHskHdrSize] using hfull
  case isFalse hstate =>
    have hready : run.pss.state ≠ .headerReady := fun heq ↦ hstate (by rw [heq])
    split at hwrite
    case isTrue hstate' =>
      have htransfer : run.pss.state = .transfer := FileServerState.code_injective hstate'
      obtain ⟨p, hp, hwrite⟩ := Option.bind_eq_some_iff.mp hwrite
      split at hwrite
      case isTrue => cases hwrite
      case isFalse hnull =>
        have hfp : run.pss.fp = some s.pos := by
          obtain ⟨p', hp', hfp⟩ := h.fp
          obtain rfl : p = p' := Option.some.inj (hp.symm.trans hp')
          rw [hfp, if_neg hnull]
        generalize hblock : fread F s.pos c.io.freadError = block at hwrite
        have hadvance := (h.advance (k := block.length) hfp).2
        dsimp only at hwrite
        split at hwrite
        case isTrue hshort =>
          obtain rfl := Option.some.inj hwrite
          refine ⟨⟨{ run.pss with fp := some (s.pos + block.length) },
            some (contentWrite block), -1⟩, ?_, { hadvance with }, ?_⟩
          · simp [serverWriteable, htransfer, hfp, hblock, hshort, contentWrite]
          · rw [ServerRun.after_short hnot]
            simpa [LwsWrite.Queued, contentWrite] using hshort
        case isFalse hfull =>
          have hqueued : (contentWrite block).Queued c.io.lwsWrite := by
            simpa [LwsWrite.Queued, contentWrite] using hfull
          split at hwrite
          case isTrue hlast =>
            refine ⟨⟨{ run.pss with fp := some (s.pos + block.length), state := .done },
              some (contentWrite block), 0⟩, ?_, hadvance.setState hwrite, ?_⟩
            · simp [serverWriteable, htransfer, hfp, hblock, hfull, hlast, contentWrite]
            · rw [ServerRun.after_queued hnot hqueued]
              simp [setState_closed hwrite, hopen]
          case isFalse hmore =>
            obtain rfl := Option.some.inj hwrite
            refine ⟨⟨{ run.pss with fp := some (s.pos + block.length) },
              some (contentWrite block), 0⟩, ?_, hadvance, ?_⟩
            · simp [serverWriteable, htransfer, hfp, hblock, hfull, hmore, contentWrite]
            · rw [ServerRun.after_queued hnot hqueued]
              simp [hopen]
    case isFalse hstate' =>
      have htransfer : run.pss.state ≠ .transfer := fun heq ↦ hstate' (by rw [heq])
      obtain rfl := Option.some.inj hwrite
      refine ⟨⟨run.pss, none, 0⟩, ?_, h, ?_⟩
      · simp [serverWriteable]
      · simp [ServerRun.after, hopen]

theorem step_represents {F : Bytes} {run : ServerRun} {c : MemoryCall ServerReason ServerIo}
    (h : s.Represents run.pss) (hclosed : run.closed = s.closed)
    (hstep : s.step F c = some t) (hfit : s.CopiesFit c) :
    ∃ run', serverStep F run
        ⟨c.reason, c.inp, { c.io with fopen := decide (c.ptr ≠ 0) }⟩ = some run' ∧
      t.Represents run'.pss ∧ run'.closed = t.closed := by
  obtain ⟨reason, inp, io, ptr⟩ := c
  have hsame : s.writeable F io = s.writeable F { io with fopen := decide (ptr ≠ 0) } := rfl
  generalize hio : ({ io with fopen := decide (ptr ≠ 0) } : ServerIo) = io' at hsame ⊢
  have hptr : io'.fopen = decide (ptr ≠ 0) := by rw [← hio]
  have hguard : ¬(s.closed ∨ reason = .established) := by
    intro hstop
    simp [step, hstop] at hstep
  have hopen : s.closed = false := by simp_all
  have hrun (o : ServerOutcome)
      (ho : callbackFileServer F io' reason run.pss inp = some o) :
      serverStep F run ⟨reason, inp, io'⟩ = some (run.after ⟨reason, inp, io'⟩ o) :=
    serverStep_eq_some.mpr
      ⟨⟨hclosed.trans hopen, fun heq ↦ hguard (.inr heq)⟩, o, ho, rfl⟩
  simp only [step, if_neg hguard] at hstep
  cases reason with
  | established => exact absurd (.inr rfl) hguard
  | serverWriteable =>
      obtain ⟨o, ho, hR, hout⟩ := h.writeable (c := ⟨.serverWriteable, inp, io'⟩) hopen rfl
        (hsame ▸ hstep)
      exact ⟨_, hrun o ho, ServerRun.after_pss ▸ hR, hout⟩
  | receive =>
      obtain ⟨⟨u, copies⟩, hrec, rfl⟩ := Option.map_eq_some_iff.mp hstep
      obtain ⟨heq, pss, hpss, hR⟩ := h.receive hrec (hfit rfl u copies hrec) hptr
      refine ⟨_, hrun ⟨pss, none, 0⟩ (by simp [callbackFileServer, hpss]), hR, ?_⟩
      simp [ServerRun.after, heq, hopen]
  | filterProtocolConnection | wsPeerInitiatedClose | other =>
      obtain rfl := Option.some.inj hstep
      refine ⟨_, hrun ⟨run.pss, none, 0⟩ rfl, h, ?_⟩
      simp [ServerRun.after, hopen]

end ServerObject

/-- As long as the copies fit, the bytes of the session behave as the
structured session. -/
theorem serverObjects_simulates (F : Bytes) :
    ((serverObjects F).restrict ServerObject.CopiesFit).Simulation (serverSession F)
      fun s run ↦ s.Represents run.pss ∧ run.closed = s.closed where
  init := by
    rintro s rfl
    exact ⟨.start, rfl, ServerObject.start_represents, rfl⟩
  step := by
    rintro s c t run ⟨hR, hclosed⟩ ⟨hstep, hfit⟩
    obtain ⟨run', hrun, hR', hclosed'⟩ := ServerObject.step_represents hR hclosed hstep hfit
    exact ⟨_, run', .single hrun, hR', hclosed'⟩

/-! ## The client -/

namespace ClientMemory

def state : Field := ⟨0, 4⟩
def bytes : Field := ⟨264, 4⟩
def outfp : Field := ⟨304, 8⟩

/-- `sizeof(struct per_session_file_client_info)` -/
def size : ℕ := 312

end ClientMemory

structure ClientObject where
  mem : Bytes
  closed : Bool
  exited : Bool

namespace ClientObject

def setState (s : ClientObject) (v : FileClientState) : Option ClientObject := do
  let m ← store s.mem ClientMemory.state.offset (bytes32 v.code)
  some { s with mem := m }

/-- `LWS_CALLBACK_CLIENT_RECEIVE`; it copies no string. -/
def receive (s : ClientObject) (inp : Bytes) : Option ClientObject := do
  let state ← load32 s.mem ClientMemory.state.offset
  if state = FileClientState.waitConfirm.code then
    let type ← load32 inp 0
    if type = fssFileRespOk then s.setState .confirmed
    else some { s with closed := true }
  else if state = FileClientState.transfer.code then
    let bytes ← load32 s.mem ClientMemory.bytes.offset
    let bytes := bytes + BitVec.ofNat 32 inp.length
    let m ← store s.mem ClientMemory.bytes.offset (bytes32 bytes)
    -- `fwrite` of the whole frame, and no byte beyond it
    let outfp ← load 8 m ClientMemory.outfp.offset
    if outfp = 0 then none
    else some { s with mem := m, exited := decide (bytes = expectedBytes) }
  else some s

/-- `LWS_CALLBACK_CLIENT_WRITEABLE` -/
def writeable (io : ClientIo) (ptr : BitVec 64) (s : ClientObject) : Option ClientObject := do
  let state ← load32 s.mem ClientMemory.state.offset
  let short := decide (io.lwsWrite.toInt < FssHeaderHsk.size)
  if state = FileClientState.connected.code then
    if ltSizeofHeader io.lwsWrite then some { s with closed := true }
    else setState { s with closed := short } .waitConfirm
  else if state = FileClientState.confirmed.code then
    let m ← store s.mem ClientMemory.outfp.offset (leBytes 8 ptr.toNat)
    if ptr = 0 then some { s with mem := m, closed := true }
    else if ltSizeofHeader io.lwsWrite then some { s with mem := m, closed := true }
    else setState { s with mem := m, closed := short } .transfer
  else some s

def step (s : ClientObject) (c : MemoryCall ClientReason ClientIo) : Option ClientObject :=
  if s.closed ∨ s.exited ∨ c.reason = .established then none
  else
    match c.reason with
    | .writeable => s.writeable c.io c.ptr
    | .receive => s.receive c.inp
    | .closed => some { s with closed := true }
    | _ => some s

def start : ClientObject :=
  { mem := bytes32 FileClientState.connected.code ++ List.replicate 308 0
    closed := false, exited := false }

end ClientObject

def clientObjects : Lts ClientObject (MemoryCall ClientReason ClientIo) :=
  Lts.ofStep .start ClientObject.step

structure ClientObject.Represents (s : ClientObject) (r : PerSessionFileClientInfo) : Prop where
  length : s.mem.length = ClientMemory.size
  state : load32 s.mem 0 = some r.state.code
  bytes : load32 s.mem 264 = some r.bytes
  outfp : ∃ p, load 8 s.mem 304 = some p ∧ (p = 0 ↔ r.outfp = .null)

namespace ClientObject

variable {s t : ClientObject} {r : PerSessionFileClientInfo}

theorem Represents.setState {v : FileClientState} (h : s.Represents r)
    (hset : s.setState v = some t) : t.Represents { r with state := v } := by
  obtain ⟨m, hm, hset⟩ := Option.bind_eq_some_iff.mp hset
  obtain rfl := Option.some.inj hset
  have hd (g : Field) (hg : 4 ≤ g.offset) :
      g.Disjoint ⟨ClientMemory.state.offset, (bytes32 v.code).length⟩ := by
    simp [Field.Disjoint, ClientMemory.state, hg]
  exact
    { length := (store_length hm).trans h.length
      state := load32_store_self hm
      bytes := (load32_store_of_disjoint hm (hd ⟨264, 4⟩ (by decide))).trans h.bytes
      outfp := by
        rw [load_store_of_disjoint hm (hd ⟨304, 8⟩ (by decide))]
        exact h.outfp }

theorem setState_eq {v : FileClientState} (h : s.setState v = some t) :
    t.closed = s.closed ∧ t.exited = s.exited := by
  obtain ⟨m, -, h⟩ := Option.bind_eq_some_iff.mp h
  rw [← Option.some.inj h]
  exact ⟨rfl, rfl⟩

theorem exists_setState (h : s.mem.length = ClientMemory.size) (v : FileClientState) :
    ∃ t, s.setState v = some t := by
  have hroom : (store s.mem ClientMemory.state.offset (bytes32 v.code)).isSome := by
    rw [store_isSome_iff, h, bytes32_length]
    decide
  obtain ⟨m, hm⟩ := Option.isSome_iff_exists.mp hroom
  exact ⟨{ s with mem := m }, by simp [setState, hm]⟩

theorem Represents.counted {v : BitVec 32} {m : Bytes} (h : s.Represents r)
    (hstore : store s.mem ClientMemory.bytes.offset (bytes32 v) = some m) :
    ({ s with mem := m } : ClientObject).Represents { r with bytes := v } := by
  have hd (g : Field) (hg : g.offset + g.size ≤ 264 ∨ 268 ≤ g.offset) :
      g.Disjoint ⟨ClientMemory.bytes.offset, (bytes32 v).length⟩ := by
    simpa [Field.Disjoint, ClientMemory.bytes] using hg
  exact
    { length := (store_length hstore).trans h.length
      state := (load32_store_of_disjoint hstore (hd ⟨0, 4⟩ (by decide))).trans h.state
      bytes := load32_store_self hstore
      outfp := by
        rw [load_store_of_disjoint hstore (hd ⟨304, 8⟩ (by decide))]
        exact h.outfp }

theorem Represents.opened {ptr : BitVec 64} {m : Bytes} {out : OutFile} (h : s.Represents r)
    (hstore : store s.mem ClientMemory.outfp.offset (leBytes 8 ptr.toNat) = some m)
    (hout : ptr = 0 ↔ out = .null) :
    ({ s with mem := m } : ClientObject).Represents { r with outfp := out } := by
  have hnull : ptr = 0 ↔ ptr.toNat = 0 := BitVec.toNat_eq
  have hd (g : Field) (hg : g.offset + g.size ≤ 304) :
      g.Disjoint ⟨ClientMemory.outfp.offset, (leBytes 8 ptr.toNat).length⟩ := by
    simp [Field.Disjoint, ClientMemory.outfp, hg]
  have hptr : load 8 m 304 = some ptr.toNat := by
    have hlt : ptr.toNat < 256 ^ 8 := ptr.isLt
    have hload : load 8 m 304 = some (leNat (leBytes 8 ptr.toNat)) :=
      load_store_self hstore (leBytes_length 8 _)
    rw [hload, leNat_leBytes, Nat.mod_eq_of_lt hlt]
  exact
    { length := (store_length hstore).trans h.length
      state := (load32_store_of_disjoint hstore (hd ⟨0, 4⟩ (by decide))).trans h.state
      bytes := (load32_store_of_disjoint hstore (hd ⟨264, 4⟩ (by decide))).trans h.bytes
      outfp := ⟨ptr.toNat, hptr, by rw [← hnull, hout]⟩ }

theorem start_represents : start.Represents ClientRun.start.psc :=
  { length := by decide +kernel
    state := by decide +kernel
    bytes := by decide +kernel
    outfp := ⟨0, by decide +kernel, by simp [ClientRun.start, PerSessionFileClientInfo.zero]⟩ }

/-- The object and the structured session are at the same point. -/
structure Shows (s : ClientObject) (run : ClientRun) : Prop where
  psc : s.Represents run.psc
  closed : run.closed = s.closed
  exited : run.exited = s.exited

theorem Represents.receive {inp : Bytes} {run : ClientRun} {c : ClientCall}
    (h : s.Represents run.psc) (hopen : s.closed = false) (hrunning : s.exited = false)
    (hreason : c.reason = .receive) (hout : ∀ content, run.psc.outfp ≠ .closed content)
    (hrec : s.receive inp = some t) :
    ∃ o, clientReceive run.psc inp = some o ∧ t.Shows (run.after c o) := by
  have hnot : c.reason ≠ .closed := by simp [hreason]
  obtain ⟨state, hload, hrec⟩ := Option.bind_eq_some_iff.mp hrec
  obtain rfl : run.psc.state.code = state := Option.some.inj (h.state.symm.trans hload)
  split at hrec
  case isTrue hstate =>
    have hwait : run.psc.state = .waitConfirm := FileClientState.code_injective hstate
    obtain ⟨type, htype, hrec⟩ := Option.bind_eq_some_iff.mp hrec
    split at hrec
    case isTrue hok =>
      obtain ⟨hclosed, hexited⟩ := setState_eq hrec
      refine ⟨⟨{ run.psc with state := .confirmed }, none, none, 0, false⟩, ?_, ?_⟩
      · simp [clientReceive, hwait, htype, hok]
      · rw [ClientRun.after_none hnot]
        exact ⟨h.setState hrec, by simp [hclosed, hopen], by simp [hexited, hrunning]⟩
    case isFalse hne =>
      obtain rfl := Option.some.inj hrec
      refine ⟨⟨run.psc, none, none, -1, false⟩, ?_, ?_⟩
      · simp [clientReceive, hwait, htype, hne]
      · rw [ClientRun.after_none hnot]
        exact ⟨{ h with }, by simp, by simp [hrunning]⟩
  case isFalse hstate =>
    have hwait : run.psc.state ≠ .waitConfirm := fun heq ↦ hstate (by rw [heq])
    split at hrec
    case isTrue hstate' =>
      have htransfer : run.psc.state = .transfer := FileClientState.code_injective hstate'
      obtain ⟨bytes, hbytes, hrec⟩ := Option.bind_eq_some_iff.mp hrec
      obtain rfl : run.psc.bytes = bytes := Option.some.inj (h.bytes.symm.trans hbytes)
      obtain ⟨m, hstore, hrec⟩ := Option.bind_eq_some_iff.mp hrec
      obtain ⟨p, hp, hrec⟩ := Option.bind_eq_some_iff.mp hrec
      split at hrec
      case isTrue => cases hrec
      case isFalse hnull =>
        obtain rfl := Option.some.inj hrec
        have hcounted := h.counted hstore
        obtain ⟨p', hp', hiff⟩ := hcounted.outfp
        obtain rfl : p = p' := Option.some.inj (hp.symm.trans hp')
        obtain ⟨content, hcontent⟩ : ∃ content, run.psc.outfp = .opened content := by
          cases hfile : run.psc.outfp with
          | null => exact absurd (hiff.mpr hfile) hnull
          | opened content => exact ⟨content, rfl⟩
          | closed content => exact absurd hfile (hout content)
        by_cases hlast : run.psc.bytes + BitVec.ofNat 32 inp.length = expectedBytes
        · refine ⟨⟨{ run.psc with
              bytes := run.psc.bytes + BitVec.ofNat 32 inp.length
              outfp := .closed (content ++ inp) }, none, some inp, 0, true⟩, ?_, ?_⟩
          · simp [clientReceive, htransfer, hcontent, hlast]
          · rw [ClientRun.after_none hnot]
            exact ⟨{ hcounted with outfp := ⟨p, hp, by simp [hnull]⟩ }, by simp [hopen],
              by simp [hlast]⟩
        · refine ⟨⟨{ run.psc with
              bytes := run.psc.bytes + BitVec.ofNat 32 inp.length
              outfp := .opened (content ++ inp) }, none, some inp, 0, false⟩, ?_, ?_⟩
          · simp [clientReceive, htransfer, hcontent, hlast]
          · rw [ClientRun.after_none hnot]
            exact ⟨{ hcounted with outfp := ⟨p, hp, by simp [hnull]⟩ }, by simp [hopen],
              by simp [hlast]⟩
    case isFalse hstate' =>
      have htransfer : run.psc.state ≠ .transfer := fun heq ↦ hstate' (by rw [heq])
      obtain rfl := Option.some.inj hrec
      refine ⟨⟨run.psc, none, none, 0, false⟩, ?_, ?_⟩
      · simp [clientReceive]
      · rw [ClientRun.after_none hnot]
        exact ⟨h, by simp [hopen], by simp [hrunning]⟩

theorem Represents.writeable {ptr : BitVec 64} {run : ClientRun} {c : ClientCall}
    (h : s.Represents run.psc) (hopen : s.closed = false) (hrunning : s.exited = false)
    (hreason : c.reason = .writeable) (hio : c.io.fopen = decide (ptr ≠ 0))
    (hwrite : s.writeable c.io ptr = some t) :
    t.Shows (run.after c (clientWriteable c.io run.psc)) := by
  have hnot : c.reason ≠ .closed := by simp [hreason]
  -- the flag that the write leaves is that of the structured session
  have hshort {psc : PerSessionFileClientInfo} {w : LwsWrite}
      (hlen : w.payload.length = FssHeaderHsk.size) :
      (run.after c ⟨psc, some w, none, 0, false⟩).closed =
        decide (c.io.lwsWrite.toInt < FssHeaderHsk.size) := by
    by_cases hqueued : w.Queued c.io.lwsWrite
    · rw [ClientRun.after_queued hnot hqueued]
      simp only [LwsWrite.Queued, hlen] at hqueued
      simpa using hqueued
    · rw [ClientRun.after_short hqueued]
      simp only [LwsWrite.Queued, hlen] at hqueued
      simpa using hqueued
  have hfailed {psc : PerSessionFileClientInfo} {w : LwsWrite} :
      (run.after c ⟨psc, some w, none, -1, false⟩).closed = true := by
    simp only [ClientRun.after]
    split <;> simp
  obtain ⟨state, hload, hwrite⟩ := Option.bind_eq_some_iff.mp hwrite
  obtain rfl : run.psc.state.code = state := Option.some.inj (h.state.symm.trans hload)
  split at hwrite
  case isTrue hstate =>
    have hconn : run.psc.state = .connected := FileClientState.code_injective hstate
    simp only [clientWriteable, hconn]
    split at hwrite
    case isTrue hlt =>
      obtain rfl := Option.some.inj hwrite
      rw [if_pos hlt]
      exact ⟨ClientRun.after_psc ▸ { h with }, hfailed, ClientRun.after_exited.trans hrunning.symm⟩
    case isFalse hlt =>
      obtain ⟨hclosed, hexited⟩ := setState_eq hwrite
      have hbase : ({ s with closed := decide (c.io.lwsWrite.toInt < FssHeaderHsk.size) } :
          ClientObject).Represents run.psc := { h with }
      rw [if_neg hlt]
      refine ⟨?_, ?_, ?_⟩
      · rw [ClientRun.after_psc]
        exact hbase.setState hwrite
      · rw [hshort requestWrite_payload_length, hclosed]
      · rw [ClientRun.after_exited, hexited, hrunning]
  case isFalse hstate =>
    have hconn : run.psc.state ≠ .connected := fun heq ↦ hstate (by rw [heq])
    split at hwrite
    case isTrue hstate' =>
      have hconf : run.psc.state = .confirmed := FileClientState.code_injective hstate'
      obtain ⟨m, hstore, hwrite⟩ := Option.bind_eq_some_iff.mp hwrite
      have hout : ptr = 0 ↔ (if ptr = 0 then OutFile.null else .opened []) = .null := by
        rcases eq_or_ne ptr 0#64 with hptr | hptr <;> simp [hptr]
      have hopened := h.opened hstore hout
      have hstate : load32 m 0 = some FileClientState.confirmed.code := hconf ▸ hopened.state
      simp only [clientWriteable, hconf, hio]
      split at hwrite
      case isTrue hptr =>
        obtain rfl := Option.some.inj hwrite
        simp only [hptr, if_true] at hopened
        simp only [hptr, ne_eq, not_true, decide_false, Bool.false_eq_true, if_false]
        rw [ClientRun.after_none hnot]
        exact ⟨{ hopened with state := hstate }, by simp, by simp [hrunning]⟩
      case isFalse hptr =>
        simp only [if_neg hptr] at hopened
        simp only [ne_eq, hptr, not_false_eq_true, decide_true, if_true]
        split at hwrite
        case isTrue hlt =>
          obtain rfl := Option.some.inj hwrite
          rw [if_pos hlt]
          exact ⟨ClientRun.after_psc ▸ { hopened with state := hstate }, hfailed,
            ClientRun.after_exited.trans hrunning.symm⟩
        case isFalse hlt =>
          obtain ⟨hclosed, hexited⟩ := setState_eq hwrite
          have hbase : ({ s with
              mem := m, closed := decide (c.io.lwsWrite.toInt < FssHeaderHsk.size) } :
              ClientObject).Represents { run.psc with outfp := .opened [] } := { hopened with }
          rw [if_neg hlt]
          refine ⟨?_, ?_, ?_⟩
          · rw [ClientRun.after_psc]
            exact hbase.setState hwrite
          · rw [hshort (startWrite_payload_length _), hclosed]
          · rw [ClientRun.after_exited, hexited, hrunning]
    case isFalse hstate' =>
      have hconf : run.psc.state ≠ .confirmed := fun heq ↦ hstate' (by rw [heq])
      obtain rfl := Option.some.inj hwrite
      have hidle : clientWriteable c.io run.psc = ⟨run.psc, none, none, 0, false⟩ := by
        simp [clientWriteable]
      rw [hidle, ClientRun.after_none hnot]
      exact ⟨h, by simp [hopen], by simp [hrunning]⟩

theorem step_shows {run : ClientRun} {c : MemoryCall ClientReason ClientIo}
    (h : s.Shows run) (hout : ∀ content, run.exited = false → run.psc.outfp ≠ .closed content)
    (hstep : s.step c = some t) :
    ∃ run', clientStep run
        ⟨c.reason, c.inp, { c.io with fopen := decide (c.ptr ≠ 0) }⟩ = some run' ∧
      t.Shows run' := by
  obtain ⟨reason, inp, io, ptr⟩ := c
  have hsame : s.writeable io ptr = s.writeable { io with fopen := decide (ptr ≠ 0) } ptr := rfl
  generalize hio : ({ io with fopen := decide (ptr ≠ 0) } : ClientIo) = io' at hsame ⊢
  have hptr : io'.fopen = decide (ptr ≠ 0) := by rw [← hio]
  have hguard : ¬(s.closed ∨ s.exited ∨ reason = .established) := by
    intro hstop
    simp [step, hstop] at hstep
  have hopen : s.closed = false := by simp_all
  have hrunning : s.exited = false := by simp_all
  have hrun (o : ClientOutcome)
      (ho : callbackFileClient io' reason run.psc inp = some o) :
      clientStep run ⟨reason, inp, io'⟩ = some (run.after ⟨reason, inp, io'⟩ o) :=
    clientStep_eq_some.mpr ⟨⟨h.closed.trans hopen, h.exited.trans hrunning,
      fun heq ↦ hguard (.inr (.inr heq))⟩, o, ho, rfl⟩
  simp only [step, if_neg hguard] at hstep
  cases reason with
  | established => exact absurd (.inr (.inr rfl)) hguard
  | writeable =>
      exact ⟨_, hrun _ rfl, h.psc.writeable (c := ⟨.writeable, inp, io'⟩) hopen hrunning rfl hptr
        (hsame.symm.trans hstep)⟩
  | receive =>
      obtain ⟨o, ho, hshows⟩ := h.psc.receive (c := ⟨.receive, inp, io'⟩) hopen hrunning rfl
        (fun content ↦ hout content (h.exited.trans hrunning)) hstep
      exact ⟨_, hrun o ho, hshows⟩
  | closed =>
      obtain rfl := Option.some.inj hstep
      exact ⟨_, hrun ⟨run.psc, none, none, 0, false⟩ rfl, { h.psc with },
        by simp [ClientRun.after], by simp [ClientRun.after, hrunning]⟩
  | other =>
      obtain rfl := Option.some.inj hstep
      exact ⟨_, hrun ⟨run.psc, none, none, 0, false⟩ rfl, h.psc,
        by simp [ClientRun.after, hopen], by simp [ClientRun.after, hrunning]⟩

end ClientObject

/-- The bytes of the client's session behave as the structured session. -/
theorem clientObjects_simulates :
    clientObjects.Simulation clientSession fun s run ↦
      s.Shows run ∧ clientSession.Reachable run where
  init := by
    rintro s rfl
    exact ⟨.start, rfl, ⟨ClientObject.start_represents, rfl, rfl⟩, .of_init rfl⟩
  step := by
    rintro s c t run ⟨hshows, hreach⟩ hstep
    obtain ⟨run', hrun, hshows'⟩ := ClientObject.step_shows hshows
      (fun content hrunning ↦ (outfp_of_reachable hreach hrunning).1 content) hstep
    exact ⟨_, run', .single hrun, hshows', hreach.step hrun⟩

end EsNotebook.FileTransfer
