import EsNotebook.Lib.CMemory

/-!
# The file protocol header

Constants, states and the handshake header of `test-server-file.h`, with the
byte layout that x86_64 gives it.  Every `lws_write` of the two callbacks is
described by a record of its call site, the place of its pointer in the
local array and the bytes it passes.
-/

namespace EsNotebook.FileTransfer

open CMemory

def fssMaxFilenameLen : ℕ := 256
def fssFileChecksumLen : ℕ := 32

/-- 256 MB -/
def fssMaxFileSize : ℤ := 256 * 1024 * 1024

inductive FileServerState where
  | none
  | connected
  /-- req ok, before send resp -/
  | headerReady
  /-- wait client start -/
  | waitStart
  | transfer
  | done
  | error
  deriving DecidableEq, Repr

inductive FileClientState where
  | none
  | connected
  /-- wait server confirm -/
  | waitConfirm
  /-- received ok from server -/
  | confirmed
  | transfer
  | done
  | error
  deriving DecidableEq, Repr

def fssHskHdrSize : ℕ := 8
def fssMagic : BitVec 32 := 0x98AC0000#32
def fssFileReq : BitVec 32 := fssMagic ||| 1#32
def fssFileRespOk : BitVec 32 := fssMagic ||| 2#32
def fssFileRespError : BitVec 32 := fssMagic ||| 3#32
def fssFileStart : BitVec 32 := fssMagic ||| 4#32
def fssDummy : BitVec 32 := fssMagic ||| 0xF#32

def fssGetMagic (x : BitVec 32) : BitVec 32 := x &&& 0xffff0000#32

/-- `struct fss_header_hsk` -/
structure FssHeaderHsk where
  type : BitVec 32
  filesize : BitVec 32
  checksum : Vector UInt8 fssFileChecksumLen
  filename : Vector UInt8 fssMaxFilenameLen

namespace FssHeaderHsk

def checksumOffset : ℕ := 8
def filenameOffset : ℕ := 40

/-- `sizeof(struct fss_header_hsk)` -/
def size : ℕ := 296

def toBytes (h : FssHeaderHsk) : Bytes :=
  bytes32 h.type ++ bytes32 h.filesize ++ h.checksum.toList ++ h.filename.toList

/-- What `memset(buf, 0, 1000)` leaves in the header. -/
def zero : FssHeaderHsk :=
  { type := 0
    filesize := 0
    checksum := Vector.replicate _ 0
    filename := Vector.replicate _ 0 }

@[simp] theorem toBytes_length (h : FssHeaderHsk) : h.toBytes.length = size := by
  simp [toBytes]
  rfl

theorem toBytes_take_hdr (h : FssHeaderHsk) :
    h.toBytes.take fssHskHdrSize = bytes32 h.type ++ bytes32 h.filesize := by
  rw [toBytes, List.append_assoc]
  exact List.take_left' (by simp [fssHskHdrSize])

@[simp] theorem load32_type_take_hdr (h : FssHeaderHsk) :
    load32 (h.toBytes.take fssHskHdrSize) 0 = some h.type := by
  have hload := load32_append [] (bytes32 h.filesize) h.type rfl
  simpa [toBytes_take_hdr] using hload

end FssHeaderHsk

/-- The frame of a header of this type with size 1 and empty strings. -/
def headerFrame (type : BitVec 32) : Bytes :=
  ({ FssHeaderHsk.zero with filesize := 1, type := type } : FssHeaderHsk).toBytes

/-! ## Calls of `lws_write` -/

/-- `LWS_PRE` on x86_64: 4 + 10 rounded up to a multiple of 16. -/
def lwsPre : ℕ := 16

/-- The four places that call `lws_write`. -/
inductive WriteSite where
  | fileReq
  | fileStart
  | fileRespOk
  | fileContent
  deriving DecidableEq, Repr

/-- `lws_write(wsi, buf + offset, payload.length, LWS_WRITE_BINARY)` with
`buf` a local array of `size` bytes. -/
structure LwsWrite where
  site : WriteSite
  offset : ℕ
  size : ℕ
  payload : Bytes
  deriving DecidableEq, Repr

/-- A write that returns at least the count it was given was queued whole. -/
def LwsWrite.Queued (w : LwsWrite) (r : BitVec 32) : Prop :=
  (w.payload.length : ℤ) ≤ r.toInt

instance (w : LwsWrite) (r : BitVec 32) : Decidable (w.Queued r) :=
  inferInstanceAs (Decidable (_ ≤ _))

/-- The string field `char dst[size]` after `strcpy(dst, src)`; copying past
the end of the field or of the source is undefined. -/
def strcpyField (size : ℕ) (src : Bytes) : Option Bytes :=
  (cString src).filter (·.length < size)

theorem strcpyField_eq_some_iff {size : ℕ} {src s : Bytes} :
    strcpyField size src = some s ↔ cString src = some s ∧ s.length < size := by
  simp [strcpyField, Option.filter_eq_some_iff]

theorem strcpyField_isSome_iff {size : ℕ} {src : Bytes} :
    (strcpyField size src).isSome ↔ (0 : UInt8) ∈ src.take size := by
  rw [Option.isSome_iff_exists, ← exists_cString_lt_iff]
  simp only [strcpyField_eq_some_iff]

end EsNotebook.FileTransfer
