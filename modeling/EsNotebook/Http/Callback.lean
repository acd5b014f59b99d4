import EsNotebook.Http.Requests
import EsNotebook.Lib.Links
import EsNotebook.Lib.Lts

/-!
# The http protocol

`callback_http` of `test-server-http.c` serves any number of connections.  A
form may come with files, all of which are written to one place; the picture
is read and sent in pieces, as the connection can take them.  The form's
parser and the sending belong to libwebsockets, and an event says what they
do; so does it for the system calls.
-/

namespace EsNotebook.Http

/-- The address of a connection's user data. -/
abbrev Addr := ℕ

/-- A file descriptor, or a file that libwebsockets has opened. -/
abbrev Fd := ℕ

/-- `struct per_session_data__http`; nothing stands for `LWS_INVALID_FILE` and
for the null pointer. -/
structure PerSessionDataHttp where
  fopFd : Option Fd
  spa : Bool
  filename : List Char
  fileLength : ℕ
  postFd : Option Fd
  deriving DecidableEq, Repr

/-- What is sent with `LWS_WRITE_HTTP_HEADERS` or `LWS_WRITE_HTTP`, and the end
of a transaction. -/
inductive Chunk where
  | headers (contentLength : ℕ)
  | body (bytes : List UInt8)
  | formResults (filename : List Char) (length : ℕ)
  | completed
  deriving DecidableEq, Repr

/-- A connection: its user data, whether its parser is in the middle of a file,
whether it is about to be closed, and what has been sent on it. -/
structure Connection where
  pss : PerSessionDataHttp
  inFile : Bool
  closing : Bool
  out : List Chunk
  deriving DecidableEq, Repr

/-- `/tmp/post-file`, and how far each of its open descriptors has come. -/
structure PostFile where
  content : List UInt8
  offsets : Heap Fd ℕ

structure Server where
  connections : Heap Addr Connection
  file : PostFile
  /-- the open picture files, and how far they have been read -/
  handles : Heap Fd ℕ

def Server.init : Server := ⟨⟨[]⟩, ⟨[], ⟨[]⟩⟩, ⟨[]⟩⟩

/-! ## Uploads -/

/-- The bytes `bs` at an offset, after zeros where the file has ended before. -/
def overwrite (content : List UInt8) (offset : ℕ) (bs : List UInt8) : List UInt8 :=
  if bs = [] then content
  else content.take offset ++ List.replicate (offset - content.length) 0 ++ bs ++
    content.drop (offset + bs.length)

namespace PostFile

/-- `open` with `O_CREAT | O_TRUNC`, which fails or returns `fd`. -/
def create (f : PostFile) : Option Fd → PostFile
  | some fd => ⟨[], f.offsets.alloc fd 0⟩
  | none => f

/-- `write`, of the bytes that get through. -/
def write (f : PostFile) (fd : Option Fd) (bs : List UInt8) : PostFile :=
  match fd.bind fun fd ↦ (f.offsets.get? fd).map fun o ↦ (fd, o) with
  | some (fd, o) => ⟨overwrite f.content o bs, f.offsets.modify fd (· + bs.length)⟩
  | none => f

def close (f : PostFile) : Option Fd → PostFile
  | some fd => ⟨f.content, f.offsets.free fd⟩
  | none => f

end PostFile

/-- What the parser calls `file_upload_cb` for; `wrote` is how much of the data
the `write` takes. -/
inductive UploadCall where
  | opened (filename : List Char) (fd : Option Fd)
  | content (buf : List UInt8) (wrote : ℕ)
  | finalContent (buf : List UInt8) (wrote : ℕ)
  deriving DecidableEq, Repr

/-- `file_upload_cb` drops a file that gets longer. -/
def maxFileLength : ℕ := 100000

/-- Data for the file: counted, and written unless there has been too much;
whether `file_upload_cb` goes on. -/
def receiveContent (pss : PerSessionDataHttp) (file : PostFile) (buf : List UInt8) (wrote : ℕ) :
    PerSessionDataHttp × PostFile × Bool :=
  if buf.length = 0 then (pss, file, true)
  else
    let pss := { pss with fileLength := pss.fileLength + buf.length }
    if pss.fileLength > maxFileLength then (pss, file, false)
    else (pss, file.write pss.postFd (buf.take wrote), true)

/-- `file_upload_cb` -/
def fileUploadCb (pss : PerSessionDataHttp) (file : PostFile) :
    UploadCall → PerSessionDataHttp × PostFile
  | .opened filename fd =>
      ({ pss with filename := filename.take 255, postFd := fd }, file.create fd)
  | .content buf wrote =>
      let (pss, file, _) := receiveContent pss file buf wrote
      (pss, file)
  | .finalContent buf wrote =>
      let (pss, file, goesOn) := receiveContent pss file buf wrote
      if goesOn then ({ pss with postFd := none }, file.close pss.postFd) else (pss, file)

/-- `LWS_CALLBACK_HTTP_BODY`, before the parser reads the data; `created` says
whether there is memory for a parser. -/
def httpBody (c : Connection) (created : Bool) : Connection :=
  if c.pss.spa then c
  else if created then { c with pss := { c.pss with spa := true, filename := [], fileLength := 0 } }
  else { c with closing := true }

/-! ## The picture -/

/-- What happens in one round of the loop that sends the picture: how much the
peer can take, whether the file can be read, what `lws_write` returns, and
whether the pipe is choked then. -/
structure Io where
  allowance : Option ℕ
  readFails : Bool
  wrote : Option ℕ
  choked : Bool
  deriving DecidableEq, Repr

/-- The labels behind the loop. -/
inductive Label where
  | later
  | penultimate
  | bail
  deriving DecidableEq, Repr

/-- `sizeof(buffer) - LWS_PRE` -/
def bufferSize : ℕ := 4096

/-- The loop, from an offset on: the pieces that are sent, the offset after it
and where it goes. -/
def sendLoop (content : List UInt8) : ℕ → ℕ → List Io → Option (List (List UInt8) × ℕ × Label)
  | _, _, [] => none
  | sent, pos, io :: ios =>
      if io.allowance = some 0 then some ([], pos, .later)
      else if io.readFails then some ([], pos, .bail)
      else
        let bytes := (content.drop pos).take (min bufferSize (io.allowance.getD bufferSize))
        if bytes = [] then some ([], pos, .penultimate)
        else
          match io.wrote with
          | none => some ([], pos + bytes.length, .bail)
          | some m =>
              if io.choked = false ∧ sent + m < 1024 * 1024 then
                (sendLoop content (sent + m) (pos + bytes.length) ios).map
                  fun (pieces, pos, label) ↦ (bytes :: pieces, pos, label)
              else some ([bytes], pos + bytes.length, .later)

/-- `LWS_CALLBACK_HTTP`, and the picture's headers; `fd` is what the file
system returns for it, and `wrote` whether the headers can be sent. -/
def http (cfg : Config) (c : Connection) (handles : Heap Fd ℕ) (req : Request) (fd : Fd)
    (wrote : Bool) : Option (Connection × Heap Fd ℕ) := do
  match ← respond cfg req with
  | .sendLeaf _ =>
      match cfg.leaf with
      | none => some ({ c with closing := true }, handles)
      | some content =>
          if wrote then
            some ({ c with
              pss := { c.pss with fopFd := some fd }
              out := c.out ++ [.headers content.length] }, handles.alloc fd 0)
          -- the file has been closed again
          else some ({ c with closing := true }, handles)
  | .refuse | .unsupportedMediaType => some ({ c with closing := true }, handles)
  | _ => some (c, handles)

/-- `LWS_CALLBACK_HTTP_WRITEABLE` -/
def httpWriteable (cfg : Config) (c : Connection) (handles : Heap Fd ℕ) (ios : List Io) :
    Option (Connection × Heap Fd ℕ) :=
  match c.pss.fopFd with
  | none => some (c, handles)
  | some fd => do
      let pos ← handles.get? fd
      let (pieces, pos, label) ← sendLoop (← cfg.leaf) 0 pos ios
      let out := c.out ++ pieces.map .body
      match label with
      | .later => some ({ c with out := out }, handles.modify fd fun _ ↦ pos)
      | .penultimate =>
          some ({ c with pss := { c.pss with fopFd := none }, out := out ++ [.completed] },
            handles.free fd)
      | .bail =>
          some ({ c with pss := { c.pss with fopFd := none }, closing := true, out := out },
            handles.free fd)

/-! ## The system -/

inductive Event where
  | accepted (a : Addr)
  | http (a : Addr) (req : Request) (fd : Fd) (wrote : Bool)
  | httpBody (a : Addr) (created : Bool)
  | fileUpload (a : Addr) (call : UploadCall)
  | httpBodyCompletion (a : Addr)
  | httpWriteable (a : Addr) (ios : List Io)
  | httpDropProtocol (a : Addr)
  | closed (a : Addr)
  deriving DecidableEq, Repr

/-- A connection on user data that is all zero. -/
def Connection.fresh : Connection := ⟨⟨none, false, [], 0, some 0⟩, false, false, []⟩

def Server.modify (s : Server) (a : Addr) (f : Connection → Connection) : Server :=
  { s with connections := s.connections.modify a f }

/-- `callback_http`; nothing stands for an access to what is not open or
allocated, a write past a buffer, or a loop that is not over. -/
def callback (cfg : Config) (s : Server) : Event → Option Server
  | .accepted a => some { s with connections := s.connections.alloc a .fresh }
  | .http a req fd wrote => do
      let (c, handles) ← Http.http cfg (← s.connections.get? a) s.handles req fd wrote
      some { s.modify a (fun _ ↦ c) with handles := handles }
  | .httpBody a created => some (s.modify a (Http.httpBody · created))
  | .fileUpload a call => do
      let c ← s.connections.get? a
      let (pss, file) := fileUploadCb c.pss s.file call
      let inFile := match call with
        | .finalContent _ _ => false
        | _ => true
      some { s.modify a (fun c ↦ { c with pss := pss, inFile := inFile }) with file := file }
  | .httpBodyCompletion a =>
      some (s.modify a fun c ↦
        { c with out := c.out ++ [.formResults c.pss.filename c.pss.fileLength, .completed] })
  | .httpWriteable a ios => do
      let (c, handles) ← Http.httpWriteable cfg (← s.connections.get? a) s.handles ios
      some { s.modify a (fun _ ↦ c) with handles := handles }
  | .httpDropProtocol a =>
      some (s.modify a fun c ↦ { c with pss := { c.pss with spa := false }, inFile := false })
  | .closed a => some { s with connections := s.connections.free a }

/-- What libwebsockets can call for: requests one after the other on each
connection, the parts of a file in their order, and nothing more on a
connection that is about to be closed, except for its end. -/
def Enabled (s : Server) : Event → Prop
  | .accepted a => s.connections.get? a = none
  | .http a _ fd _ => s.handles.get? fd = none ∧
      (s.connections.get? a).any (fun c ↦ c.closing = false ∧ c.pss.fopFd = none)
  | .httpBody a _ => (s.connections.get? a).any fun c ↦ c.closing = false ∧ c.pss.fopFd = none
  | .fileUpload a (.opened _ fd) => (∀ fd' ∈ fd, s.file.offsets.get? fd' = none) ∧
      (s.connections.get? a).any fun c ↦ c.closing = false ∧ c.pss.spa = true ∧ c.inFile = false
  | .fileUpload a (.content buf wrote) | .fileUpload a (.finalContent buf wrote) =>
      wrote ≤ buf.length ∧
        (s.connections.get? a).any fun c ↦ c.closing = false ∧ c.pss.spa = true ∧ c.inFile = true
  | .httpBodyCompletion a =>
      (s.connections.get? a).any fun c ↦ c.closing = false ∧ c.pss.spa = true ∧ c.pss.fopFd = none
  | .httpWriteable a _ => (s.connections.get? a).any fun c ↦ c.closing = false
  | .httpDropProtocol a | .closed a => (s.connections.get? a).isSome

instance (s : Server) (e : Event) : Decidable (Enabled s e) :=
  match e with
  | .accepted a => inferInstanceAs (Decidable (s.connections.get? a = none))
  | .http _ _ _ _ => inferInstanceAs (Decidable (_ ∧ _))
  | .fileUpload _ (.opened _ _) => inferInstanceAs (Decidable (_ ∧ _))
  | .fileUpload _ (.content _ _) | .fileUpload _ (.finalContent _ _) =>
      inferInstanceAs (Decidable (_ ∧ _))
  | .httpBody _ _ | .httpBodyCompletion _ | .httpWriteable _ _ | .httpDropProtocol _ | .closed _ =>
      inferInstanceAs (Decidable (_ = true))

def step (cfg : Config) (s : Server) (e : Event) : Option Server :=
  if Enabled s e then callback cfg s e else none

/-- The server, from its start. -/
def httpServer (cfg : Config) : Lts Server Event := Lts.ofStep .init (step cfg)

variable {cfg : Config} {s s' : Server} {e : Event} {a b : Addr} {c : Connection}
  {f : Connection → Connection}

theorem step_eq_some_iff : step cfg s e = some s' ↔ Enabled s e ∧ callback cfg s e = some s' :=
  Option.ite_none_right_eq_some

theorem exists_of_any {p : Connection → Prop} [DecidablePred p]
    (h : (s.connections.get? a).any (fun c ↦ p c) = true) :
    ∃ c, s.connections.get? a = some c ∧ p c := by
  obtain ⟨c, hc, hp⟩ := (Option.any_eq_true _ _).mp h
  exact ⟨c, hc, of_decide_eq_true hp⟩

theorem get?_modify_of_ne (hb : b ≠ a) :
    (s.modify a f).connections.get? b = s.connections.get? b :=
  Heap.get?_modify_of_ne hb

theorem get?_modify_self (hc : s.connections.get? a = some c) :
    (s.modify a f).connections.get? a = some (f c) :=
  Heap.get?_modify_of_get? hc

end EsNotebook.Http
