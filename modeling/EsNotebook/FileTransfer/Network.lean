import EsNotebook.FileTransfer.Client
import EsNotebook.FileTransfer.ServerSession

/-!
# One client and one server over reliable channels

The two sessions start as their `ESTABLISHED` callbacks leave them and
exchange messages over two first-in first-out channels.  A block of the file
may reach the client in any number of fragments; the reply arrives whole.  A
write that is not accepted whole, and a callback that returns non-zero, ends
the connection: the sessions are freed and only the output file remains.

`NetPhase` lists the joint states of the two machines.  From it the network
is shown to refine a reliable pipe that carries the file.
-/

namespace EsNotebook.FileTransfer

open CMemory

def clientWrites (log : List ClientLog) : List LwsWrite :=
  log.filterMap fun
    | .queued w => some w
    | .stored _ => none

def storedChunks (log : List ClientLog) : List Bytes :=
  log.filterMap fun
    | .queued _ => none
    | .stored content => some content

/-- The entries that a call has added to a list. -/
def fresh {α : Type*} (before after : List α) : List α :=
  after.drop before.length

@[simp] theorem fresh_self {α : Type*} (l : List α) : fresh l l = [] := by
  simp [fresh]

@[simp] theorem fresh_append {α : Type*} (l l' : List α) : fresh l (l ++ l') = l' := by
  simp [fresh]

@[simp] theorem clientWrites_queued (log : List ClientLog) (w : LwsWrite) :
    clientWrites (log ++ [.queued w]) = clientWrites log ++ [w] := by
  simp [clientWrites]

@[simp] theorem clientWrites_stored (log : List ClientLog) (content : Bytes) :
    clientWrites (log ++ [.stored content]) = clientWrites log := by
  simp [clientWrites]

@[simp] theorem storedChunks_queued (log : List ClientLog) (w : LwsWrite) :
    storedChunks (log ++ [.queued w]) = storedChunks log := by
  simp [storedChunks]

@[simp] theorem storedChunks_stored (log : List ClientLog) (content : Bytes) :
    storedChunks (log ++ [.stored content]) = storedChunks log ++ [content] := by
  simp [storedChunks]

/-- The two sessions and the messages in flight.  `stored` records, for every
`fwrite` of the client, from which message its bytes came. -/
structure Net where
  client : ClientRun
  server : ServerRun
  toServer : List LwsWrite
  toClient : List LwsWrite
  stored : List (WriteSite × Bytes)

inductive Config where
  | up (n : Net)
  /-- the connection has ended -/
  | down (outfp : OutFile) (stored : List (WriteSite × Bytes))
  /-- the client has called `exit(0)` -/
  | exited (n : Net)

inductive NetEvent where
  | clientWriteable (io : ClientIo)
  /-- the next `k` bytes of the message at the head, more to come -/
  | clientFragment (k : ℕ) (io : ClientIo)
  /-- what is left of the message at the head -/
  | clientReceive (io : ClientIo)
  | serverWriteable (io : ServerIo)
  | serverReceive (io : ServerIo)

namespace Net

/-- The client is given `inp`, which belongs to a message written at `site`;
`rest` stays in flight. -/
def deliver (n : Net) (site : WriteSite) (inp : Bytes) (rest : List LwsWrite) (io : ClientIo) :
    Option Net :=
  (clientStep n.client ⟨.receive, inp, io⟩).map fun client ↦
    { n with
      client := client
      toClient := rest
      stored := n.stored ++
        (fresh (storedChunks n.client.log) (storedChunks client.log)).map (site, ·) }

def serverCall (F : Bytes) (n : Net) (c : ServerCall) (rest : List LwsWrite) : Option Net :=
  (serverStep F n.server c).map fun server ↦
    { n with
      server := server
      toServer := rest
      toClient := n.toClient ++ fresh (queuedWrites n.server.log) (queuedWrites server.log) }

def step (F : Bytes) (n : Net) : NetEvent → Option Net
  | .clientWriteable io =>
      (clientStep n.client ⟨.writeable, [], io⟩).map fun client ↦
        { n with
          client := client
          toServer := n.toServer ++ fresh (clientWrites n.client.log) (clientWrites client.log) }
  | .clientFragment k io =>
      match n.toClient with
      | [] => none
      | w :: rest =>
          if w.site = .fileContent then
            n.deliver w.site (w.payload.take k) ({ w with payload := w.payload.drop k } :: rest) io
          else none
  | .clientReceive io =>
      match n.toClient with
      | [] => none
      | w :: rest => n.deliver w.site w.payload rest io
  | .serverWriteable io => n.serverCall F ⟨.serverWriteable, [], io⟩ n.toServer
  | .serverReceive io =>
      match n.toServer with
      | [] => none
      | w :: rest => n.serverCall F ⟨.receive, w.payload, io⟩ rest

def start : Net :=
  { client := .start, server := .start, toServer := [], toClient := [], stored := [] }

/-- Whether the run goes on after a callback. -/
def settle (n : Net) : Config :=
  if n.client.exited then .exited n
  else if n.client.closed ∨ n.server.closed then .down n.client.psc.outfp n.stored
  else .up n

/-- The bytes written to `outfp` so far. -/
def written (n : Net) : Bytes := n.client.psc.outfp.content

/-- The file bytes that are on their way to the client. -/
def inFlight (n : Net) : Bytes :=
  ((n.toClient.filter fun w ↦ w.site = .fileContent).map LwsWrite.payload).flatten

/-- How much of the file the server has read. -/
def position (n : Net) : ℕ := n.server.pss.fp.getD 0

end Net

def Config.step (F : Bytes) : Config → NetEvent → Option Config
  | .up n, e => (n.step F e).map Net.settle
  | .down _ _, _ => none
  | .exited _, _ => none

def network (F : Bytes) : Lts Config NetEvent :=
  Lts.ofStep (.up Net.start) (Config.step F)

/-- The connection is up and `P` holds of it. -/
def Config.UpWith (P : Net → Prop) : Config → Prop
  | .up n => P n
  | .down _ _ | .exited _ => False

instance (P : Net → Prop) [DecidablePred P] : DecidablePred (Config.UpWith P)
  | .up n => inferInstanceAs (Decidable (P n))
  | .down _ _ | .exited _ => inferInstanceAs (Decidable False)

theorem Config.upWith_iff {P : Net → Prop} {c : Config} :
    c.UpWith P ↔ ∃ n, c = .up n ∧ P n := by
  cases c <;> simp [Config.UpWith]

/-! ## The joint states -/

/-- Nothing of the file has been read or stored. -/
structure Net.Untouched (n : Net) : Prop where
  bytes : n.client.psc.bytes = 0
  written : n.written = []
  stored : n.stored = []
  fp : n.server.pss.fp = none

/-- The client stores what the server sends, if the server could open the
file. -/
structure Net.Transferring (F : Bytes) (n : Net) : Prop where
  state : n.client.psc.state = .transfer
  outfp : n.client.psc.outfp = .opened n.written
  bytes : n.client.psc.bytes = BitVec.ofNat 32 n.written.length
  unfinished : n.client.psc.bytes ≠ expectedBytes
  stored : (n.stored.map Prod.snd).flatten = n.written
  sites : ∀ chunk ∈ n.stored, chunk.1 = .fileContent
  toServer : n.toServer = []
  toClient : ∀ w ∈ n.toClient, w.site = .fileContent
  server : n.server.pss.state = .error ∧ n.server.pss.fp = none ∧ n.toClient = [] ∨
    (n.server.pss.state = .transfer ∨ n.server.pss.state = .done) ∧
      ∃ pos, n.server.pss.fp = some pos ∧ pos ≤ F.length

inductive NetPhase (F : Bytes) (n : Net) : Prop
  | connected (huntouched : n.Untouched) (hclient : n.client.psc.state = .connected)
      (hserver : n.server.pss.state = .connected) (hto : n.toServer = [])
      (hfrom : n.toClient = [])
  | requested (huntouched : n.Untouched) (hclient : n.client.psc.state = .waitConfirm)
      (hserver : n.server.pss.state = .connected) (hto : n.toServer = [requestWrite])
      (hfrom : n.toClient = [])
  | accepted (huntouched : n.Untouched) (hclient : n.client.psc.state = .waitConfirm)
      (hserver : n.server.pss.state = .headerReady) (hto : n.toServer = [])
      (hfrom : n.toClient = [])
  | replied {io : ServerIo} (huntouched : n.Untouched)
      (hclient : n.client.psc.state = .waitConfirm)
      (hserver : n.server.pss.state = .waitStart) (hto : n.toServer = [])
      (hfrom : n.toClient = [respOk io])
  | confirmed (huntouched : n.Untouched) (hclient : n.client.psc.state = .confirmed)
      (hserver : n.server.pss.state = .waitStart) (hto : n.toServer = [])
      (hfrom : n.toClient = [])
  | starting {io : ClientIo} (huntouched : n.Untouched)
      (hclient : n.client.psc.state = .transfer) (hout : n.client.psc.outfp = .opened [])
      (hserver : n.server.pss.state = .waitStart) (hto : n.toServer = [startWrite io])
      (hfrom : n.toClient = [])
  | transferring (h : n.Transferring F)

/-- Neither side has closed and the client has not exited. -/
structure Net.Up (n : Net) : Prop where
  client : n.client.closed = false
  running : n.client.exited = false
  server : n.server.closed = false

theorem Net.Up.settle {n : Net} (h : n.Up) : n.settle = .up n := by
  simp [Net.settle, h.client, h.running, h.server]

/-- The network seen as a pipe that carries the file. -/
def Net.view (F : Bytes) (n : Net) : Pipe UInt8 :=
  ⟨F.drop n.position, n.inFlight, n.written⟩

/-- The view takes at most one step of the pipe. -/
def PipeStep (F : Bytes) (n t : Net) : Prop :=
  t.view F = n.view F ∨ ∃ e, t.view F = (n.view F).step e

/-- Every stored byte came from a block of the file. -/
structure Net.StoredContent (n : Net) : Prop where
  stored : (n.stored.map Prod.snd).flatten = n.written
  sites : ∀ chunk ∈ n.stored, chunk.1 = .fileContent

theorem Net.Untouched.storedContent {n : Net} (h : n.Untouched) : n.StoredContent :=
  { stored := by simp [h.stored, h.written]
    sites := by simp [h.stored] }

theorem Net.Transferring.storedContent {F : Bytes} {n : Net} (h : n.Transferring F) :
    n.StoredContent :=
  ⟨h.stored, h.sites⟩

theorem NetPhase.storedContent {F : Bytes} {n : Net} (h : NetPhase F n) : n.StoredContent := by
  cases h with
  | transferring h => exact h.storedContent
  | connected h | requested h | accepted h | replied h | confirmed h | starting h =>
      exact h.storedContent

/-- What one event does to a network that is up. -/
inductive NetOutcome (F : Bytes) (n t : Net) : Prop
  | on (hup : t.Up) (hphase : NetPhase F t) (hpipe : PipeStep F n t)
  | ended (hrunning : t.client.exited = false)
      (hclosed : t.client.closed = true ∨ t.server.closed = true)
      (hwritten : t.written = n.written) (hstored : t.stored = n.stored)
  | finished (hexited : t.client.exited = true) (hstored : t.StoredContent)
      (hbytes : BitVec.ofNat 32 t.written.length = expectedBytes) (hpipe : PipeStep F n t)

theorem view_eq_of_handshake {F : Bytes} {n t : Net} (hwritten : t.written = n.written)
    (hflight : t.inFlight = n.inFlight) (hpos : t.position = n.position) :
    PipeStep F n t := by
  left
  simp only [Net.view, hwritten, hflight, hpos]

@[simp] theorem inFlight_nil {n : Net} (h : n.toClient = []) : n.inFlight = [] := by
  simp [Net.inFlight, h]

@[simp] theorem inFlight_respOk {n : Net} {io : ServerIo} (h : n.toClient = [respOk io]) :
    n.inFlight = [] := by
  simp [Net.inFlight, h, respOk]

theorem netOutcome_clientWriteable {F : Bytes} {n t : Net} {io : ClientIo}
    (hup : n.Up) (hn : NetPhase F n) (h : n.step F (.clientWriteable io) = some t) :
    NetOutcome F n t := by
  obtain ⟨client, hclient, rfl⟩ := Option.map_eq_some_iff.mp h
  obtain ⟨-, htrans⟩ := clientTransition_of_step hclient
  cases htrans with
  | requested _ hstate _ =>
      cases hn with
      | connected hu hc hs hto hfrom =>
          refine .on ⟨rfl, rfl, hup.server⟩ (.requested ⟨hu.bytes, hu.written, hu.stored, hu.fp⟩
            rfl hs (by simp [hto]) hfrom) (view_eq_of_handshake rfl rfl rfl)
      | transferring h => simp [h.state] at hstate
      | requested _ hc | accepted _ hc | replied _ hc | confirmed _ hc | starting _ hc =>
          simp [hc] at hstate
  | requestFailed _ _ _ hout hclosed hexited =>
      exact .ended hexited (.inl hclosed) (by simp [Net.written, hout]) rfl
  | started _ hstate _ _ =>
      cases hn with
      | confirmed hu hc hs hto hfrom =>
          have hwritten : n.written = [] := hu.written
          refine .on ⟨rfl, rfl, hup.server⟩ (NetPhase.starting ⟨hu.bytes, rfl, hu.stored, hu.fp⟩
            rfl rfl hs (by simp [hto]; rfl) hfrom) (view_eq_of_handshake ?_ rfl rfl)
          rw [hwritten]
          rfl
      | transferring h => simp [h.state] at hstate
      | connected _ hc | requested _ hc | accepted _ hc | replied _ hc | starting _ hc =>
          simp [hc] at hstate
  | startFailed _ hstate _ hout hclosed hexited =>
      have hwritten : n.written = [] := by
        cases hn with
        | transferring h => simp [h.state] at hstate
        | connected h | requested h | accepted h | replied h | confirmed h | starting h =>
            exact h.written
      refine .ended hexited (.inl hclosed) ?_ rfl
      rw [hwritten]
      rcases hout with hout | hout <;> simp [Net.written, hout, OutFile.content]
  | confirmed hreason | rejected hreason | stored hreason | finished hreason
  | unexpected hreason => cases hreason
  | idle =>
      have heq : ({ n.client with
          closed := decide ((ClientReason.writeable : ClientReason) = .closed) } : ClientRun) =
            n.client := by
        have hopen := hup.client
        cases hclient : n.client
        simp_all
      simp only [heq, fresh_self, List.append_nil]
      exact .on hup hn (view_eq_of_handshake rfl rfl rfl)

/-- The client is given the next file bytes in flight. -/
theorem netOutcome_deliver {F : Bytes} {n t : Net} {inp : Bytes} {rest : List LwsWrite}
    {io : ClientIo} (hup : n.Up) (hn : n.Transferring F) (hne : n.toClient ≠ [])
    (hrest : ∀ w ∈ rest, w.site = .fileContent)
    (hflight : n.inFlight = inp ++ ({ n with toClient := rest } : Net).inFlight)
    (h : n.deliver .fileContent inp rest io = some t) : NetOutcome F n t := by
  obtain ⟨client, hclient, rfl⟩ := Option.map_eq_some_iff.mp h
  obtain ⟨-, htrans⟩ := clientTransition_of_step hclient
  have hpipe (client : ClientRun) (stored : List (WriteSite × Bytes))
      (hcontent : client.psc.outfp.content = n.written ++ inp) :
      PipeStep F n { n with client := client, toClient := rest, stored := stored } := by
    refine .inr ⟨.pull inp.length, ?_⟩
    simp only [Net.view, Pipe.step, hflight, List.drop_left, List.take_left]
    simp only [Net.written, Net.position, Net.inFlight] at hcontent ⊢
    rw [hcontent]
  have hsites : ∀ chunk ∈ n.stored ++ [(WriteSite.fileContent, inp)],
      chunk.1 = .fileContent := by
    intro chunk hmem
    rcases List.mem_append.mp hmem with hmem | hmem
    · exact hn.sites chunk hmem
    · simp_all
  cases htrans with
  | requested hreason | requestFailed hreason | started hreason | startFailed hreason =>
      cases hreason
  | confirmed _ hstate | rejected _ hstate => simp [hn.state] at hstate
  | @stored content _ _ hout hmore =>
      have hcontent : content = n.written := by simp [Net.written, hout, OutFile.content]
      subst hcontent
      refine .on ⟨rfl, rfl, hup.server⟩ (.transferring ?_) (hpipe _ _ rfl)
      exact
        { state := hn.state
          outfp := rfl
          bytes := by simp [hn.bytes, Net.written, OutFile.content, BitVec.ofNat_add]
          unfinished := hmore
          stored := by simp [hn.stored, Net.written, OutFile.content]
          sites := by simpa using hsites
          toServer := hn.toServer
          toClient := hrest
          server := by
            rcases hn.server with ⟨_, _, hnil⟩ | hserver
            · exact (hne hnil).elim
            · exact .inr hserver }
  | @finished content _ _ hout hlast =>
      have hcontent : content = n.written := by simp [Net.written, hout, OutFile.content]
      subst hcontent
      refine .finished rfl ⟨?_, by simpa using hsites⟩ ?_ (hpipe _ _ rfl)
      · simp [hn.stored, Net.written, OutFile.content]
      · rw [← hlast, hn.bytes, ← BitVec.ofNat_add]
        simp [Net.written, OutFile.content]
  | unexpected _ _ htransfer => exact (htransfer hn.state).elim
  | idle hreason => exact (hreason rfl).elim

/-- A fragment of a message, or the rest of one, reaches the client. -/
theorem netOutcome_clientReceive {F : Bytes} {n t : Net} {e : NetEvent}
    (hup : n.Up) (hn : NetPhase F n)
    (he : (∃ k io, e = .clientFragment k io) ∨ ∃ io, e = .clientReceive io)
    (h : n.step F e = some t) : NetOutcome F n t := by
  cases hn with
  | connected _ _ _ _ hfrom | requested _ _ _ _ hfrom | accepted _ _ _ _ hfrom
  | confirmed _ _ _ _ hfrom | starting _ _ _ _ _ hfrom =>
      rcases he with ⟨k, io, rfl⟩ | ⟨io, rfl⟩ <;> simp [Net.step, hfrom] at h
  | @replied sio hu hc hs hto hfrom =>
      rcases he with ⟨k, io, rfl⟩ | ⟨io, rfl⟩
      · simp [Net.step, hfrom, respOk] at h
      · simp only [Net.step, hfrom] at h
        obtain ⟨client, hclient, rfl⟩ := Option.map_eq_some_iff.mp h
        obtain ⟨-, htrans⟩ := clientTransition_of_step hclient
        cases htrans with
        | requested hreason | requestFailed hreason | started hreason | startFailed hreason =>
            cases hreason
        | confirmed =>
            refine .on ⟨rfl, rfl, hup.server⟩ (.confirmed ⟨hu.bytes, hu.written, ?_, hu.fp⟩
              rfl hs hto rfl) (view_eq_of_handshake rfl ?_ rfl)
            · simp [hu.stored]
            · rw [inFlight_respOk hfrom, inFlight_nil rfl]
        | rejected _ _ htype hne =>
            rw [load32_respOk] at htype
            exact (hne (Option.some.inj htype).symm).elim
        | stored _ hstate | finished _ hstate => simp [hc] at hstate
        | unexpected _ hwait => exact (hwait hc).elim
        | idle hreason => exact (hreason rfl).elim
  | transferring hn =>
      cases hfrom : n.toClient with
      | nil =>
          rcases he with ⟨k, io, rfl⟩ | ⟨io, rfl⟩ <;> simp [Net.step, hfrom] at h
      | cons w rest =>
          have hsite : w.site = .fileContent := hn.toClient w (by simp [hfrom])
          have hrest : ∀ v ∈ rest, v.site = .fileContent :=
            fun v hv ↦ hn.toClient v (by simp [hfrom, hv])
          have hflight : n.inFlight =
              w.payload ++ ({ n with toClient := rest } : Net).inFlight := by
            simp [Net.inFlight, hfrom, hsite]
          rcases he with ⟨k, io, rfl⟩ | ⟨io, rfl⟩
          · simp only [Net.step, hfrom, hsite, if_true] at h
            refine netOutcome_deliver hup hn (by simp [hfrom]) ?_ ?_ h
            · intro v hv
              rcases List.mem_cons.mp hv with rfl | hv
              · rfl
              · exact hrest v hv
            · rw [hflight]
              simp [Net.inFlight, ← List.append_assoc]
          · simp only [Net.step, hfrom, hsite] at h
            exact netOutcome_deliver hup hn (by simp [hfrom]) hrest hflight h

theorem inFlight_append_content (n : Net) (blk : Bytes) :
    ({ n with toClient := n.toClient ++ [contentWrite blk] } : Net).inFlight =
      n.inFlight ++ blk := by
  simp [Net.inFlight, contentWrite]

theorem netOutcome_serverWriteable {F : Bytes} {n t : Net} {io : ServerIo}
    (hup : n.Up) (hn : NetPhase F n) (h : n.step F (.serverWriteable io) = some t) :
    NetOutcome F n t := by
  obtain ⟨server, hserver, rfl⟩ := Option.map_eq_some_iff.mp h
  obtain ⟨-, htrans⟩ := serverTransition_of_step hserver
  cases htrans with
  | headerRefused hreason | headerAccepted hreason | started hreason | notOpened hreason
  | ignored hreason => cases hreason
  | replied _ hstate _ =>
      cases hn with
      | accepted hu hc hs hto hfrom =>
          refine .on ⟨hup.client, hup.running, rfl⟩ (.replied
            ⟨hu.bytes, hu.written, hu.stored, hu.fp⟩ hc rfl hto (by simp [hfrom]; rfl))
            (view_eq_of_handshake rfl ?_ rfl)
          rw [inFlight_nil hfrom]
          exact @inFlight_respOk _ io (by simp [hfrom])
      | transferring h =>
          rcases h.server with ⟨hs, _⟩ | ⟨hs | hs, _⟩ <;> simp [hs] at hstate
      | connected _ _ hs | requested _ _ hs | replied _ _ hs | confirmed _ _ hs =>
          simp [hs] at hstate
      | starting _ _ _ hs => simp [hs] at hstate
  | replyFailed => exact .ended hup.running (.inr rfl) rfl rfl
  | @sent pos blk _ hstate hpos hblock _ =>
      cases hn with
      | transferring hn =>
          have hposition : n.position = pos := by simp [Net.position, hpos]
          have hle : pos ≤ F.length := by
            rcases hn.server with ⟨hs, _⟩ | ⟨_, pos', hfp, hle⟩
            · simp [hs] at hstate
            · rw [hpos] at hfp
              exact Option.some.inj hfp ▸ hle
          have hbound : blk.length ≤ F.length - pos := hblock ▸ fread_length_le F pos _
          have htake : blk = (F.drop pos).take blk.length := hblock ▸ fread_eq_take F pos _
          refine .on ⟨hup.client, hup.running, rfl⟩ (.transferring ?_)
            (.inr ⟨.push blk.length, ?_⟩)
          · refine
              { state := hn.state, outfp := hn.outfp, bytes := hn.bytes, unfinished := hn.unfinished
                stored := hn.stored, sites := hn.sites, toServer := hn.toServer, toClient := ?_, server := ?_ }
            · intro w hw
              simp only [queuedWrites_queued, fresh_append, List.mem_append,
                List.mem_singleton] at hw
              rcases hw with hw | rfl
              · exact hn.toClient w hw
              · rfl
            · refine .inr ⟨?_, pos + blk.length, rfl, by omega⟩
              by_cases hlast : blk.length < 10000 <;> simp [hlast]
          · have hflight := inFlight_append_content n blk
            simp only [Net.view, Pipe.step, hposition, ← htake, List.drop_drop,
              queuedWrites_queued, fresh_append]
            simp only [Net.inFlight] at hflight ⊢
            rw [hflight]
            rfl
      | connected _ _ hs | requested _ _ hs | accepted _ _ hs | replied _ _ hs
      | confirmed _ _ hs => simp [hs] at hstate
      | starting _ _ _ hs => simp [hs] at hstate
  | sendFailed => exact .ended hup.running (.inr rfl) rfl rfl
  | idle =>
      simp only [fresh_self, List.append_nil]
      exact .on hup hn (view_eq_of_handshake rfl rfl rfl)

/-- The request of the client passes the header check. -/
theorem headerRefused_request : headerRefused requestWrite.payload = some false := by
  decide +kernel

theorem netOutcome_serverReceive {F : Bytes} {n t : Net} {io : ServerIo}
    (hup : n.Up) (hn : NetPhase F n) (h : n.step F (.serverReceive io) = some t) :
    NetOutcome F n t := by
  cases hn with
  | connected _ _ _ hto | accepted _ _ _ hto | replied _ _ _ hto | confirmed _ _ _ hto =>
      simp [Net.step, hto] at h
  | transferring hn => simp [Net.step, hn.toServer] at h
  | requested hu hc hs hto hfrom =>
      simp only [Net.step, hto] at h
      obtain ⟨server, hserver, rfl⟩ := Option.map_eq_some_iff.mp h
      obtain ⟨-, htrans⟩ := serverTransition_of_step hserver
      cases htrans with
      | headerRefused _ _ hhdr => simp [headerRefused_request] at hhdr
      | headerAccepted =>
          refine .on ⟨hup.client, hup.running, rfl⟩ (.accepted
            ⟨hu.bytes, hu.written, hu.stored, hu.fp⟩ hc rfl rfl ?_)
            (view_eq_of_handshake rfl ?_ rfl)
          · simp [hfrom]
          · simp [Net.inFlight]
      | started _ hstate | notOpened _ hstate => simp [hs] at hstate
      | ignored _ hconn => exact (hconn hs).elim
      | replied hreason | replyFailed hreason | sent hreason | sendFailed hreason =>
          cases hreason
      | idle hreason => exact (hreason rfl).elim
  | starting hu hc hout hs hto hfrom =>
      simp only [Net.step, hto] at h
      obtain ⟨server, hserver, rfl⟩ := Option.map_eq_some_iff.mp h
      obtain ⟨-, htrans⟩ := serverTransition_of_step hserver
      have hwritten : n.written = [] := hu.written
      have htransfer (server : ServerRun)
          (hs : server.pss.state = .error ∧ server.pss.fp = none ∨
            server.pss.state = .transfer ∧ server.pss.fp = some 0) :
          Net.Transferring F { n with server := server, toServer := [] } := by
        refine
          { state := hc, outfp := ?_, bytes := ?_, unfinished := ?_, stored := ?_
            sites := ?_, toServer := rfl, toClient := ?_, server := ?_ }
        · simp [Net.written, hout, OutFile.content]
        · simpa [Net.written, hout, OutFile.content] using hu.bytes
        · simp [hu.bytes, expectedBytes]
        · simp [Net.written, hout, OutFile.content, hu.stored]
        · simp [hu.stored]
        · simp [hfrom]
        · rcases hs with ⟨hs, hfp⟩ | ⟨hs, hfp⟩
          · exact .inl ⟨hs, hfp, hfrom⟩
          · exact .inr ⟨.inl hs, 0, hfp, Nat.zero_le _⟩
      cases htrans with
      | headerRefused _ hstate | headerAccepted _ hstate => simp [hs] at hstate
      | started =>
          simp only [queuedWrites_received, fresh_self, List.append_nil]
          exact .on ⟨hup.client, hup.running, rfl⟩ (.transferring (htransfer _ (.inr ⟨rfl, rfl⟩)))
            (view_eq_of_handshake rfl rfl (by simp [Net.position, hu.fp]))
      | notOpened =>
          simp only [queuedWrites_received, fresh_self, List.append_nil]
          exact .on ⟨hup.client, hup.running, rfl⟩ (.transferring (htransfer _ (.inl ⟨rfl, rfl⟩)))
            (view_eq_of_handshake rfl rfl (by simp [Net.position, hu.fp]))
      | ignored _ _ hwait => exact (hwait hs).elim
      | replied hreason | replyFailed hreason | sent hreason | sendFailed hreason =>
          cases hreason
      | idle hreason => exact (hreason rfl).elim

theorem netOutcome_of_step {F : Bytes} {n t : Net} {e : NetEvent} (hup : n.Up)
    (hn : NetPhase F n) (h : n.step F e = some t) : NetOutcome F n t := by
  cases e with
  | clientWriteable io => exact netOutcome_clientWriteable hup hn h
  | clientFragment k io => exact netOutcome_clientReceive hup hn (.inl ⟨k, io, rfl⟩) h
  | clientReceive io => exact netOutcome_clientReceive hup hn (.inr ⟨io, rfl⟩) h
  | serverWriteable io => exact netOutcome_serverWriteable hup hn h
  | serverReceive io => exact netOutcome_serverReceive hup hn h

/-! ## The server inside the network -/

/-- `fread` is short only at end of file. -/
def NetEvent.NoReadError : NetEvent → Prop
  | .serverWriteable io => io.freadError = none
  | _ => True

theorem server_step_of_net_step {F : Bytes} {n t : Net} {e : NetEvent}
    (h : n.step F e = some t) : t.server = n.server ∨
      ∃ c, serverStep F n.server c = some t.server ∧
        (c.reason = .serverWriteable → e = .serverWriteable c.io) := by
  cases e with
  | clientWriteable io =>
      obtain ⟨_, _, rfl⟩ := Option.map_eq_some_iff.mp h
      exact .inl rfl
  | clientFragment k io =>
      simp only [Net.step] at h
      split at h
      · cases h
      · split at h
        · obtain ⟨_, _, rfl⟩ := Option.map_eq_some_iff.mp h
          exact .inl rfl
        · cases h
  | clientReceive io =>
      simp only [Net.step] at h
      split at h
      · cases h
      · obtain ⟨_, _, rfl⟩ := Option.map_eq_some_iff.mp h
        exact .inl rfl
  | serverWriteable io =>
      obtain ⟨_, hstep, rfl⟩ := Option.map_eq_some_iff.mp h
      exact .inr ⟨_, hstep, fun _ ↦ rfl⟩
  | serverReceive io =>
      simp only [Net.step] at h
      split at h
      · cases h
      · obtain ⟨_, hstep, rfl⟩ := Option.map_eq_some_iff.mp h
        exact .inr ⟨_, hstep, nofun⟩

theorem Net.eq_of_settle_eq_up {n t : Net} (h : t.settle = .up n) : t = n := by
  unfold Net.settle at h
  split at h
  · cases h
  · split at h
    · cases h
    · exact Config.up.inj h

theorem client_step_of_net_step {F : Bytes} {n t : Net} {e : NetEvent}
    (h : n.step F e = some t) : t.client = n.client ∨
      ∃ c, clientStep n.client c = some t.client := by
  cases e with
  | clientWriteable io =>
      obtain ⟨_, hstep, rfl⟩ := Option.map_eq_some_iff.mp h
      exact .inr ⟨_, hstep⟩
  | clientFragment k io =>
      simp only [Net.step] at h
      split at h
      · cases h
      · split at h
        · obtain ⟨_, hstep, rfl⟩ := Option.map_eq_some_iff.mp h
          exact .inr ⟨_, hstep⟩
        · cases h
  | clientReceive io =>
      simp only [Net.step] at h
      split at h
      · cases h
      · obtain ⟨_, hstep, rfl⟩ := Option.map_eq_some_iff.mp h
        exact .inr ⟨_, hstep⟩
  | serverWriteable io =>
      obtain ⟨_, _, rfl⟩ := Option.map_eq_some_iff.mp h
      exact .inl rfl
  | serverReceive io =>
      simp only [Net.step] at h
      split at h
      · cases h
      · obtain ⟨_, _, rfl⟩ := Option.map_eq_some_iff.mp h
        exact .inl rfl

/-- A run of the network without read errors drives its server through a run
of the session alone, so what holds of every such session holds here. -/
theorem server_reachable {F : Bytes} {C : Config → NetEvent → Prop}
    (hC : ∀ c e, C c e → e.NoReadError) {n : Net}
    (h : ((network F).restrict C).Reachable (.up n)) :
    ((serverSession F).restrict NoReadError).Reachable n.server := by
  have hinv : ((network F).restrict C).Invariant fun c ↦
      ∀ n, c = .up n → ((serverSession F).restrict NoReadError).Reachable n.server :=
    { init := by
        rintro _ rfl n hn
        obtain rfl := Config.up.inj hn
        exact .of_init rfl
      step := by
        rintro c e d hc ⟨hstep, hcond⟩ n rfl
        cases c with
        | down => cases hstep
        | exited => cases hstep
        | up m =>
            obtain ⟨t, ht, hsettle⟩ := Option.map_eq_some_iff.mp hstep
            obtain rfl := Net.eq_of_settle_eq_up hsettle
            rcases server_step_of_net_step ht with heq | ⟨call, hcall, hreason⟩
            · rw [heq]
              exact hc m rfl
            · refine (hc m rfl).step ⟨hcall, fun hwrite ↦ ?_⟩
              obtain rfl := hreason hwrite
              exact hC _ _ hcond }
  exact hinv.reachable h n rfl

end EsNotebook.FileTransfer
