import EsNotebook.Lib.CMemory
import EsNotebook.Lib.Ledger
import EsNotebook.Lib.Lts

/-!
# The mirror protocol

`protocol_lws_mirror.c` sends what any client sends to all clients.  A vhost
keeps the last messages in a ring, and each session has its own tail in it.
A client that fills the ring beyond its own tail is throttled; nothing holds
a client back that fills it beyond the tail of another one.
-/

namespace EsNotebook.Mirror

open CMemory

/-- The session of a connection. -/
abbrev Addr := ℕ

def maxMessageQueue : ℕ := 512

/-- `struct a_message`; the payload is a block from `malloc`. -/
structure AMessage where
  payload : Option ℕ
  len : ℕ
  deriving DecidableEq, Repr

/-- `struct per_vhost_data__lws_mirror` -/
structure PerVhostData where
  ringbuffer : ℕ → AMessage
  ringbufferHead : ℕ

/-- `struct per_session_data__lws_mirror`, and what libwebsockets knows of the
connection: whether it reads from it, whether a writeable callback is
requested and whether it is about to close it. -/
structure PerSessionData where
  ringbufferTail : ℕ
  rxFlow : Bool
  writable : Bool
  closing : Bool
  /-- the payloads of the frames sent so far -/
  sent : List Bytes
  deriving DecidableEq, Repr

/-- The blocks of `mem` are the payloads, each after `LWS_PRE` bytes. -/
structure State where
  vhd : PerVhostData
  mem : Ledger Bytes
  sessions : Addr → Option PerSessionData
  destroyed : Bool

namespace State

/-- After `LWS_CALLBACK_PROTOCOL_INIT`, which gets zeroed memory. -/
def init : State :=
  { vhd := { ringbuffer := fun _ ↦ { payload := none, len := 0 }, ringbufferHead := 0 }
    mem := Ledger.empty
    sessions := fun _ ↦ none
    destroyed := false }

variable (s : State) (a : Addr)

def setSession (pss : PerSessionData) : State :=
  { s with sessions := Function.update s.sessions a (some pss) }

/-- Something that libwebsockets does to all sessions of the protocol. -/
def mapSessions (f : PerSessionData → PerSessionData) : State :=
  { s with sessions := fun b ↦ (s.sessions b).map f }

/-- `lws_callback_on_writable_all_protocol` -/
def callbackOnWritableAll : State := s.mapSessions fun pss ↦ { pss with writable := true }

/-- `lws_rx_flow_allow_all_protocol` -/
def rxFlowAllowAll : State := s.mapSessions fun pss ↦ { pss with rxFlow := true }

/-- What `len` bytes at `payload + LWS_PRE` are; nothing for a null pointer, a
freed block or bytes beyond its end. -/
def payloadOf (m : AMessage) : Option Bytes := do
  let block ← m.payload
  if block ∈ s.mem.frees then none
  else
    let data ← s.mem.blocks[block]?
    if m.len ≤ data.length then some (data.take m.len) else none

end State

/-- `(head - tail) & (MAX_MESSAGE_QUEUE - 1)`, on 32-bit integers. -/
def behind (head tail : ℕ) : ℕ :=
  ((BitVec.ofNat 32 head - BitVec.ofNat 32 tail) &&& BitVec.ofNat 32 (maxMessageQueue - 1)).toNat

/-- The slot after the slot `i`. -/
def advance (i : ℕ) : ℕ := if i = maxMessageQueue - 1 then 0 else i + 1

/-- `LWS_CALLBACK_ESTABLISHED` -/
def established (s : State) (a : Addr) : State :=
  s.setSession a
    { ringbufferTail := s.vhd.ringbufferHead
      rxFlow := true
      writable := false
      closing := false
      sent := [] }

/-- The labels `choke` and `done` -/
def chokeOrDone (s : State) (a : Addr) (pss : PerSessionData) (choke : Bool) : State :=
  let s := if choke then s.setSession a { pss with rxFlow := false } else s
  s.callbackOnWritableAll

/-- `LWS_CALLBACK_RECEIVE` -/
def receive (s : State) (a : Addr) (data : Bytes) : Option State := do
  let pss ← s.sessions a
  let head := s.vhd.ringbufferHead
  if behind head pss.ringbufferTail = maxMessageQueue - 1 then
    some (chokeOrDone s a pss true)
  else
    let mem :=
      match (s.vhd.ringbuffer head).payload with
      | some old => s.mem.free old
      | none => s.mem
    let message : AMessage := { payload := some mem.next, len := data.length }
    let s :=
      { s with
        mem := mem.malloc data
        vhd :=
          { ringbuffer := Function.update s.vhd.ringbuffer head message
            ringbufferHead := advance head } }
    some (chokeOrDone s a pss
      (behind s.vhd.ringbufferHead pss.ringbufferTail = maxMessageQueue - 2))

/-- What `lws_write` and then `lws_send_pipe_choked` answer in one turn. -/
inductive WriteResult where
  | error
  | written (choked : Bool)
  deriving DecidableEq, Repr

/-- One turn of the loop of `LWS_CALLBACK_SERVER_WRITEABLE`, and whether there
may be another one. -/
def turn (s : State) (a : Addr) (pss : PerSessionData) (r : WriteResult) :
    Option (State × Bool) := do
  let data ← s.payloadOf (s.vhd.ringbuffer pss.ringbufferTail)
  match r with
  | .error => some (s.setSession a { pss with closing := true }, false)
  | .written choked =>
      let pss :=
        { pss with ringbufferTail := advance pss.ringbufferTail, sent := pss.sent ++ [data] }
      let s := s.setSession a pss
      let allow := behind s.vhd.ringbufferHead pss.ringbufferTail = maxMessageQueue - 15
      let s := if allow then s.rxFlowAllowAll else s
      if choked then
        let pss ← s.sessions a
        some (s.setSession a { pss with writable := true }, false)
      else some (s, true)

/-- The loop; `io` answers turn by turn. -/
def drain (a : Addr) (io : ℕ → WriteResult) : ℕ → ℕ → State → Option State
  | 0, _, _ => none
  | fuel + 1, i, s => do
      let pss ← s.sessions a
      if pss.ringbufferTail = s.vhd.ringbufferHead then some s
      else
        let (s, more) ← turn s a pss (io i)
        if more then drain a io fuel (i + 1) s else some s

/-- `LWS_CALLBACK_SERVER_WRITEABLE` -/
def serverWriteable (s : State) (a : Addr) (io : ℕ → WriteResult) : Option State := do
  let pss ← s.sessions a
  drain a io maxMessageQueue 0 (s.setSession a { pss with writable := false })

/-- The loop of `LWS_CALLBACK_PROTOCOL_DESTROY` over the first `n` slots. -/
def destroySlots : ℕ → State → State
  | 0, s => s
  | n + 1, s =>
      let s := destroySlots n s
      match (s.vhd.ringbuffer n).payload with
      | some block =>
          { s with
            mem := s.mem.free block
            vhd :=
              { s.vhd with
                ringbuffer := Function.update s.vhd.ringbuffer n
                  { s.vhd.ringbuffer n with payload := none } } }
      | none => s

/-- `LWS_CALLBACK_PROTOCOL_DESTROY` -/
def protocolDestroy (s : State) : State :=
  { destroySlots maxMessageQueue s with destroyed := true }

/-! ## The system -/

/-- What libwebsockets calls the protocol for. -/
inductive Event where
  | established (a : Addr)
  | receive (a : Addr) (data : Bytes)
  | serverWriteable (a : Addr) (io : ℕ → WriteResult)
  | closed (a : Addr)
  | protocolDestroy

/-- `callback_lws_mirror`; nothing stands for an access to memory that is not
allocated or a loop that does not end. -/
def callback (s : State) : Event → Option State
  | .established a => some (established s a)
  | .receive a data => receive s a data
  | .serverWriteable a io => serverWriteable s a io
  -- the callback does nothing; libwebsockets frees the user data
  | .closed a => some { s with sessions := Function.update s.sessions a none }
  | .protocolDestroy => some (protocolDestroy s)

/-- The connection is there and not about to be closed. -/
def State.Open (s : State) (a : Addr) : Prop :=
  ∃ pss ∈ s.sessions a, pss.closing = false

instance (s : State) (a : Addr) : Decidable (s.Open a) := by
  unfold State.Open
  infer_instance

/-- When libwebsockets calls. -/
def Enabled (s : State) : Event → Prop
  | .established a => s.destroyed = false ∧ s.sessions a = none
  | .receive a _ => s.destroyed = false ∧ s.Open a
  | .serverWriteable a _ => s.destroyed = false ∧ s.Open a
  | .closed a => s.destroyed = false ∧ (s.sessions a).isSome
  | .protocolDestroy => s.destroyed = false

instance (s : State) (e : Event) : Decidable (Enabled s e) := by
  cases e <;> unfold Enabled <;> infer_instance

def step (s : State) (e : Event) : Option State := if Enabled s e then callback s e else none

/-- The protocol with its clients, from the start of the vhost. -/
def mirrorServer : Lts State Event := Lts.ofStep .init step

/-- Nobody writes to the client 1.  The client 2 sends until it is throttled,
and a client 3 that comes then takes the last place in the queues. -/
def slowReader : List Event :=
  .established 1 :: .established 2 :: (List.replicate 510 (.receive 2 [7]) ++
    [.established 3, .receive 3 [8]])

end EsNotebook.Mirror
