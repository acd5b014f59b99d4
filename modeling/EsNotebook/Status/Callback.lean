import EsNotebook.Lib.Chain
import EsNotebook.Lib.Lts
import Mathlib.Tactic.Ring

/-!
# The status protocol

`protocol_lws_status.c` tells every connected client who is connected.  The
sessions of a vhost form a linked list through their user data.  Whenever a
session comes or goes, each client is sent one message that lists them all,
in fragments: a header, one fragment for each session, an end.  Between two
fragments of one client anything may happen to the list.
-/

namespace EsNotebook.Status

/-- The address of a session's user data, which libwebsockets allocates. -/
abbrev Addr := ℕ

/-- `e_walk` -/
inductive EWalk where
  | none
  | initial
  | list
  | final
  deriving DecidableEq, Repr

/-- `struct per_session_data__lws_status`; `wsi` names the connection. -/
structure PerSessionData where
  next : Option Addr
  wsi : ℕ
  timeEst : ℕ
  userAgent : List Char
  walk : EWalk
  walkNext : Option Addr
  subsequent : Bool
  changedPartway : Bool
  deriving DecidableEq, Repr

/-- `struct per_vhost_data__lws_status`, its lists and counters. -/
structure PerVhostData where
  livePssList : Option Addr
  countLivePss : ℕ
  deriving DecidableEq, Repr

/-- The first fragment of a message is sent as `LWS_WRITE_TEXT`, the others as
`LWS_WRITE_CONTINUATION`; `fin` is off with `LWS_WRITE_NO_FIN`. -/
structure WsFrame where
  text : Bool
  fin : Bool
  payload : List Char
  deriving DecidableEq, Repr

/-- What libwebsockets is asked for: its version, the host's name, the name of
a peer, and the text that `lws_snprintf` leaves in a buffer with that room. -/
structure Lws where
  libraryVersion : List Char
  canonicalHostname : List Char
  getPeerSimple : ℕ → List Char
  snprintf : ℕ → List Char → List Char

/-- A host on which nothing has to be cut off. -/
def Lws.sample : Lws :=
  { libraryVersion := ['2']
    canonicalHostname := ['h']
    getPeerSimple := fun _ ↦ ['p']
    snprintf := fun n text ↦ text.take (n - 1) }

/-- The state of the protocol and of its connections. -/
structure State where
  vhd : PerVhostData
  sessions : Heap Addr PerSessionData
  /-- sessions with a request for a writeable callback -/
  writable : List Addr
  /-- sessions that libwebsockets is about to close after an error -/
  closing : List Addr
  /-- the frames sent so far on the connection at an address -/
  sent : Addr → List WsFrame

namespace State

/-- After `LWS_CALLBACK_PROTOCOL_INIT`. -/
def init : State :=
  { vhd := { livePssList := none, countLivePss := 0 }
    sessions := ⟨[]⟩
    writable := []
    closing := []
    sent := fun _ ↦ [] }

variable (s : State) (a : Addr)

/-- `pss->next` of the session at an address. -/
def nx : Addr → Option (Option Addr) := s.sessions.next PerSessionData.next

/-- No chain of sessions is longer. -/
def fuel : ℕ := s.sessions.size + 1

/-- `lws_callback_on_writable_all_protocol` -/
def callbackOnWritableAll : State :=
  { s with writable := s.sessions.cells.map Prod.fst }

end State

/-- What `trigger_resend` does to one session. -/
def PerSessionData.triggerResend (vhd : PerVhostData) (pss : PerSessionData) : PerSessionData :=
  if pss.walk = .none then
    { pss with subsequent := false, walkNext := vhd.livePssList, walk := .initial }
  else { pss with changedPartway := true }

/-- `trigger_resend` -/
def triggerResend (s : State) : Option State := do
  let sessions ← sweep PerSessionData.next (PerSessionData.triggerResend s.vhd) s.fuel
    s.vhd.livePssList s.sessions
  some { s with sessions := sessions }.callbackOnWritableAll

/-- The user agent after `strcpy(.., "unknown")` and `lws_hdr_copy`, which
fails when the header does not fit in 128 bytes with its end. -/
def copyUserAgent : Option (List Char) → List Char
  | some ua => if ua.length < 128 then ua else "unknown".toList
  | none => "unknown".toList

/-- `LWS_CALLBACK_ESTABLISHED`, on fresh user data that is all zero. -/
def established (s : State) (a : Addr) (wsi now : ℕ) (ua : Option (List Char)) : Option State :=
  let pss : PerSessionData :=
    { next := s.vhd.livePssList
      wsi := wsi
      timeEst := now
      userAgent := copyUserAgent ua
      walk := .none
      walkNext := none
      subsequent := false
      changedPartway := false }
  triggerResend
    { s with
      vhd := { livePssList := some a, countLivePss := s.vhd.countLivePss + 1 }
      sessions := s.sessions.alloc a pss
      sent := Function.update s.sent a [] }

/-- `LWS_CALLBACK_CLOSED`; afterwards libwebsockets frees the user data. -/
def closed (s : State) (a : Addr) : Option State := do
  let (head, sessions) ← unlink PerSessionData.next (fun n pss ↦ { pss with next := n }) a
    s.vhd.livePssList s.sessions s.fuel s.vhd.livePssList none
  let s ← triggerResend
    { s with vhd := { s.vhd with livePssList := head }, sessions := sessions }
  some
    { s with
      sessions := s.sessions.free a
      writable := s.writable.filter (· ≠ a)
      closing := s.closing.filter (· ≠ a) }

/-! ## The walk along the list -/

/-- The room that is left after `p - start` bytes: `end - p`. -/
def room (used : ℕ) : ℕ := 384 - used

def headerText (lws : Lws) (vhd : PerVhostData) : List Char :=
  "\x7b \"version\":\"".toList ++ lws.libraryVersion ++ "\", \"hostname\":\"".toList
    ++ lws.canonicalHostname ++ "\", \"wsi\":\"".toList ++ (toString vhd.countLivePss).toList
    ++ "\", \"conns\":[".toList

/-- One entry, for the peer's address, the time and the user agent. -/
def formatEntry (ip : List Char) (time : ℕ) (ua : List Char) : List Char :=
  "\x7b\"peer\":\"".toList ++ ip ++ "\",\"time\":\"".toList ++ (toString time).toList
    ++ "\",\"ua\":\"".toList ++ ua ++ "\"\x7d".toList

def entryText (lws : Lws) (pss : PerSessionData) : List Char :=
  formatEntry (lws.getPeerSimple pss.wsi) pss.timeEst pss.userAgent

def finalText : List Char := "]\x7d".toList

/-- The label `walk_final` -/
def walkFinal (vhd : PerVhostData) (pss : PerSessionData) : WsFrame × PerSessionData :=
  ( { text := false, fin := true, payload := finalText },
    if pss.changedPartway then
      { pss with subsequent := false, walkNext := vhd.livePssList, walk := .initial }
    else { pss with walk := .none } )

/-- The `switch` on `pss->walk`: the frame to write and the session data after
it, or nothing to write. -/
def walkStep (lws : Lws) (s : State) (pss : PerSessionData) :
    Option (Option (WsFrame × PerSessionData)) :=
  match pss.walk with
  | .none => some none
  | .initial =>
      some <| some
        ( { text := true, fin := false, payload := lws.snprintf (room 0) (headerText lws s.vhd) },
          { pss with walk := .list, walkNext := s.vhd.livePssList } )
  | .list =>
      match pss.walkNext with
      | none => some (some (walkFinal s.vhd pss))
      | some w => do
          let comma := if pss.subsequent then [','] else []
          match ← seek s.nx (· = w) s.fuel s.vhd.livePssList with
          | none =>
              -- our next guy went away
              some <| some
                ( { text := false, fin := false, payload := comma },
                  { pss with subsequent := true, walk := .final, changedPartway := true } )
          | some _ =>
              let pss' ← s.sessions.get? w
              some <| some
                ( { text := false
                    fin := false
                    payload := comma ++ lws.snprintf (room comma.length) (entryText lws pss') },
                  { pss with
                    subsequent := true
                    walkNext := pss'.next
                    walk := if pss'.next = none then .final else .list } )
  | .final => some (some (walkFinal s.vhd pss))

/-- `LWS_CALLBACK_SERVER_WRITEABLE`; `ok` says whether `lws_write` succeeds.
After an error libwebsockets closes the connection. -/
def serverWriteable (lws : Lws) (s : State) (a : Addr) (ok : Bool) : Option State := do
  let pss ← s.sessions.get? a
  let s := { s with writable := s.writable.filter (· ≠ a) }
  match ← walkStep lws s pss with
  | none => some s
  | some (frame, pss') =>
      let s := { s with sessions := s.sessions.modify a fun _ ↦ pss' }
      if ok then
        some
          { s with
            sent := Function.update s.sent a (s.sent a ++ [frame])
            writable := if pss'.walk ≠ .none then a :: s.writable else s.writable }
      else some { s with closing := a :: s.closing }

/-! ## The system -/

/-- What libwebsockets calls the protocol for. -/
inductive Event where
  | established (a : Addr) (wsi now : ℕ) (ua : Option (List Char))
  | serverWriteable (a : Addr) (ok : Bool)
  | receive (a : Addr)
  | closed (a : Addr)
  deriving DecidableEq, Repr

/-- `callback_lws_status`; nothing stands for an access to memory that is not
allocated or a loop that does not end. -/
def callback (lws : Lws) (s : State) : Event → Option State
  | .established a wsi now ua => established s a wsi now ua
  | .serverWriteable a ok => serverWriteable lws s a ok
  | .receive _ => some s
  | .closed a => closed s a

/-- When libwebsockets calls: user data is allocated for each connection and
freed after it is closed, and the address may then be used again.  The time
is a `time_t`. -/
def Enabled (s : State) : Event → Prop
  | .established a _ now _ => s.sessions.get? a = none ∧ now < 2 ^ 63
  | .serverWriteable a _ => (s.sessions.get? a).isSome ∧ a ∉ s.closing
  | .receive a => (s.sessions.get? a).isSome ∧ a ∉ s.closing
  | .closed a => (s.sessions.get? a).isSome

instance (s : State) (e : Event) : Decidable (Enabled s e) := by
  cases e <;> unfold Enabled <;> infer_instance

def step (lws : Lws) (s : State) (e : Event) : Option State :=
  if Enabled s e then callback lws s e else none

/-- The protocol with its clients, from the start of the vhost. -/
def statusServer (lws : Lws) : Lts State Event := Lts.ofStep .init (step lws)

end EsNotebook.Status
