import EsNotebook.Lib.Ledger
import EsNotebook.Lib.Lts
import EsNotebook.Echo.EchoServer

/-!
# Who frees what in the echo server

Every read of `sample_echo_server.c` comes with a fresh buffer, and a buffer
that is written back belongs to its write request until `after_write`.  The
model runs the callbacks of any number of connections in any order and keeps
the books of the blocks they allocate.  Nothing is freed twice in any run; what
is never freed is the buffer of a read that quits, the buffer and the request
of a refused `uv_write` and the handle of a refused `uv_accept`.
-/

namespace EsNotebook.Echo

open Ledger

inductive BlockKind where
  | client | buffer | writeReq | shutdownReq
  deriving DecidableEq, Repr

/-- What the ledger says of a block: its kind and its connection. -/
structure Block where
  kind : BlockKind
  conn : ℕ
  deriving DecidableEq, Repr

/-- A `write_req_t` that libuv has accepted. -/
structure WriteReq where
  /-- `wr->buf.base` -/
  base : ℕ
  wr : ℕ
  deriving DecidableEq, Repr

/-- How far a connection has got. -/
inductive Phase where
  | reading
  /-- `uv_shutdown` has accepted the request `sreq` -/
  | shutting (sreq : ℕ)
  /-- `uv_shutdown` has refused the request -/
  | refused
  /-- `uv_close` was called with `on_close`, or with `NULL` -/
  | closing (onClose : Bool)
  | closed
  deriving DecidableEq, Repr

structure Client where
  handle : ℕ
  phase : Phase
  /-- the writes whose callback has not come yet -/
  writes : List WriteReq
  deriving DecidableEq, Repr

/-- The size libuv suggests to `alloc_buffer`. -/
def suggestedSize : ℕ := 65536

/-- What libuv reports to `echo_read`, with the old contents of the buffer. -/
inductive ReadEvent where
  | error (code : ℤ) (code_neg : code < 0) (old : Bytes)
  | empty (old : Bytes)
  | data (ch : ReadChunk suggestedSize)

namespace ReadEvent

def nread : ReadEvent → ℤ
  | error code _ _ => code
  | empty _ => 0
  | data ch => ch.data.length

def base : ReadEvent → Bytes
  | error _ _ old | empty old => old
  | data ch => ch.base

end ReadEvent

/-- The state of the server: its memory and its connections, each named by its
position. -/
structure ServerState where
  ledger : Ledger Block
  clients : List Client

namespace ServerState

def start : ServerState := { ledger := .empty, clients := [] }

/-- `malloc` on behalf of the connection `c` -/
def malloc (s : ServerState) (kind : BlockKind) (c : ℕ) : ServerState :=
  { s with ledger := s.ledger.malloc ⟨kind, c⟩ }

def free (s : ServerState) (b : ℕ) : ServerState := { s with ledger := s.ledger.free b }

def setClient (s : ServerState) (c : ℕ) (k : Client) : ServerState :=
  { s with clients := s.clients.set c k }

end ServerState

/-- `alloc_buffer`; the buffer is the next block. -/
def allocBuffer (s : ServerState) (c : ℕ) : ServerState := s.malloc .buffer c

/-- `uv_close(handle, close_cb)`; `on_close` comes later. -/
def uvClose (s : ServerState) (c : ℕ) (k : Client) (onClose : Bool) : ServerState :=
  s.setClient c { k with phase := .closing onClose }

/-- `on_close` -/
def onClose (s : ServerState) (k : Client) : ServerState := s.free k.handle

/-- `after_shutdown` -/
def afterShutdown (s : ServerState) (c : ℕ) (k : Client) (sreq : ℕ) : ServerState :=
  (uvClose s c k true).free sreq

/-- `after_write`; the status only matters for what is printed. -/
def afterWrite (s : ServerState) (req : WriteReq) : ServerState :=
  (s.free req.base).free req.wr

/-- What `echo_read` does for the client `k` of connection `c`; `ret` is what
libuv returns for the request. -/
def perform (c : ℕ) (k : Client) (buf : ℕ) (ret : ℤ) (s : ServerState) : EchoAction → ServerState
  | .freeBuffer => s.free buf
  | .uvShutdown =>
      -- sreq is leaked when libuv refuses it: `after_shutdown` will not come
      (s.malloc .shutdownReq c).setClient c
        { k with phase := if ret = 0 then .shutting s.ledger.next else .refused }
  | .uvClose => uvClose s c k true
  | .uvWrite _ =>
      (s.malloc .writeReq c).setClient c
        { k with writes := if ret = 0 then k.writes ++ [⟨buf, s.ledger.next⟩] else k.writes }

/-- `on_new_connection`; `accept` is what `uv_accept` returns. -/
def onNewConnection (s : ServerState) (status accept : ℤ) : ServerState :=
  if status < 0 then s
  else
    let c := s.clients.length
    let client : Client := { handle := s.ledger.next, phase := .reading, writes := [] }
    let s := { s.malloc .client c with clients := s.clients ++ [client] }
    if accept = 0 then s else uvClose s c client false

inductive ServerEvent where
  | connection (status accept : ℤ)
  | read (c : ℕ) (r : ReadEvent) (ret : ℤ)
  /-- the callback of the `i`th pending write -/
  | written (c i : ℕ)
  | shutdown (c : ℕ)
  | closed (c : ℕ)

/-- One callback.  libuv stops reading after an error and when a handle is
closing, and calls back once for every request it has accepted. -/
def serverStep (s : ServerState) : ServerEvent → Option ServerState
  | .connection status accept => some (onNewConnection s status accept)
  | .read c r ret => do
      let k ← s.clients[c]?
      if k.phase = .reading then do
        let actions ← echoRead r.nread r.base
        some (actions.foldl (perform c k s.ledger.next ret) (allocBuffer s c))
      else none
  | .written c i => do
      let k ← s.clients[c]?
      let req ← k.writes[i]?
      some (afterWrite (s.setClient c { k with writes := k.writes.eraseIdx i }) req)
  | .shutdown c => do
      let k ← s.clients[c]?
      match k.phase with
      | .shutting sreq => some (afterShutdown s c k sreq)
      | _ => none
  | .closed c => do
      let k ← s.clients[c]?
      let closed := s.setClient c { k with phase := .closed }
      match k.phase with
      | .closing true => some (onClose closed k)
      | .closing false => some closed
      | _ => none

/-- The server over its callbacks. -/
def echoServer : Lts ServerState ServerEvent := .ofStep .start serverStep

/-- Every block is freed at most once, and what belongs to a connection is
freed when it is closed and has no more writes to complete. -/
structure ReleasedOnce (s : ServerState) : Prop where
  once : s.ledger.frees.Nodup
  released : ∀ (b c : ℕ) (kind : BlockKind) (k : Client),
    s.ledger.blocks[b]? = some ⟨kind, c⟩ → kind ≠ .shutdownReq → s.clients[c]? = some k →
      k.phase = .closed → k.writes = [] → b ∈ s.ledger.frees

/-- No accepted connection is refused, no read quits and no write is refused. -/
def Clean : ServerEvent → Prop
  | .connection status accept => status < 0 ∨ accept = 0
  | .read _ (.data ch) ret => ¬ch.Quits ∧ ret = 0
  | _ => True

/-! ## What the connections hold -/

def WriteReq.held (req : WriteReq) : Multiset ℕ := req.base ::ₘ {req.wr}

/-- The handle, as long as `on_close` may come, and the shutdown request. -/
def Phase.held (handle : ℕ) : Phase → Multiset ℕ
  | .reading | .refused | .closing true => {handle}
  | .shutting sreq => sreq ::ₘ {handle}
  | .closing false | .closed => 0

/-- The blocks that callbacks of the connection will free. -/
def Client.held (k : Client) : Multiset ℕ := k.phase.held k.handle + holdings WriteReq.held k.writes

/-- The books of the server. -/
structure Accounts (s : ServerState) (lost : Multiset ℕ) : Prop where
  balanced : s.ledger.Balanced (holdings Client.held s.clients) lost
  owner : ∀ (c : ℕ) (k : Client), s.clients[c]? = some k →
    ∀ b ∈ k.held, ∃ kind, s.ledger.blocks[b]? = some ⟨kind, c⟩

/-- A callback for the client `k` of `c` leaves `k'`, moves only its blocks and
new ones, and loses `gone`. -/
structure Moves (c : ℕ) (k : Client) (s : ServerState) (k' : Client) (t : ServerState)
    (gone : Multiset ℕ) : Prop where
  clients : t.clients = s.clients.set c k'
  balance : ∀ rest lost, s.ledger.Balanced (k.held + rest) lost →
    t.ledger.Balanced (k'.held + rest) (gone + lost)
  labels : ∀ (b : ℕ) (a : Block), s.ledger.blocks[b]? = some a → t.ledger.blocks[b]? = some a
  owner : ∀ b ∈ k'.held, b ∈ k.held ∨ ∃ kind, t.ledger.blocks[b]? = some ⟨kind, c⟩

theorem Moves.accounts {c : ℕ} {k k' : Client} {s t : ServerState} {gone lost : Multiset ℕ}
    (h : Moves c k s k' t gone) (hk : s.clients[c]? = some k) (ha : Accounts s lost) :
    Accounts t (gone + lost) := by
  obtain ⟨rest, hrest, hset⟩ := exists_holdings_set Client.held hk
  have hlt : c < s.clients.length := (List.getElem?_eq_some_iff.mp hk).1
  constructor
  · rw [h.clients, hset]
    apply h.balance
    rw [← hrest]
    exact ha.balanced
  · intro d kd hd b hb
    rw [h.clients] at hd
    by_cases hdc : d = c
    · subst hdc
      obtain rfl : k' = kd := by simpa [hlt] using hd
      rcases h.owner b hb with hold | hnew
      · obtain ⟨kind, hkind⟩ := ha.owner d k hk b hold
        exact ⟨kind, h.labels b _ hkind⟩
      · exact hnew
    · rw [List.getElem?_set_ne (Ne.symm hdc)] at hd
      obtain ⟨kind, hkind⟩ := ha.owner d kd hd b hb
      exact ⟨kind, h.labels b _ hkind⟩

/-! ## One callback -/

variable {s t : ServerState} {c : ℕ} {k : Client}

theorem set_self (hk : s.clients[c]? = some k) : s.clients.set c k = s.clients := by
  obtain ⟨hlt, rfl⟩ := List.getElem?_eq_some_iff.mp hk
  exact List.set_getElem_self hlt

theorem balanced_allocBuffer_malloc (c : ℕ) (kind : BlockKind) {held lost : Multiset ℕ}
    (h : s.ledger.Balanced held lost) :
    ((allocBuffer s c).malloc kind c).ledger.Balanced
      ((s.ledger.next + 1) ::ₘ s.ledger.next ::ₘ held) lost := by
  have hboth := (h.malloc (Block.mk .buffer c)).malloc (Block.mk kind c)
  rwa [next_malloc] at hboth

theorem getElem?_allocBuffer_malloc {kind : BlockKind} :
    ((allocBuffer s c).malloc kind c).ledger.blocks[s.ledger.next + 1]? = some ⟨kind, c⟩ ∧
      ((allocBuffer s c).malloc kind c).ledger.blocks[s.ledger.next]? = some ⟨.buffer, c⟩ := by
  constructor
  · have hnew := getElem?_malloc_next (L := s.ledger.malloc ⟨.buffer, c⟩) (Block.mk kind c)
    rwa [next_malloc] at hnew
  · exact getElem?_malloc (getElem?_malloc_next _)

theorem moves_empty (hk : s.clients[c]? = some k) :
    Moves c k s k ((allocBuffer s c).free s.ledger.next) 0 where
  clients := (set_self hk).symm
  balance rest lost h := by
    rw [zero_add]
    exact (h.malloc _).free
  labels b a h := getElem?_malloc h
  owner b h := .inl h

/-- A failed read frees the buffer and asks for the shutdown; a refused
request is lost. -/
theorem moves_error (ret : ℤ) (hphase : k.phase = .reading) :
    Moves c k s
      { k with phase := if ret = 0 then .shutting (s.ledger.next + 1) else .refused }
      ([EchoAction.freeBuffer, .uvShutdown].foldl (perform c k s.ledger.next ret) (allocBuffer s c))
      (if ret = 0 then 0 else {s.ledger.next + 1}) where
  clients := by
    have hnext : ((allocBuffer s c).free s.ledger.next).ledger.next = s.ledger.next + 1 :=
      next_malloc _
    simp only [List.foldl_cons, List.foldl_nil, perform, hnext]
    rfl
  balance rest lost h := by
    have hfreed := ((h.malloc (Block.mk .buffer c)).free).malloc (Block.mk .shutdownReq c)
    have hnext : ((s.ledger.malloc (Block.mk .buffer c)).free s.ledger.next).next =
        s.ledger.next + 1 := next_malloc _
    rw [hnext] at hfreed
    by_cases hret : ret = 0
    · have hheld : Client.held { k with phase := .shutting (s.ledger.next + 1) } + rest =
          (s.ledger.next + 1) ::ₘ (k.held + rest) := by
        simp [Client.held, Phase.held, hphase]
      rw [if_pos hret, if_pos hret, zero_add, hheld]
      exact hfreed
    · have hheld : Client.held { k with phase := .refused } = k.held := by
        simp [Client.held, Phase.held, hphase]
      rw [if_neg hret, if_neg hret, hheld]
      exact hfreed.lose
  labels b a h := getElem?_malloc (getElem?_malloc h)
  owner b hb := by
    by_cases hret : ret = 0
    · have hcases : b = s.ledger.next + 1 ∨ b ∈ k.held := by
        simpa [hret, Client.held, Phase.held, hphase, or_assoc] using hb
      rcases hcases with rfl | hold
      · exact .inr ⟨.shutdownReq, getElem?_allocBuffer_malloc.1⟩
      · exact .inl hold
    · left
      simpa [hret, Client.held, Phase.held, hphase] using hb

/-- A read that quits closes the connection and loses the buffer. -/
theorem moves_quit (hphase : k.phase = .reading) :
    Moves c k s { k with phase := .closing true } (uvClose (allocBuffer s c) c k true)
      {s.ledger.next} where
  clients := rfl
  balance rest lost h := by
    have hheld : Client.held { k with phase := .closing true } = k.held := by
      simp [Client.held, Phase.held, hphase]
    rw [hheld]
    exact (h.malloc _).lose
  labels b a h := getElem?_malloc h
  owner b hb := by
    left
    simpa [Client.held, Phase.held, hphase] using hb

/-- A read that is written back: the buffer and the request are held by the
pending write, or lost with a refused one. -/
theorem moves_write (ret : ℤ) (data : Bytes) :
    Moves c k s
      { k with writes := if ret = 0 then k.writes ++ [⟨s.ledger.next, s.ledger.next + 1⟩]
                else k.writes }
      (perform c k s.ledger.next ret (allocBuffer s c) (.uvWrite data))
      (if ret = 0 then 0 else {s.ledger.next + 1, s.ledger.next}) where
  clients := by
    simp [perform, allocBuffer, ServerState.malloc, ServerState.setClient]
  balance rest lost h := by
    have hboth := balanced_allocBuffer_malloc c .writeReq h
    by_cases hret : ret = 0
    · have hheld : Client.held
          { k with writes := k.writes ++ [⟨s.ledger.next, s.ledger.next + 1⟩] } =
            (s.ledger.next + 1) ::ₘ s.ledger.next ::ₘ k.held := by
        rw [Client.held, holdings_append_singleton, Client.held, WriteReq.held,
          ← Multiset.singleton_add, ← Multiset.singleton_add, ← Multiset.singleton_add]
        abel
      simp only [hret, if_true, zero_add, hheld, Multiset.cons_add]
      exact hboth
    · have hlost : ((allocBuffer s c).malloc .writeReq c).ledger.Balanced
          ({s.ledger.next + 1, s.ledger.next} + (k.held + rest)) lost := by
        rw [Multiset.insert_eq_cons, Multiset.cons_add, Multiset.singleton_add]
        exact hboth
      rw [if_neg hret, if_neg hret]
      exact hlost.lose
  labels b a h := getElem?_malloc (getElem?_malloc h)
  owner b hb := by
    by_cases hret : ret = 0
    · have hcases : b ∈ k.held ∨ b = s.ledger.next ∨ b = s.ledger.next + 1 := by
        simp only [hret, if_true, Client.held, holdings_append_singleton, WriteReq.held,
          Multiset.mem_add, Multiset.mem_cons, Multiset.mem_singleton] at hb ⊢
        tauto
      rcases hcases with hold | rfl | rfl
      · exact .inl hold
      · exact .inr ⟨.buffer, getElem?_allocBuffer_malloc.2⟩
      · exact .inr ⟨.writeReq, getElem?_allocBuffer_malloc.1⟩
    · left
      simpa [hret, Client.held] using hb

theorem moves_written {i : ℕ} {req : WriteReq} (hreq : k.writes[i]? = some req) :
    Moves c k s { k with writes := k.writes.eraseIdx i }
      (afterWrite (s.setClient c { k with writes := k.writes.eraseIdx i }) req) 0 where
  clients := rfl
  balance rest lost h := by
    have hheld : k.held + rest =
        req.base ::ₘ req.wr ::ₘ (Client.held { k with writes := k.writes.eraseIdx i } + rest) := by
      rw [Client.held, holdings_eraseIdx hreq, Client.held, WriteReq.held,
        ← Multiset.singleton_add, ← Multiset.singleton_add, ← Multiset.singleton_add]
      abel
    rw [hheld] at h
    rw [zero_add]
    exact h.free.free
  labels b a h := h
  owner b hb := by
    left
    rw [Client.held, Multiset.mem_add] at hb
    rw [Client.held, holdings_eraseIdx hreq, Multiset.mem_add, Multiset.mem_add]
    rcases hb with hb | hb
    · exact .inl hb
    · exact .inr (.inr hb)

theorem moves_shutdown {sreq : ℕ} (hphase : k.phase = .shutting sreq) :
    Moves c k s { k with phase := .closing true } (afterShutdown s c k sreq) 0 where
  clients := rfl
  balance rest lost h := by
    have hheld : k.held + rest =
        sreq ::ₘ (Client.held { k with phase := .closing true } + rest) := by
      simp [Client.held, Phase.held, hphase]
    rw [hheld] at h
    rw [zero_add]
    exact h.free
  labels b a h := h
  owner b hb := by
    left
    have hmem : b ∈ Client.held { k with phase := .closing true } := hb
    simp only [Client.held, Phase.held, hphase, Multiset.cons_add] at hmem ⊢
    exact Multiset.mem_cons_of_mem hmem

theorem moves_closed (hphase : k.phase = .closing true) :
    Moves c k s { k with phase := .closed } (onClose (s.setClient c { k with phase := .closed }) k)
      0 where
  clients := rfl
  balance rest lost h := by
    have hheld : k.held + rest = k.handle ::ₘ (Client.held { k with phase := .closed } + rest) := by
      simp [Client.held, Phase.held, hphase]
    rw [hheld] at h
    rw [zero_add]
    exact h.free
  labels b a h := h
  owner b hb := by
    left
    rw [Client.held, Multiset.mem_add] at hb ⊢
    exact .inr (by simpa [Phase.held] using hb)

/-- Without a callback the handle has been lost before. -/
theorem moves_closed_null (hphase : k.phase = .closing false) :
    Moves c k s { k with phase := .closed } (s.setClient c { k with phase := .closed }) 0 where
  clients := rfl
  balance rest lost h := by
    have hheld : Client.held { k with phase := .closed } = k.held := by
      simp [Client.held, Phase.held, hphase]
    rw [zero_add, hheld]
    exact h
  labels b a h := h
  owner b hb := by
    left
    simpa [Client.held, Phase.held, hphase] using hb

/-- An accepted connection holds its handle; a refused one has lost it. -/
theorem accounts_onNewConnection {lost : Multiset ℕ} (h : Accounts s lost) (status accept : ℤ) :
    Accounts (onNewConnection s status accept)
      ((if status < 0 ∨ accept = 0 then 0 else {s.ledger.next}) + lost) := by
  by_cases hstatus : status < 0
  · simpa [onNewConnection, hstatus] using h
  let client : Client := { handle := s.ledger.next, phase := .reading, writes := [] }
  let s' : ServerState :=
    { ledger := s.ledger.malloc ⟨.client, s.clients.length⟩, clients := s.clients ++ [client] }
  have hnew : s'.clients[s.clients.length]? = some client := by simp [s']
  have hopen : Accounts s' lost := by
    constructor
    · have hheld : holdings Client.held s'.clients =
          s.ledger.next ::ₘ holdings Client.held s.clients := by
        rw [holdings_append_singleton]
        simp [client, Client.held, Phase.held, holdings]
      rw [hheld]
      exact h.balanced.malloc _
    · intro c k hk b hb
      by_cases hc : c < s.clients.length
      · rw [List.getElem?_append_left hc] at hk
        obtain ⟨kind, hkind⟩ := h.owner c k hk b hb
        exact ⟨kind, getElem?_malloc hkind⟩
      · have hlt : c < (s.clients ++ [client]).length := (List.getElem?_eq_some_iff.mp hk).1
        obtain rfl : c = s.clients.length := by
          simp at hlt
          omega
        obtain rfl := Option.some.inj (hnew.symm.trans hk)
        obtain rfl : b = s.ledger.next := by
          simpa [client, Client.held, Phase.held, holdings] using hb
        exact ⟨.client, getElem?_malloc_next _⟩
  by_cases haccept : accept = 0
  · have hcode : onNewConnection s status accept = s' := by
      unfold onNewConnection
      rw [if_neg hstatus, if_pos haccept]
      rfl
    rw [hcode, if_pos (.inr haccept), zero_add]
    exact hopen
  · have hmoves : Moves s.clients.length client s' { client with phase := .closing false }
        (uvClose s' s.clients.length client false) {s.ledger.next} := by
      refine ⟨rfl, ?_, fun b a hb ↦ hb, ?_⟩
      · intro rest lost' hbal
        have hheld : client.held = {s.ledger.next} := by
          simp [client, Client.held, Phase.held, holdings]
        have hnone : Client.held { client with phase := .closing false } = 0 := by
          simp [client, Client.held, Phase.held, holdings]
        rw [hheld] at hbal
        rw [hnone, zero_add]
        exact hbal.lose
      · intro b hb
        simp [client, Client.held, Phase.held, holdings] at hb
    have hcode : onNewConnection s status accept =
        uvClose s' s.clients.length client false := by
      unfold onNewConnection
      rw [if_neg hstatus, if_neg haccept]
      rfl
    rw [hcode, if_neg (by tauto)]
    exact hmoves.accounts hnew hopen

/-- What `echo_read` does with the buffer of a reading connection. -/
theorem exists_moves_read {r : ReadEvent} {actions : List EchoAction} (ret : ℤ)
    (hk : s.clients[c]? = some k) (hphase : k.phase = .reading)
    (hactions : echoRead r.nread r.base = some actions) :
    ∃ k' gone,
      Moves c k s k' (actions.foldl (perform c k s.ledger.next ret) (allocBuffer s c)) gone ∧
      (Clean (.read c r ret) → ∀ b ∈ gone,
        (actions.foldl (perform c k s.ledger.next ret) (allocBuffer s c)).ledger.blocks[b]? =
          some ⟨.shutdownReq, c⟩) := by
  cases r with
  | error code code_neg old =>
      obtain rfl : [EchoAction.freeBuffer, .uvShutdown] = actions := by
        simpa [echoRead, ReadEvent.nread, code_neg] using hactions
      refine ⟨_, _, moves_error ret hphase, ?_⟩
      intro _ b hb
      by_cases hret : ret = 0
      · simp [hret] at hb
      · obtain rfl : b = s.ledger.next + 1 := by simpa [hret] using hb
        exact getElem?_allocBuffer_malloc.1
  | empty old =>
      obtain rfl : [EchoAction.freeBuffer] = actions := by
        simpa [echoRead, ReadEvent.nread] using hactions
      exact ⟨k, 0, moves_empty hk, by simp⟩
  | data ch =>
      by_cases hquit : ch.Quits
      · obtain rfl := Option.some.inj ((echoRead_of_quits hquit).symm.trans hactions)
        refine ⟨_, _, moves_quit hphase, ?_⟩
        intro hclean
        exact absurd hquit hclean.1
      · have hwrite := echoRead_of_not_quits (by decide) hquit
        obtain rfl := Option.some.inj (hwrite.symm.trans hactions)
        refine ⟨_, _, moves_write ret ch.data, ?_⟩
        intro hclean b hb
        have hret : ret = 0 := hclean.2
        simp [hret] at hb

/-- Every callback keeps the books, and labels are for life.  A clean one loses
nothing but shutdown requests. -/
theorem accounts_step {e : ServerEvent} {lost : Multiset ℕ} (hstep : serverStep s e = some t)
    (h : Accounts s lost) :
    ∃ gone, Accounts t (gone + lost) ∧
      (∀ (b : ℕ) (a : Block), s.ledger.blocks[b]? = some a → t.ledger.blocks[b]? = some a) ∧
      (Clean e → ∀ b ∈ gone, ∃ c, t.ledger.blocks[b]? = some ⟨.shutdownReq, c⟩) := by
  cases e with
  | connection status accept =>
      obtain rfl : onNewConnection s status accept = t := Option.some.inj hstep
      refine ⟨_, accounts_onNewConnection h status accept, ?_, ?_⟩
      · intro b a hb
        unfold onNewConnection
        split
        · exact hb
        · split
          · exact getElem?_malloc hb
          · exact getElem?_malloc hb
      · intro hclean b hb
        have hcond : status < 0 ∨ accept = 0 := hclean
        simp [hcond] at hb
  | read c r ret =>
      obtain ⟨k, hk, hstep⟩ := Option.bind_eq_some_iff.mp hstep
      by_cases hphase : k.phase = .reading
      · rw [if_pos hphase] at hstep
        obtain ⟨actions, hactions, hstep⟩ := Option.bind_eq_some_iff.mp hstep
        obtain rfl := Option.some.inj hstep
        obtain ⟨k', gone, hmoves, hclean⟩ := exists_moves_read ret hk hphase hactions
        refine ⟨gone, hmoves.accounts hk h, hmoves.labels, ?_⟩
        intro hcond b hb
        exact ⟨c, hclean hcond b hb⟩
      · rw [if_neg hphase] at hstep
        cases hstep
  | written c i =>
      obtain ⟨k, hk, hstep⟩ := Option.bind_eq_some_iff.mp hstep
      obtain ⟨req, hreq, hstep⟩ := Option.bind_eq_some_iff.mp hstep
      obtain rfl := Option.some.inj hstep
      have hmoves := moves_written (s := s) (c := c) hreq
      exact ⟨0, hmoves.accounts hk h, hmoves.labels, by simp⟩
  | shutdown c =>
      obtain ⟨k, hk, hstep⟩ := Option.bind_eq_some_iff.mp hstep
      cases hphase : k.phase with
      | shutting sreq =>
          rw [hphase] at hstep
          obtain rfl := Option.some.inj hstep
          have hmoves := moves_shutdown (s := s) (c := c) hphase
          exact ⟨0, hmoves.accounts hk h, hmoves.labels, by simp⟩
      | reading | refused | closing onClose | closed => simp [hphase] at hstep
  | closed c =>
      obtain ⟨k, hk, hstep⟩ := Option.bind_eq_some_iff.mp hstep
      cases hphase : k.phase with
      | closing onClose =>
          rw [hphase] at hstep
          cases onClose with
          | true =>
              obtain rfl := Option.some.inj hstep
              have hmoves := moves_closed (s := s) (c := c) hphase
              exact ⟨0, hmoves.accounts hk h, hmoves.labels, by simp⟩
          | false =>
              obtain rfl := Option.some.inj hstep
              have hmoves := moves_closed_null (s := s) (c := c) hphase
              exact ⟨0, hmoves.accounts hk h, hmoves.labels, by simp⟩
      | reading | refused | shutting sreq | closed => simp [hphase] at hstep

/-! ## Whole runs -/

theorem accounts_start : Accounts .start 0 := by
  refine ⟨Balanced.empty, ?_⟩
  intro c k hk
  simp [ServerState.start] at hk

theorem exists_accounts {s : ServerState} (hs : echoServer.Reachable s) :
    ∃ lost, Accounts s lost := by
  have hinv : echoServer.Invariant fun s ↦ ∃ lost, Accounts s lost := by
    constructor
    · rintro s rfl
      exact ⟨0, accounts_start⟩
    · rintro s e t ⟨lost, h⟩ hstep
      obtain ⟨gone, ht, -, -⟩ := accounts_step hstep h
      exact ⟨gone + lost, ht⟩
  exact hinv.reachable hs

/-- In every run nothing is freed twice. -/
theorem nodup_frees_of_reachable {s : ServerState} (hs : echoServer.Reachable s) :
    s.ledger.frees.Nodup := by
  obtain ⟨lost, h⟩ := exists_accounts hs
  exact h.balanced.nodup_frees

/-- A run of clean callbacks has lost nothing but shutdown requests. -/
theorem exists_accounts_of_clean {s : ServerState} {es : List ServerEvent}
    (hrun : echoServer.Run .start es s) (hclean : ∀ e ∈ es, Clean e) :
    ∃ lost, Accounts s lost ∧ ∀ b ∈ lost, ∃ c, s.ledger.blocks[b]? = some ⟨.shutdownReq, c⟩ := by
  have hrestrict := hrun.restrict (C := fun _ e ↦ Clean e) fun e he _ ↦ hclean e he
  apply hrestrict.preserves (I := fun s ↦ ∃ lost, Accounts s lost ∧
    ∀ b ∈ lost, ∃ c, s.ledger.blocks[b]? = some ⟨.shutdownReq, c⟩)
  · rintro s e t ⟨lost, h, hlost⟩ ⟨hstep, he⟩
    obtain ⟨gone, ht, hlabels, hgone⟩ := accounts_step hstep h
    refine ⟨gone + lost, ht, ?_⟩
    intro b hb
    rcases Multiset.mem_add.mp hb with hb | hb
    · exact hgone he b hb
    · obtain ⟨c, hc⟩ := hlost b hb
      exact ⟨c, hlabels b _ hc⟩
  · exact ⟨0, accounts_start, by simp⟩

/-- A connection that is closed and has no pending writes holds nothing, so its
blocks have been freed or lost. -/
theorem Accounts.mem_frees_or_lost {lost : Multiset ℕ} (h : Accounts s lost) {b : ℕ}
    {kind : BlockKind} (hb : s.ledger.blocks[b]? = some ⟨kind, c⟩) (hk : s.clients[c]? = some k)
    (hphase : k.phase = .closed) (hwrites : k.writes = []) : b ∈ s.ledger.frees ∨ b ∈ lost := by
  rcases h.balanced.cases hb with hfreed | hheld | hlost
  · exact .inl hfreed
  · obtain ⟨d, kd, hd, hmem⟩ := mem_holdings.mp hheld
    obtain ⟨kind', hb'⟩ := h.owner d kd hd b hmem
    obtain rfl : c = d := congrArg Block.conn (Option.some.inj (hb.symm.trans hb'))
    obtain rfl := Option.some.inj (hk.symm.trans hd)
    simp [Client.held, Phase.held, hphase, hwrites, holdings] at hmem
  · exact .inr hlost

/-- As long as no accept and no write is refused and no read quits, every block
is released exactly once. -/
theorem released_once_of_clean_run {s : ServerState} {es : List ServerEvent}
    (hrun : echoServer.Run .start es s) (hclean : ∀ e ∈ es, Clean e) : ReleasedOnce s := by
  obtain ⟨lost, h, hlost⟩ := exists_accounts_of_clean hrun hclean
  refine ⟨h.balanced.nodup_frees, ?_⟩
  intro b c kind k hb hkind hk hphase hwrites
  rcases h.mem_frees_or_lost hb hk hphase hwrites with hfreed | hmem
  · exact hfreed
  · obtain ⟨d, hd⟩ := hlost b hmem
    exact absurd (congrArg Block.kind (Option.some.inj (hb.symm.trans hd))) hkind

/-- A read of `data` into a buffer of zeros. -/
def readOf (data : Bytes) (hne : data ≠ []) (hlen : data.length ≤ suggestedSize) : ReadEvent :=
  .data
    { data := data
      rest := List.replicate (suggestedSize - data.length) 0
      data_ne_nil := hne
      length_eq := by
        rw [List.length_append, List.length_replicate]
        omega }

/-- A connection that says hello and hangs up. -/
def helloEvents : List ServerEvent :=
  [.connection 0 0, .read 0 (readOf [72, 105] (by decide) (by decide)) 0, .written 0 0,
    .read 0 (.error (-4095) (by decide) []) 0, .shutdown 0, .closed 0]

theorem released_once_of_hello :
    ∃ s, echoServer.Run .start helloEvents s ∧ ReleasedOnce s ∧
      s.clients.map Client.phase = [.closed] := by
  have hreplay : (helloEvents.foldlM serverStep .start).any
      (fun s ↦ decide (s.clients.map Client.phase = [.closed])) = true := by decide +kernel
  obtain ⟨s, hrun, hphase⟩ := Lts.exists_run_of_replay hreplay
  refine ⟨s, hrun, released_once_of_clean_run hrun ?_, hphase⟩
  simp [helloEvents, Clean, readOf, ReadChunk.Quits, ReadChunk.base, quitLiteral]

/-- A connection whose first four bytes are the keyword. -/
def quitEvents : List ServerEvent :=
  [.connection 0 0, .read 0 (readOf [113, 117, 105, 116] (by decide) (by decide)) 0, .closed 0]

/-- The buffer with the keyword is still there when the connection is closed. -/
theorem not_released_of_quit : ∃ s, echoServer.Run .start quitEvents s ∧ ¬ReleasedOnce s := by
  have hreplay : (quitEvents.foldlM serverStep .start).any
      (fun s ↦ decide (s.ledger.blocks[1]? = some ⟨.buffer, 0⟩ ∧
        s.clients[0]? = some ⟨0, .closed, []⟩ ∧ 1 ∉ s.ledger.frees)) = true := by decide +kernel
  obtain ⟨s, hrun, hblock, hclient, hfrees⟩ := Lts.exists_run_of_replay hreplay
  refine ⟨s, hrun, ?_⟩
  intro h
  exact hfrees (h.released 1 0 .buffer _ hblock (by decide) hclient rfl rfl)

end EsNotebook.Echo
