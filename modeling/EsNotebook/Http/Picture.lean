import EsNotebook.Http.Uploads

/-!
# The picture

A connection gets whole responses, one after the other: what a form had, or
the picture, in pieces as it can take them.  Only the last one may be cut
short, when the connection is given up.  Meanwhile others may be sent the
picture too, each from a file of its own.
-/

namespace EsNotebook.Http

variable {cfg : Config} {s s' t : Server} {e : Event} {es : List Event} {a : Addr}
  {c c' : Connection} {fd : Fd} {lost lost' : List Fd} {content : List UInt8}
  {n m pos pos' sent : ℕ} {pieces : List (List UInt8)} {out : List Chunk} {ios : List Io}
  {label : Label} {handles handles' : Heap Fd ℕ} {req : Request} {ok : Bool}

/-! ## Responses -/

/-- What one `lws_write` sends. -/
def Piece (p : List UInt8) : Prop := p ≠ [] ∧ p.length ≤ bufferSize

inductive Response where
  | picture (pieces : List (List UInt8))
  | form (filename : List Char) (length : ℕ)

namespace Response

def chunks (content : List UInt8) : Response → List Chunk
  | .picture pieces => .headers content.length :: pieces.map .body ++ [.completed]
  | .form filename length => [.formResults filename length, .completed]

/-- The pieces of a picture are all of it. -/
def Ok (content : List UInt8) : Response → Prop
  | .picture pieces => (∀ p ∈ pieces, Piece p) ∧ pieces.flatten = content
  | .form _ _ => True

end Response

/-- Responses, all of them whole. -/
def Whole (content : List UInt8) (out : List Chunk) : Prop :=
  ∃ rs : List Response, (∀ r ∈ rs, r.Ok content) ∧ out = rs.flatMap (·.chunks content)

/-- Whole responses, and the first `n` bytes of a picture. -/
def Begun (content : List UInt8) (out : List Chunk) (n : ℕ) : Prop :=
  ∃ (before : List Chunk) (pieces : List (List UInt8)), Whole content before ∧
    (∀ p ∈ pieces, Piece p) ∧ pieces.flatten = content.take n ∧ n ≤ content.length ∧
    out = before ++ .headers content.length :: pieces.map .body

theorem whole_nil : Whole content [] := ⟨[], by simp, rfl⟩

theorem Whole.append (h : Whole content out) {r : Response} (hr : r.Ok content) :
    Whole content (out ++ r.chunks content) := by
  obtain ⟨rs, hrs, rfl⟩ := h
  refine ⟨rs ++ [r], fun r' hr' ↦ ?_, by simp⟩
  rcases List.mem_append.mp hr' with hr' | hr'
  · exact hrs r' hr'
  · obtain rfl := List.mem_singleton.mp hr'
    exact hr

theorem Whole.begin (h : Whole content out) :
    Begun content (out ++ [.headers content.length]) 0 :=
  ⟨out, [], h, by simp, rfl, Nat.zero_le _, rfl⟩

theorem Begun.le (h : Begun content out n) : n ≤ content.length := by
  obtain ⟨-, -, -, -, -, hle, -⟩ := h
  exact hle

theorem Begun.append (h : Begun content out n) (hpieces : ∀ p ∈ pieces, Piece p)
    (htake : content.take n ++ pieces.flatten = content.take m) (hm : m ≤ content.length) :
    Begun content (out ++ pieces.map .body) m := by
  obtain ⟨before, old, hbefore, hold, hflat, -, rfl⟩ := h
  refine ⟨before, old ++ pieces, hbefore, fun p hp ↦ ?_, ?_, hm, ?_⟩
  · exact (List.mem_append.mp hp).elim (hold p) (hpieces p)
  · rw [List.flatten_append, hflat, htake]
  · rw [List.map_append, List.append_assoc, List.cons_append]

theorem Begun.complete (h : Begun content out content.length) :
    Whole content (out ++ [.completed]) := by
  obtain ⟨before, pieces, hbefore, hpieces, hflat, -, rfl⟩ := h
  rw [List.take_length] at hflat
  have hwhole := hbefore.append (r := .picture pieces) ⟨hpieces, hflat⟩
  rwa [Response.chunks, ← List.append_assoc] at hwhole

/-! ## The loop -/

theorem take_append_piece (k : ℕ) :
    content.take pos ++ (content.drop pos).take k
      = content.take (pos + ((content.drop pos).take k).length) := by
  rw [List.take_add, List.length_take, ← List.take_take, List.take_length]

/-- What the loop sends comes right behind what has been sent before. -/
structure Sent (content : List UInt8) (pos : ℕ) (pieces : List (List UInt8)) (pos' : ℕ)
    (label : Label) : Prop where
  piece : ∀ p ∈ pieces, Piece p
  take : content.take pos ++ pieces.flatten = content.take (pos + pieces.flatten.length)
  le : pos + pieces.flatten.length ≤ content.length
  later : label = .later → pos' = pos + pieces.flatten.length
  penultimate : label = .penultimate → pos + pieces.flatten.length = content.length

theorem Sent.nil (hpos : pos ≤ content.length) (hlater : label = .later → pos' = pos)
    (hpenultimate : label = .penultimate → pos = content.length) :
    Sent content pos [] pos' label where
  piece := by simp
  take := by simp
  le := hpos
  later := hlater
  penultimate := hpenultimate

theorem Sent.cons {bytes : List UInt8} (hbytes : Piece bytes)
    (htake : content.take pos ++ bytes = content.take (pos + bytes.length))
    (h : Sent content (pos + bytes.length) pieces pos' label) :
    Sent content pos (bytes :: pieces) pos' label := by
  have hlen : pos + (bytes :: pieces).flatten.length
      = pos + bytes.length + pieces.flatten.length := by
    rw [List.flatten_cons, List.length_append, Nat.add_assoc]
  refine ⟨List.forall_mem_cons.mpr ⟨hbytes, h.piece⟩, ?_, hlen ▸ h.le, fun hl ↦ ?_, fun hl ↦ ?_⟩
  · rw [hlen, ← h.take, ← htake, List.flatten_cons, List.append_assoc]
  · rw [hlen, h.later hl]
  · rw [hlen, h.penultimate hl]

theorem sendLoop_spec (hpos : pos ≤ content.length)
    (h : sendLoop content sent pos ios = some (pieces, pos', label)) :
    Sent content pos pieces pos' label := by
  induction ios generalizing sent pos pieces with
  | nil => cases h
  | cons io ios ih =>
      obtain ⟨k, hk⟩ : ∃ k, k = min bufferSize (io.allowance.getD bufferSize) := ⟨_, rfl⟩
      obtain ⟨bytes, hbytes⟩ : ∃ bytes, bytes = (content.drop pos).take k := ⟨_, rfl⟩
      have hle : pos + bytes.length ≤ content.length := by
        rw [hbytes, List.length_take, List.length_drop]
        omega
      simp only [sendLoop, ← hk, ← hbytes] at h
      split at h
      · cases h
        exact .nil hpos (fun _ ↦ rfl) (by simp)
      next hallow =>
      split at h
      · cases h
        exact .nil hpos (by simp) (by simp)
      split at h
      · next hnil =>
          cases h
          refine .nil hpos (by simp) fun _ ↦ ?_
          have hallowed : 0 < io.allowance.getD bufferSize := by
            cases hio : io.allowance with
            | none => decide
            | some w => exact Nat.pos_of_ne_zero fun hw ↦ hallow (hio.trans (congrArg some hw))
          have hpos' : 0 < k := hk ▸ lt_min (by decide) hallowed
          rw [hbytes, List.take_eq_nil_iff, List.drop_eq_nil_iff] at hnil
          omega
      next hne =>
      have hpiece : Piece bytes := by
        refine ⟨hne, ?_⟩
        calc bytes.length ≤ k := hbytes ▸ List.length_take_le _ _
          _ ≤ bufferSize := hk ▸ min_le_left _ _
      have htake : content.take pos ++ bytes = content.take (pos + bytes.length) :=
        hbytes ▸ take_append_piece k
      split at h
      · cases h
        exact .nil hpos (by simp) (by simp)
      · split at h
        · obtain ⟨⟨pieces, pos₁, label₁⟩, hrest, heq⟩ := Option.map_eq_some_iff.mp h
          cases heq
          exact .cons hpiece htake (ih hle hrest)
        · cases h
          exact .cons hpiece htake (.nil hle (fun _ ↦ rfl) (by simp))

/-! ## A connection -/

/-- What a connection has been sent, and how far its file has been read. -/
structure Sends (content : List UInt8) (handles : Heap Fd ℕ) (c : Connection) : Prop where
  sending : ∀ fd, c.pss.fopFd = some fd → ∃ n, handles.get? fd = some n ∧ Begun content c.out n
  idle : c.pss.fopFd = none →
    Whole content c.out ∨ c.closing = true ∧ ∃ n, Begun content c.out n

theorem Sends.congr (h : Sends content handles c) (hout : c'.out = c.out)
    (hfd : c'.pss.fopFd = c.pss.fopFd) (hclosing : c.closing = true → c'.closing = true)
    (hhandles : ∀ fd, c.pss.fopFd = some fd → handles'.get? fd = handles.get? fd) :
    Sends content handles' c' where
  sending fd hfd' := by
    rw [hfd] at hfd'
    rw [hout, hhandles fd hfd']
    exact h.sending fd hfd'
  idle hnone := by
    rw [hfd] at hnone
    rw [hout]
    exact (h.idle hnone).imp_right (And.imp_left hclosing)

theorem Sends.whole (h : Sends content handles c) (hfd : c.pss.fopFd = none)
    (hclosing : c.closing = false) : Whole content c.out :=
  (h.idle hfd).resolve_right fun hbegun ↦ by simp [hclosing] at hbegun

theorem Sends.of_whole (hfd : c.pss.fopFd = none) (h : Whole content c.out) :
    Sends content handles c :=
  ⟨fun fd hfd' ↦ by simp [hfd] at hfd', fun _ ↦ .inl h⟩

/-- A request for the picture opens its file; others leave the connection to
libwebsockets. -/
theorem http_cases (h : http cfg c handles req fd ok = some (c', handles')) :
    (c'.out = c.out ∧ c'.pss.fopFd = c.pss.fopFd ∧ (c.closing = true → c'.closing = true) ∧
        handles' = handles) ∨
      ∃ content, cfg.leaf = some content ∧ c'.out = c.out ++ [.headers content.length] ∧
        c'.pss.fopFd = some fd ∧ handles' = handles.alloc fd 0 := by
  obtain ⟨answer, -, h⟩ := Option.bind_eq_some_iff.mp h
  cases answer with
  | sendLeaf path =>
      cases hleaf : cfg.leaf with
      | none =>
          simp only [hleaf, Option.some.injEq, Prod.mk.injEq] at h
          obtain ⟨rfl, rfl⟩ := h
          exact .inl ⟨rfl, rfl, fun _ ↦ rfl, rfl⟩
      | some content =>
          simp only [hleaf] at h
          split at h <;> cases h
          · exact .inr ⟨content, rfl, rfl, rfl, rfl⟩
          · exact .inl ⟨rfl, rfl, fun _ ↦ rfl, rfl⟩
  | refuse | unsupportedMediaType =>
      cases h
      exact .inl ⟨rfl, rfl, fun _ ↦ rfl, rfl⟩
  | _ =>
      cases h
      exact .inl ⟨rfl, rfl, id, rfl⟩

theorem httpWriteable_cases (hs : Sends (cfg.leaf.getD []) handles c)
    (h : httpWriteable cfg c handles ios = some (c', handles')) :
    (c.pss.fopFd = none ∧ c' = c ∧ handles' = handles) ∨
      ∃ fd, c.pss.fopFd = some fd ∧
        ((∃ m, c'.pss.fopFd = some fd ∧ handles' = (handles.modify fd fun _ ↦ m) ∧
            Begun (cfg.leaf.getD []) c'.out m) ∨
          c'.pss.fopFd = none ∧ handles' = handles.free fd ∧
            Sends (cfg.leaf.getD []) handles' c') := by
  cases hfd : c.pss.fopFd with
  | none =>
      simp only [httpWriteable, hfd, Option.some.injEq, Prod.mk.injEq] at h
      exact .inl ⟨rfl, h.1.symm, h.2.symm⟩
  | some fd =>
      refine .inr ⟨fd, rfl, ?_⟩
      obtain ⟨n, hn, hbegun⟩ := hs.sending fd hfd
      simp only [httpWriteable, hfd] at h
      obtain ⟨pos, hpos, h⟩ := Option.bind_eq_some_iff.mp h
      obtain rfl : n = pos := Option.some.inj (hn.symm.trans hpos)
      obtain ⟨content, hleaf, h⟩ := Option.bind_eq_some_iff.mp h
      obtain ⟨⟨pieces, pos', label⟩, hloop, h⟩ := Option.bind_eq_some_iff.mp h
      rw [hleaf, Option.getD_some] at hbegun ⊢
      have hsent := sendLoop_spec hbegun.le hloop
      have hbegun' := hbegun.append hsent.piece hsent.take hsent.le
      cases label with
      | later =>
          cases h
          exact .inl ⟨pos', hfd, rfl, hsent.later rfl ▸ hbegun'⟩
      | penultimate =>
          cases h
          refine .inr ⟨rfl, rfl, .of_whole rfl ?_⟩
          exact Begun.complete (hsent.penultimate rfl ▸ hbegun')
      | bail =>
          cases h
          refine .inr ⟨rfl, rfl, fun fd' hfd' ↦ ?_, fun _ ↦ .inr ⟨rfl, _, hbegun'⟩⟩
          cases hfd'

/-! ## The files -/

/-- The file that the connection at an address is sending. -/
def Server.sending (s : Server) (a : Addr) : Option Fd :=
  (s.connections.get? a).bind fun c ↦ c.pss.fopFd

theorem sending_of_get? (hc : s.connections.get? a = some c) : s.sending a = c.pss.fopFd := by
  simp [Server.sending, hc]

/-- The file that nobody will close after an event: of a connection that is
closed in the middle of the picture. -/
def leaves (s : Server) : Event → List Fd
  | .closed a => (s.sending a).toList
  | _ => []

/-- The files, those `lost` so far, and what the connections have been sent. -/
structure PictureOk (cfg : Config) (s : Server) (lost : List Fd) : Prop where
  custody : Custody (fun fd ↦ (s.handles.get? fd).isSome) s.sending lost
  sends : ∀ a c, s.connections.get? a = some c → Sends (cfg.leaf.getD []) s.handles c

theorem PictureOk.at (h : PictureOk cfg s lost)
    (hother : ∀ b, b ≠ a → s'.connections.get? b = s.connections.get? b)
    (hcustody : Custody (fun fd ↦ (s'.handles.get? fd).isSome)
      (Function.update s.sending a (s'.sending a)) lost')
    (hhandles : ∀ fd, s.sending a ≠ some fd → (s.handles.get? fd).isSome →
      s'.handles.get? fd = s.handles.get? fd)
    (hself : ∀ c, s'.connections.get? a = some c → Sends (cfg.leaf.getD []) s'.handles c) :
    PictureOk cfg s' lost' := by
  refine ⟨hcustody.congr (fun _ ↦ Iff.rfl) fun b ↦ ?_, fun b c hc ↦ ?_⟩
  · by_cases hb : b = a
    · rw [hb, Function.update_self]
    · rw [Function.update_of_ne hb, Server.sending, hother b hb, Server.sending]
  · by_cases hb : b = a
    · subst hb
      exact hself c hc
    · rw [hother b hb] at hc
      refine (h.sends b c hc).congr rfl rfl id fun fd hfd ↦ ?_
      have hheld : s.sending b = some fd := (sending_of_get? hc).trans hfd
      exact hhandles fd (fun ha ↦ hb (h.custody.inj b a fd hheld ha))
        (h.custody.isOpen_of_held hheld)

/-- An event that leaves the files alone. -/
theorem PictureOk.quiet (h : PictureOk cfg s lost) (hc : s.connections.get? a = some c)
    (hother : ∀ b, b ≠ a → s'.connections.get? b = s.connections.get? b)
    (hc' : s'.connections.get? a = some c') (hhandles : s'.handles = s.handles)
    (hfd : c'.pss.fopFd = c.pss.fopFd) (hsends : Sends (cfg.leaf.getD []) s.handles c') :
    PictureOk cfg s' lost := by
  have hsame : Function.update s.sending a (s'.sending a) = s.sending := by
    rw [sending_of_get? hc', hfd, ← sending_of_get? hc, Function.update_eq_self]
  refine h.at hother ?_ (fun _ _ _ ↦ by rw [hhandles]) fun d hd ↦ ?_
  · rw [hsame, hhandles]
    exact h.custody
  · obtain rfl : c' = d := Option.some.inj (hc'.symm.trans hd)
    rw [hhandles]
    exact hsends

/-- An event that does nothing about the picture. -/
theorem PictureOk.unrelated (h : PictureOk cfg s lost) (hc : s.connections.get? a = some c)
    (hother : ∀ b, b ≠ a → s'.connections.get? b = s.connections.get? b)
    (hc' : s'.connections.get? a = some c') (hhandles : s'.handles = s.handles)
    (hout : c'.out = c.out) (hfd : c'.pss.fopFd = c.pss.fopFd)
    (hclosing : c.closing = true → c'.closing = true) : PictureOk cfg s' lost :=
  h.quiet hc hother hc' hhandles hfd ((h.sends a c hc).congr hout hfd hclosing fun _ _ ↦ rfl)

theorem PictureOk.keep (h : PictureOk cfg s lost) : PictureOk cfg s (lost ++ []) := by
  rwa [List.append_nil]

theorem PictureOk.http (h : PictureOk cfg s lost) (hc : s.connections.get? a = some c)
    (hidle : c.closing = false ∧ c.pss.fopFd = none) (hfresh : s.handles.get? fd = none)
    (hhttp : http cfg c s.handles req fd ok = some (c', handles')) :
    PictureOk cfg { s.modify a (fun _ ↦ c') with handles := handles' } lost := by
  have hc' : (s.modify a fun _ ↦ c').connections.get? a = some c' := get?_modify_self hc
  rcases http_cases hhttp with ⟨hout, hfd, hclosing, rfl⟩ | ⟨content, hleaf, hout, hfd, rfl⟩
  · exact h.unrelated hc (fun _ hb ↦ get?_modify_of_ne hb) hc' rfl hout hfd hclosing
  have hnone : s.sending a = none := (sending_of_get? hc).trans hidle.2
  have hsending : Server.sending { s.modify a (fun _ ↦ c') with handles := s.handles.alloc fd 0 } a
      = some fd := (sending_of_get? hc').trans hfd
  refine h.at (fun _ hb ↦ get?_modify_of_ne hb) ?_ (fun g _ hg ↦ ?_) fun d hd ↦ ?_
  · rw [hsending]
    refine h.custody.acquire hnone (by simp [hfresh]) fun g ↦ ?_
    by_cases hg : g = fd
    · simp [hg, Heap.get?_alloc_self]
    · simp [hg, Heap.get?_alloc_of_ne hg]
  · refine Heap.get?_alloc_of_ne fun heq ↦ ?_
    rw [heq, hfresh] at hg
    cases hg
  · obtain rfl : c' = d := Option.some.inj (hc'.symm.trans hd)
    have hbegin := ((h.sends a c hc).whole hidle.2 hidle.1).begin
    rw [hleaf, Option.getD_some] at hbegin ⊢
    refine ⟨fun g hg ↦ ?_, fun hno ↦ by simp [hfd] at hno⟩
    obtain rfl : fd = g := Option.some.inj (hfd.symm.trans hg)
    exact ⟨0, Heap.get?_alloc_self, hout ▸ hbegin⟩

theorem PictureOk.httpWriteable (h : PictureOk cfg s lost) (hc : s.connections.get? a = some c)
    (hwrite : httpWriteable cfg c s.handles ios = some (c', handles')) :
    PictureOk cfg { s.modify a (fun _ ↦ c') with handles := handles' } lost := by
  have hc' : (s.modify a fun _ ↦ c').connections.get? a = some c' := get?_modify_self hc
  have hother : ∀ b, b ≠ a →
      (s.modify a fun _ ↦ c').connections.get? b = s.connections.get? b :=
    fun _ hb ↦ get?_modify_of_ne hb
  rcases httpWriteable_cases (h.sends a c hc) hwrite with
    ⟨-, rfl, rfl⟩ | ⟨fd, hfd, ⟨m, hfd', rfl, hbegun⟩ | ⟨hfd', rfl, hsends⟩⟩
  · exact h.unrelated hc hother hc' rfl rfl rfl id
  · have hheld : s.sending a = some fd := (sending_of_get? hc).trans hfd
    refine h.at hother ?_ (fun g hg _ ↦ ?_) fun d hd ↦ ?_
    · have hsame : Function.update s.sending a (some fd) = s.sending := by
        rw [← hheld, Function.update_eq_self]
      change Custody _ (Function.update s.sending a ((s.modify a fun _ ↦ c').sending a)) lost
      rw [sending_of_get? hc', hfd', hsame]
      exact h.custody.congr (fun g ↦ by rw [Heap.isSome_get?_modify]) fun _ ↦ rfl
    · exact Heap.get?_modify_of_ne fun heq ↦ hg (heq ▸ hheld)
    · obtain rfl : c' = d := Option.some.inj (hc'.symm.trans hd)
      refine ⟨fun g hg ↦ ?_, fun hno ↦ by simp [hfd'] at hno⟩
      obtain rfl : fd = g := Option.some.inj (hfd'.symm.trans hg)
      obtain ⟨o, ho⟩ := Option.isSome_iff_exists.mp (h.custody.isOpen_of_held hheld)
      exact ⟨m, Heap.get?_modify_of_get? ho, hbegun⟩
  · have hheld : s.sending a = some fd := (sending_of_get? hc).trans hfd
    refine h.at hother ?_ (fun g hg _ ↦ ?_) fun d hd ↦ ?_
    · change Custody _ (Function.update s.sending a ((s.modify a fun _ ↦ c').sending a)) lost
      rw [sending_of_get? hc', hfd']
      refine h.custody.release hheld fun g ↦ ?_
      by_cases hg : g = fd
      · simp [hg, Heap.get?_free_self]
      · simp [hg, Heap.get?_free_of_ne hg]
    · exact Heap.get?_free_of_ne fun heq ↦ hg (heq ▸ hheld)
    · obtain rfl : c' = d := Option.some.inj (hc'.symm.trans hd)
      exact hsends

theorem fileUploadCb_fopFd (pss : PerSessionDataHttp) (file : PostFile) (call : UploadCall) :
    (fileUploadCb pss file call).1.fopFd = pss.fopFd := by
  cases call with
  | opened filename fd => rfl
  | content buf wrote =>
      obtain ⟨pss', file', hreceive, rfl, -⟩ := receiveContent_spec pss file buf wrote
      simp only [fileUploadCb, hreceive]
  | finalContent buf wrote =>
      obtain ⟨pss', file', hreceive, rfl, -⟩ := receiveContent_spec pss file buf wrote
      simp only [fileUploadCb, hreceive]
      split <;> rfl

theorem PictureOk.step (h : PictureOk cfg s lost) (hstep : step cfg s e = some s') :
    PictureOk cfg s' (lost ++ leaves s e) := by
  obtain ⟨henabled, hcall⟩ := step_eq_some_iff.mp hstep
  cases e with
  | accepted a =>
      cases hcall
      have hself : (s.connections.alloc a .fresh).get? a = some .fresh := Heap.get?_alloc_self
      have hsame : Function.update s.sending a none = s.sending := by
        have hnone : s.sending a = none := by
          rw [Server.sending, henabled]
          rfl
        rw [← hnone, Function.update_eq_self]
      refine .keep (h.at (fun b hb ↦ Heap.get?_alloc_of_ne hb) ?_ (fun _ _ _ ↦ rfl) fun c hc ↦ ?_)
      · have hfresh : Server.sending { s with connections := s.connections.alloc a .fresh } a
            = none := (sending_of_get? hself).trans rfl
        rw [hfresh, hsame]
        exact h.custody
      · obtain rfl : Connection.fresh = c := Option.some.inj (hself.symm.trans hc)
        exact .of_whole rfl whole_nil
  | http a req fd ok =>
      obtain ⟨hfresh, hany⟩ := henabled
      obtain ⟨c, hc, hidle⟩ := exists_of_any hany
      obtain ⟨c₁, hc₁, hcall⟩ := Option.bind_eq_some_iff.mp hcall
      obtain rfl : c = c₁ := Option.some.inj (hc.symm.trans hc₁)
      obtain ⟨⟨c', handles'⟩, hhttp, hcall⟩ := Option.bind_eq_some_iff.mp hcall
      cases hcall
      exact (h.http hc hidle hfresh hhttp).keep
  | httpBody a created =>
      obtain ⟨c, hc, -⟩ := exists_of_any henabled
      cases hcall
      refine .keep (h.unrelated hc (fun _ hb ↦ get?_modify_of_ne hb) (get?_modify_self hc) rfl
        ?_ ?_ fun hclosing ↦ ?_)
      · unfold Http.httpBody
        split_ifs <;> rfl
      · unfold Http.httpBody
        split_ifs <;> rfl
      · unfold Http.httpBody
        split_ifs
        · exact hclosing
        · exact hclosing
        · rfl
  | fileUpload a call =>
      obtain ⟨c, hc, hcall⟩ := Option.bind_eq_some_iff.mp hcall
      cases hcall
      exact .keep (h.unrelated hc (fun _ hb ↦ get?_modify_of_ne hb) (get?_modify_self hc) rfl rfl
        (fileUploadCb_fopFd _ _ _) id)
  | httpBodyCompletion a =>
      obtain ⟨c, hc, hclosing, -, hfd⟩ := exists_of_any henabled
      cases hcall
      refine .keep (h.quiet hc (fun _ hb ↦ get?_modify_of_ne hb) (get?_modify_self hc) rfl rfl
        (.of_whole hfd ?_))
      exact ((h.sends a c hc).whole hfd hclosing).append
        (r := .form c.pss.filename c.pss.fileLength) trivial
  | httpWriteable a ios =>
      obtain ⟨c, hc, hcall⟩ := Option.bind_eq_some_iff.mp hcall
      obtain ⟨⟨c', handles'⟩, hwrite, hcall⟩ := Option.bind_eq_some_iff.mp hcall
      cases hcall
      exact (h.httpWriteable hc hwrite).keep
  | httpDropProtocol a =>
      obtain ⟨c, hc⟩ := Option.isSome_iff_exists.mp henabled
      cases hcall
      exact .keep (h.unrelated hc (fun _ hb ↦ get?_modify_of_ne hb) (get?_modify_self hc) rfl rfl
        rfl id)
  | closed a =>
      cases hcall
      have hnone : (s.connections.free a).get? a = none := Heap.get?_free_self
      have hsending : Server.sending { s with connections := s.connections.free a } a = none := by
        rw [Server.sending, hnone]
        rfl
      refine h.at (fun b hb ↦ Heap.get?_free_of_ne hb) ?_ (fun _ _ _ ↦ rfl) fun c hc ↦ ?_
      · rw [hsending]
        exact h.custody.abandon a
      · rw [hnone] at hc
        cases hc

/-! ## Runs -/

theorem pictureOk_init : PictureOk cfg .init [] where
  custody := .empty (fun fd ↦ by simp [Server.init, Heap.get?]) fun _ ↦ rfl
  sends a c hc := by simp [Server.init, Heap.get?] at hc

theorem pictureOk_of_run (hrun : (httpServer cfg).Run .init es t) :
    PictureOk cfg t (Lts.outputs (step cfg) leaves .init es) := by
  induction hrun with
  | nil => exact pictureOk_init
  | @snoc es t u e hrun hstep ih =>
      rw [Lts.outputs_snoc hrun]
      exact ih.step hstep

/-- Exactly two kinds of picture files are open: those of the connections that
are in the middle of it, one for each, and those of connections that were
closed there. -/
theorem handles_of_run (hrun : (httpServer cfg).Run .init es t) :
    (∀ fd, (t.handles.get? fd).isSome ↔
      (∃ a, t.sending a = some fd) ∨ fd ∈ Lts.outputs (step cfg) leaves .init es) ∧
      (∀ a b fd, t.sending a = some fd → t.sending b = some fd → a = b) ∧
      (∀ a fd, t.sending a = some fd → fd ∉ Lts.outputs (step cfg) leaves .init es) ∧
      (Lts.outputs (step cfg) leaves .init es).Nodup := by
  have h := (pictureOk_of_run hrun).custody
  exact ⟨h.open_iff, h.inj, h.apart, h.nodup⟩

/-- A client that leaves in the middle of the picture. -/
theorem handles_of_lost_client :
    ∃ t, (httpServer ⟨['r'], some [1, 2, 3], false⟩).Run .init
      [.accepted 1, .http 1 ⟨"/leaf.jpg".toList, false, false, false, false⟩ 7 true,
        .httpDropProtocol 1, .closed 1] t ∧
      (t.handles.get? 7).isSome ∧ ∀ a, t.sending a ≠ some 7 := by
  obtain ⟨t, hrun, -⟩ : ∃ t, (httpServer ⟨['r'], some [1, 2, 3], false⟩).Run .init
      [.accepted 1, .http 1 ⟨"/leaf.jpg".toList, false, false, false, false⟩ 7 true,
        .httpDropProtocol 1, .closed 1] t ∧ t.connections.get? 1 = none :=
    Lts.exists_run_of_replay (by decide +kernel)
  have hlost : 7 ∈ Lts.outputs (step ⟨['r'], some [1, 2, 3], false⟩) leaves .init
      [.accepted 1, .http 1 ⟨"/leaf.jpg".toList, false, false, false, false⟩ 7 true,
        .httpDropProtocol 1, .closed 1] := by decide +kernel
  obtain ⟨hopen, -, happart, -⟩ := handles_of_run hrun
  exact ⟨t, hrun, (hopen 7).mpr (.inr hlost), fun a ha ↦ happart a 7 ha hlost⟩

end EsNotebook.Http
