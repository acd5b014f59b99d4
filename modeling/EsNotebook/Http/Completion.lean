import EsNotebook.Http.Picture

/-!
# The end of a picture

Each callback in which the peer takes something goes on with the picture, and
nothing else that the server does meanwhile holds it up.
-/

namespace EsNotebook.Http

variable {cfg : Config} {s s' t : Server} {e : Event} {es : List Event} {a : Addr}
  {c : Connection} {fd : Fd} {lost : List Fd} {content : List UInt8} {n pos pos' sent : ℕ}
  {pieces : List (List UInt8)} {out : List Chunk} {ios : List Io} {label : Label}

/-! ## The loop -/

/-- The peer can take something, and no round of the loop fails. -/
def Smooth (ios : List Io) : Prop :=
  ios.head?.any (fun io ↦ io.allowance ≠ some 0) ∧
    ∀ io ∈ ios, io.readFails = false ∧ io.wrote.isSome

instance (ios : List Io) : Decidable (Smooth ios) := inferInstanceAs (Decidable (_ ∧ _))

/-- The connection stays, and what is sent on it gets through. -/
def Event.SmoothFor (a : Addr) : Event → Prop
  | .httpWriteable b ios => b = a → Smooth ios
  | .closed b => b ≠ a
  | _ => True

instance (a : Addr) (e : Event) : Decidable (e.SmoothFor a) :=
  match e with
  | .httpWriteable _ _ => inferInstanceAs (Decidable (_ → _))
  | .closed _ => inferInstanceAs (Decidable (_ ≠ _))
  | .accepted _ | .http _ _ _ _ | .httpBody _ _ | .fileUpload _ _ | .httpBodyCompletion _
  | .httpDropProtocol _ => inferInstanceAs (Decidable True)

def Event.isWriteable (a : Addr) : Event → Bool
  | .httpWriteable b _ => b = a
  | _ => false

theorem ne_bail (hios : ∀ io ∈ ios, io.readFails = false ∧ io.wrote.isSome)
    (h : sendLoop content sent pos ios = some (pieces, pos', label)) : label ≠ .bail := by
  induction ios generalizing sent pos pieces with
  | nil => cases h
  | cons io ios ih =>
      obtain ⟨⟨hread, hwrote⟩, hios⟩ := List.forall_mem_cons.mp hios
      obtain ⟨m, hm⟩ := Option.isSome_iff_exists.mp hwrote
      simp only [sendLoop, hread, hm, Bool.false_eq_true, if_false] at h
      split at h
      · cases h
        simp
      split at h
      · cases h
        simp
      split at h
      · obtain ⟨⟨pieces, pos₁, label₁⟩, hrest, heq⟩ := Option.map_eq_some_iff.mp h
        cases heq
        exact ih hios hrest
      · cases h
        simp

/-- Something is sent, unless there is nothing left. -/
theorem ne_nil_of_later (hios : Smooth ios)
    (h : sendLoop content sent pos ios = some (pieces, pos', .later)) : pieces ≠ [] := by
  obtain ⟨hhead, hios⟩ := hios
  cases ios with
  | nil => cases h
  | cons io ios =>
      obtain ⟨⟨hread, hwrote⟩, -⟩ := List.forall_mem_cons.mp hios
      obtain ⟨m, hm⟩ := Option.isSome_iff_exists.mp hwrote
      have hallow : io.allowance ≠ some 0 := by simpa using hhead
      simp only [sendLoop, hallow, hread, hm, Bool.false_eq_true, if_false] at h
      split at h
      · cases h
      split at h
      · obtain ⟨⟨pieces, pos₁, label₁⟩, -, heq⟩ := Option.map_eq_some_iff.mp h
        cases heq
        simp
      · cases h
        simp

/-! ## A connection -/

/-- The connection `a` is in the middle of the picture, `n` bytes of it read. -/
structure Sending (s : Server) (a : Addr) (fd : Fd) (n : ℕ) (out : List Chunk) : Prop where
  connection : ∃ c, s.connections.get? a = some c ∧ c.pss.fopFd = some fd ∧ c.closing = false ∧
    c.out = out
  offset : s.handles.get? fd = some n

theorem Sending.sending (h : Sending s a fd n out) : s.sending a = some fd := by
  obtain ⟨c, hc, hfd, -⟩ := h.connection
  exact (sending_of_get? hc).trans hfd

/-- The connection in the middle of the picture is not what an event is about. -/
theorem Sending.other (h : Sending s a fd n out)
    (hc : s'.connections.get? a = s.connections.get? a)
    (hhandles : s'.handles.get? fd = s.handles.get? fd) : Sending s' a fd n out := by
  obtain ⟨c, hget, hrest⟩ := h.connection
  exact ⟨⟨c, hc.trans hget, hrest⟩, hhandles.trans h.offset⟩

/-- An event that leaves alone what the picture is about. -/
theorem Sending.same (h : Sending s a fd n out) {f : Connection → Connection} (b : Addr)
    (hf : ∀ c, s.connections.get? b = some c → (f c).pss.fopFd = c.pss.fopFd ∧
      (f c).closing = c.closing ∧ (f c).out = c.out) (file : PostFile) :
    Sending { s.modify b f with file := file } a fd n out := by
  by_cases hb : a = b
  · subst hb
    obtain ⟨c, hc, hfd, hclosing, hout⟩ := h.connection
    obtain ⟨hfd', hclosing', hout'⟩ := hf c hc
    exact ⟨⟨f c, get?_modify_self hc, hfd'.trans hfd, hclosing'.trans hclosing, hout'.trans hout⟩,
      h.offset⟩
  · exact h.other (get?_modify_of_ne hb) rfl

/-- Nothing that needs a connection without a picture happens to this one. -/
theorem Sending.ne_of_idle (h : Sending s a fd n out) {b : Addr}
    (hc : s.connections.get? b = some c) (hidle : c.pss.fopFd = none) : a ≠ b := by
  rintro rfl
  have hsending := h.sending
  rw [sending_of_get? hc, hidle] at hsending
  cases hsending

/-- Another event: the connection and its file stay as they are. -/
theorem Sending.stays (h : Sending s a fd n out) (hok : PictureOk cfg s lost)
    (hstep : step cfg s e = some s') (hsmooth : e.SmoothFor a)
    (hwriteable : e.isWriteable a = false) : Sending s' a fd n out := by
  obtain ⟨henabled, hcall⟩ := step_eq_some_iff.mp hstep
  have hopen : (s.handles.get? fd).isSome := by rw [h.offset]; rfl
  cases e with
  | accepted b =>
      cases hcall
      have hb : a ≠ b := by
        rintro rfl
        obtain ⟨c, hc, -⟩ := h.connection
        rw [henabled] at hc
        cases hc
      exact h.other (Heap.get?_alloc_of_ne hb) rfl
  | http b req g ok =>
      obtain ⟨hfresh, hany⟩ := henabled
      obtain ⟨c, hc, -, hidle⟩ := exists_of_any hany
      obtain ⟨c₁, hc₁, hcall⟩ := Option.bind_eq_some_iff.mp hcall
      obtain ⟨⟨c', handles'⟩, hhttp, hcall⟩ := Option.bind_eq_some_iff.mp hcall
      cases hcall
      refine h.other (get?_modify_of_ne (h.ne_of_idle hc hidle)) ?_
      rcases http_cases hhttp with ⟨-, -, -, rfl⟩ | ⟨content, -, -, -, rfl⟩
      · rfl
      · refine Heap.get?_alloc_of_ne ?_
        rintro rfl
        simp [hfresh] at hopen
  | httpBody b created =>
      obtain ⟨c, hc, -, hidle⟩ := exists_of_any henabled
      cases hcall
      exact h.other (get?_modify_of_ne (h.ne_of_idle hc hidle)) rfl
  | fileUpload b call =>
      obtain ⟨c, hc, hcall⟩ := Option.bind_eq_some_iff.mp hcall
      cases hcall
      refine h.same b (fun d hd ↦ ?_) _
      obtain rfl : c = d := Option.some.inj (hc.symm.trans hd)
      exact ⟨fileUploadCb_fopFd _ _ _, rfl, rfl⟩
  | httpBodyCompletion b =>
      obtain ⟨c, hc, -, -, hidle⟩ := exists_of_any henabled
      cases hcall
      exact h.other (get?_modify_of_ne (h.ne_of_idle hc hidle)) rfl
  | httpWriteable b ios =>
      have hb : a ≠ b := fun heq ↦ absurd heq.symm (of_decide_eq_false hwriteable)
      obtain ⟨c, hc, hcall⟩ := Option.bind_eq_some_iff.mp hcall
      obtain ⟨⟨c', handles'⟩, hwrite, hcall⟩ := Option.bind_eq_some_iff.mp hcall
      cases hcall
      refine h.other (get?_modify_of_ne hb) ?_
      have hne : ∀ g, c.pss.fopFd = some g → fd ≠ g := by
        rintro g hg rfl
        exact hb (hok.custody.inj a b fd h.sending ((sending_of_get? hc).trans hg))
      rcases httpWriteable_cases (hok.sends b c hc) hwrite with
        ⟨-, -, rfl⟩ | ⟨g, hg, ⟨m, -, rfl, -⟩ | ⟨-, rfl, -⟩⟩
      · rfl
      · exact Heap.get?_modify_of_ne (hne g hg)
      · exact Heap.get?_free_of_ne (hne g hg)
  | httpDropProtocol b =>
      cases hcall
      exact h.same (f := fun c ↦ { c with pss := { c.pss with spa := false }, inFile := false }) b
        (fun _ _ ↦ ⟨rfl, rfl, rfl⟩) s.file
  | closed b =>
      cases hcall
      exact h.other (Heap.get?_free_of_ne (Ne.symm hsmooth)) rfl

/-- A callback in which the peer takes something goes on with the picture, or
ends it. -/
theorem Sending.writeable (h : Sending s a fd n out) (hok : PictureOk cfg s lost)
    (hstep : step cfg s (.httpWriteable a ios) = some s') (hios : Smooth ios) :
    ∃ pieces : List (List UInt8),
      (∃ c', s'.connections.get? a = some c' ∧ c'.out = out ++ pieces.map .body ++ [.completed] ∧
          Whole (cfg.leaf.getD []) c'.out) ∨
        ∃ m, n < m ∧ m ≤ (cfg.leaf.getD []).length ∧
          Sending s' a fd m (out ++ pieces.map .body) := by
  obtain ⟨-, hcall⟩ := step_eq_some_iff.mp hstep
  obtain ⟨c, hc, hfd, hclosing, rfl⟩ := h.connection
  obtain ⟨c₁, hc₁, hcall⟩ := Option.bind_eq_some_iff.mp hcall
  obtain rfl : c = c₁ := Option.some.inj (hc.symm.trans hc₁)
  obtain ⟨⟨c', handles'⟩, hwrite, hcall⟩ := Option.bind_eq_some_iff.mp hcall
  obtain ⟨n', hn', hbegun⟩ := (hok.sends a c hc).sending fd hfd
  obtain rfl : n = n' := Option.some.inj (h.offset.symm.trans hn')
  cases hcall
  simp only [httpWriteable, hfd] at hwrite
  obtain ⟨pos, hpos, hwrite⟩ := Option.bind_eq_some_iff.mp hwrite
  obtain rfl : n = pos := Option.some.inj (h.offset.symm.trans hpos)
  obtain ⟨content, hleaf, hwrite⟩ := Option.bind_eq_some_iff.mp hwrite
  obtain ⟨⟨pieces, pos', label⟩, hloop, hwrite⟩ := Option.bind_eq_some_iff.mp hwrite
  rw [hleaf, Option.getD_some] at hbegun ⊢
  have hsent := sendLoop_spec hbegun.le hloop
  have hbegun' := hbegun.append hsent.piece hsent.take hsent.le
  refine ⟨pieces, ?_⟩
  cases label with
  | later =>
      cases hwrite
      refine .inr ⟨pos', ?_, hsent.later rfl ▸ hsent.le,
        ⟨⟨_, get?_modify_self hc, hfd, hclosing, rfl⟩, Heap.get?_modify_of_get? h.offset⟩⟩
      obtain ⟨p, ps, rfl⟩ := List.exists_cons_of_ne_nil (ne_nil_of_later hios hloop)
      have hpos := List.length_pos_iff.mpr (hsent.piece p (List.mem_cons_self ..)).1
      rw [hsent.later rfl, List.flatten_cons, List.length_append]
      omega
  | penultimate =>
      cases hwrite
      exact .inl ⟨_, get?_modify_self hc, rfl, Begun.complete (hsent.penultimate rfl ▸ hbegun')⟩
  | bail => exact absurd rfl (ne_bail hios.2 hloop)

/-! ## Runs -/

theorem Sending.completes (h : Sending s a fd n out) (hok : PictureOk cfg s lost)
    (hrun : (httpServer cfg).Run s es t) (hes : ∀ e ∈ es, e.SmoothFor a)
    (hcount : (cfg.leaf.getD []).length - n < es.countP (Event.isWriteable a)) :
    ∃ es₁ es₂ u c' pieces, es = es₁ ++ es₂ ∧ (httpServer cfg).Run s es₁ u ∧
      u.connections.get? a = some c' ∧ c'.out = out ++ List.map .body pieces ++ [.completed] ∧
        Whole (cfg.leaf.getD []) c'.out := by
  induction es generalizing s n out lost with
  | nil => simp at hcount
  | cons e es ih =>
      obtain ⟨s₁, hstep, hrest⟩ := Lts.run_ofStep_cons_iff.mp hrun
      obtain ⟨hsmooth, hes'⟩ := List.forall_mem_cons.mp hes
      have hrun₁ : ∀ {es₁ u}, (httpServer cfg).Run s₁ es₁ u → (httpServer cfg).Run s (e :: es₁) u :=
        fun hrun ↦ Lts.run_ofStep_cons_iff.mpr ⟨s₁, hstep, hrun⟩
      by_cases hwriteable : e.isWriteable a = true
      · rw [List.countP_cons_of_pos hwriteable] at hcount
        obtain ⟨ios, rfl⟩ : ∃ ios, e = .httpWriteable a ios := by
          cases e with
          | httpWriteable b ios => exact ⟨ios, by rw [of_decide_eq_true hwriteable]⟩
          | _ => cases hwriteable
        obtain ⟨pieces, ⟨c', hc', hout, hwhole⟩ | ⟨m, hnm, hm, hsending⟩⟩ :=
          h.writeable hok hstep (hsmooth rfl)
        · exact ⟨[.httpWriteable a ios], es, s₁, c', pieces, rfl, .single hstep, hc', hout, hwhole⟩
        · obtain ⟨es₁, es₂, u, c', rest, rfl, hu, hc', hout, hwhole⟩ :=
            ih hsending (hok.step hstep) hrest hes' (by omega)
          refine ⟨.httpWriteable a ios :: es₁, es₂, u, c', pieces ++ rest, rfl, hrun₁ hu, hc', ?_,
            hwhole⟩
          rw [hout, List.map_append, ← List.append_assoc]
      · rw [List.countP_cons_of_neg hwriteable] at hcount
        obtain ⟨es₁, es₂, u, c', pieces, rfl, hu, hrest⟩ :=
          ih (h.stays hok hstep hsmooth (Bool.eq_false_iff.mpr hwriteable)) (hok.step hstep) hrest
            hes' hcount
        exact ⟨e :: es₁, es₂, u, c', pieces, rfl, hrun₁ hu, hrest⟩

end EsNotebook.Http
