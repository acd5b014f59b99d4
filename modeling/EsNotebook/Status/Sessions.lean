import EsNotebook.Status.Callback

/-!
# The list of live sessions

The sessions of a vhost are linked through their own user data, and a walk
keeps a pointer into the list between two writeable callbacks while sessions
come and go.  The list visits exactly the sessions with allocated user data,
and the walk looks its pointer up in the list before it follows it.
-/

namespace EsNotebook.Status

variable {lws : Lws} {s t u : State} {ls : List Addr} {a b : Addr} {pss pss' : PerSessionData}

/-- The list of the vhost visits the sessions `ls`, which are all there are. -/
structure Sessions (s : State) (ls : List Addr) : Prop where
  chain : Chain s.nx s.vhd.livePssList ls
  mem_iff : ∀ a, a ∈ ls ↔ (s.sessions.get? a).isSome
  writable_subset : ∀ a ∈ s.writable, a ∈ ls
  closing_subset : ∀ a ∈ s.closing, a ∈ ls

theorem sessions_init : Sessions .init [] where
  chain := rfl
  mem_iff := by simp [State.init, Heap.get?]
  writable_subset := by simp [State.init]
  closing_subset := by simp [State.init]

namespace Sessions

theorem length_lt_fuel (h : Sessions s ls) : ls.length < s.fuel :=
  Nat.lt_succ_of_le (Heap.length_le_size_of_chain h.chain)

theorem exists_get? (h : Sessions s ls) (ha : a ∈ ls) : ∃ pss, s.sessions.get? a = some pss :=
  Option.isSome_iff_exists.mp ((h.mem_iff a).mp ha)

theorem mem_of_get? (h : Sessions s ls) (ha : s.sessions.get? a = some pss) : a ∈ ls :=
  (h.mem_iff a).mpr (by simp [ha])

end Sessions

/-! ## Connections that come and go -/

@[simp] theorem PerSessionData.triggerResend_next (vhd : PerVhostData) (pss : PerSessionData) :
    (pss.triggerResend vhd).next = pss.next := by
  unfold triggerResend
  split <;> rfl

/-- `t` is `u` after `trigger_resend` has gone through the sessions `ls`. -/
structure Resent (u t : State) (ls : List Addr) : Prop where
  vhd : t.vhd = u.vhd
  get? : ∀ b, t.sessions.get? b =
    if b ∈ ls then (u.sessions.get? b).map (PerSessionData.triggerResend u.vhd)
    else u.sessions.get? b
  mem_writable : ∀ b, b ∈ t.writable ↔ (u.sessions.get? b).isSome
  closing : t.closing = u.closing
  sent : t.sent = u.sent

theorem triggerResend_of_chain (h : Chain u.nx u.vhd.livePssList ls) :
    ∃ t, triggerResend u = some t ∧ Resent u t ls := by
  obtain ⟨sessions, hsweep, hget⟩ := sweep_of_chain
    (PerSessionData.triggerResend_next u.vhd) h (Nat.lt_succ_of_le (Heap.length_le_size_of_chain h))
  refine ⟨{ u with sessions := sessions }.callbackOnWritableAll, ?_, rfl, hget, ?_, rfl, rfl⟩
  · simp [triggerResend, State.fuel, hsweep]
  intro b
  have hb : b ∈ sessions.cells.map Prod.fst ↔ (sessions.get? b).isSome := Heap.mem_cells_iff
  have hwritable : b ∈ ({ u with sessions := sessions }.callbackOnWritableAll).writable ↔
      b ∈ sessions.cells.map Prod.fst := Iff.rfl
  rw [hwritable, hb, hget]
  split <;> simp

theorem Resent.nx (h : Resent u t ls) : t.nx b = u.nx b := by
  simp only [State.nx, Heap.next, h.get?]
  split
  · cases u.sessions.get? b <;> simp
  · rfl

theorem Resent.isSome_get? (h : Resent u t ls) :
    (t.sessions.get? b).isSome = (u.sessions.get? b).isSome := by
  rw [h.get?]
  split <;> simp

/-- What a connection that comes or goes does to another session `b`. -/
structure Announced (s t : State) (b : Addr) : Prop where
  get? : ∀ pss, s.sessions.get? b = some pss →
    ∃ n, t.sessions.get? b = some { pss.triggerResend t.vhd with next := n }
  mem_writable : (s.sessions.get? b).isSome → b ∈ t.writable
  mem_closing : b ∈ t.closing ↔ b ∈ s.closing
  sent : t.sent b = s.sent b

/-- The user data of a new session after the callback. -/
def freshSession (vhd : PerVhostData) (next : Option Addr) (wsi now : ℕ)
    (ua : Option (List Char)) : PerSessionData :=
  { next := next
    wsi := wsi
    timeEst := now
    userAgent := copyUserAgent ua
    walk := .initial
    walkNext := vhd.livePssList
    subsequent := false
    changedPartway := false }

theorem established_spec (h : Sessions s ls) (ha : s.sessions.get? a = none) (wsi now : ℕ)
    (ua : Option (List Char)) :
    ∃ t, established s a wsi now ua = some t ∧ Sessions t (a :: ls) ∧
      t.vhd.countLivePss = s.vhd.countLivePss + 1 ∧
      t.sessions.get? a = some (freshSession t.vhd s.vhd.livePssList wsi now ua) ∧
      a ∈ t.writable ∧ a ∉ t.closing ∧ t.sent a = [] ∧ ∀ b, b ≠ a → Announced s t b := by
  have hals : a ∉ ls := fun hmem ↦ by simpa [ha] using (h.mem_iff a).mp hmem
  set pss₀ : PerSessionData :=
    { next := s.vhd.livePssList, wsi := wsi, timeEst := now, userAgent := copyUserAgent ua,
      walk := .none, walkNext := none, subsequent := false, changedPartway := false }
  set u : State :=
    { s with
      vhd := { livePssList := some a, countLivePss := s.vhd.countLivePss + 1 }
      sessions := s.sessions.alloc a pss₀
      sent := Function.update s.sent a [] }
  have hself : u.sessions.get? a = some pss₀ := Heap.get?_alloc_self
  have hother : ∀ b, b ≠ a → u.sessions.get? b = s.sessions.get? b :=
    fun b hb ↦ Heap.get?_alloc_of_ne hb
  have hchain : Chain u.nx u.vhd.livePssList (a :: ls) := by
    refine ⟨rfl, s.vhd.livePssList, by simp [State.nx, Heap.next, hself, pss₀], ?_⟩
    refine Chain.congr h.chain fun b hb ↦ ?_
    have hne : b ≠ a := fun hba ↦ hals (hba ▸ hb)
    simp only [State.nx, Heap.next, hother b hne]
  obtain ⟨t, ht, hres⟩ := triggerResend_of_chain hchain
  have hmem : ∀ b, b ∈ a :: ls ↔ (u.sessions.get? b).isSome := by
    intro b
    by_cases hb : b = a
    · subst hb
      simp [hself]
    · simp [hb, hother b hb, h.mem_iff b]
  refine ⟨t, ht, ?_, by rw [hres.vhd], ?_, ?_, ?_, ?_, ?_⟩
  · refine ⟨?_, fun b ↦ by rw [hmem, hres.isSome_get?],
      fun b hb ↦ (hmem b).mpr ((hres.mem_writable b).mp hb), ?_⟩
    · rw [hres.vhd]
      exact hchain.congr fun b _ ↦ hres.nx
    · intro b hb
      rw [hres.closing] at hb
      exact List.mem_cons_of_mem a (h.closing_subset b hb)
  · rw [hres.get?, hself, hres.vhd]
    simp [PerSessionData.triggerResend, freshSession, pss₀]
  · rw [hres.mem_writable, hself]
    rfl
  · rw [hres.closing]
    exact fun hc ↦ hals (h.closing_subset a hc)
  · simp [hres.sent, u]
  · intro b hb
    refine ⟨fun pss hpss ↦ ⟨pss.next, ?_⟩, ?_, by rw [hres.closing], by simp [hres.sent, u, hb]⟩
    · have hbls : b ∈ a :: ls := List.mem_cons_of_mem a (h.mem_of_get? hpss)
      rw [hres.get?, if_pos hbls, hother b hb, hpss, hres.vhd]
      simp only [Option.map_some, PerSessionData.triggerResend]
      split <;> rfl
    · intro hsome
      rwa [hres.mem_writable, hother b hb]

theorem closed_spec (h : Sessions s ls) (ha : a ∈ ls) :
    ∃ t, closed s a = some t ∧ Sessions t (ls.erase a) ∧
      t.vhd.countLivePss = s.vhd.countLivePss ∧ ∀ b, b ≠ a → Announced s t b := by
  have hset : ∀ n pss, PerSessionData.next
      ((fun n (pss : PerSessionData) ↦ { pss with next := n }) n pss) = n := fun _ _ ↦ rfl
  obtain ⟨head, sessions, hunlink, hchain, hframe⟩ :=
    unlink_of_chain (a := a) hset h.chain h.length_lt_fuel
  set u : State := { s with vhd := { s.vhd with livePssList := head }, sessions := sessions }
  obtain ⟨v, hv, hres⟩ := triggerResend_of_chain (u := u) hchain
  -- only the link of the session before `a` may have changed
  have hlinks : ∀ b pss, s.sessions.get? b = some pss →
      ∃ n, sessions.get? b = some { pss with next := n } := by
    intro b pss hb
    rcases hframe with rfl | ⟨y, n, rfl⟩
    · exact ⟨pss.next, hb⟩
    · by_cases hby : b = y
      · subst hby
        exact ⟨n, by simp [Heap.get?_modify_self, hb]⟩
      · exact ⟨pss.next, by rw [Heap.get?_modify_of_ne hby, hb]⟩
  have hsome : ∀ b, (sessions.get? b).isSome = (s.sessions.get? b).isSome := by
    intro b
    rcases hframe with rfl | ⟨y, n, rfl⟩
    · rfl
    · rw [Heap.get?_modify]
      split
      · next hby => subst hby; simp
      · rfl
  set t : State :=
    { v with
      sessions := v.sessions.free a
      writable := v.writable.filter (· ≠ a)
      closing := v.closing.filter (· ≠ a) }
  have hmem : ∀ b, b ∈ ls.erase a ↔ b ≠ a ∧ b ∈ ls := fun b ↦ h.chain.nodup.mem_erase_iff
  have hget : ∀ b, b ≠ a → t.sessions.get? b = v.sessions.get? b :=
    fun b hb ↦ Heap.get?_free_of_ne hb
  refine ⟨t, by simp [closed, hunlink, u, hv, t], ⟨?_, fun b ↦ ?_, fun b hb ↦ ?_, fun b hb ↦ ?_⟩,
    by simp [t, hres.vhd, u], fun b hb ↦ ?_⟩
  · have hvhd : t.vhd.livePssList = u.vhd.livePssList := by rw [← hres.vhd]
    rw [hvhd]
    refine Chain.congr hchain fun b hb ↦ ?_
    have hba : b ≠ a := ((hmem b).mp hb).1
    rw [State.nx, Heap.next, hget b hba]
    exact hres.nx
  · rw [hmem]
    by_cases hb : b = a
    · subst hb
      simp [t, Heap.get?_free_self]
    · rw [hget b hb, hres.isSome_get?, h.mem_iff b]
      simp [hb, u, hsome]
  · obtain ⟨hbv, hba⟩ := List.mem_filter.mp hb
    rw [hmem, h.mem_iff, ← hsome]
    exact ⟨by simpa using hba, (hres.mem_writable b).mp hbv⟩
  · obtain ⟨hbv, hba⟩ := List.mem_filter.mp hb
    rw [hres.closing] at hbv
    exact (hmem b).mpr ⟨by simpa using hba, h.closing_subset b hbv⟩
  · refine ⟨fun pss hpss ↦ ?_, fun hb' ↦ ?_, ?_, by simp [t, hres.sent, u]⟩
    · obtain ⟨n, hn⟩ := hlinks b pss hpss
      have hbls : b ∈ ls.erase a := (hmem b).mpr ⟨hb, h.mem_of_get? hpss⟩
      refine ⟨n, ?_⟩
      rw [hget b hb, hres.get?, if_pos hbls]
      simp only [u, hn, Option.map_some, t, hres.vhd, Option.some.injEq]
      simp only [PerSessionData.triggerResend]
      split <;> rfl
    · refine List.mem_filter.mpr ⟨(hres.mem_writable b).mpr ?_, by simpa using hb⟩
      rwa [hsome b]
    · simp [t, hres.closing, u, hb]

/-! ## One step of a walk -/

/-- The user data that a walk leaves alone. -/
def PerSessionData.fixed (pss : PerSessionData) : Option Addr × ℕ × ℕ × List Char :=
  (pss.next, pss.wsi, pss.timeEst, pss.userAgent)

theorem next_eq_of_fixed (h : pss'.fixed = pss.fixed) : pss'.next = pss.next :=
  congrArg Prod.fst h

theorem entryText_eq_of_fixed (lws : Lws) (h : pss'.fixed = pss.fixed) :
    entryText lws pss' = entryText lws pss := by
  have hwsi : pss'.wsi = pss.wsi := congrArg (fun c ↦ c.2.1) h
  have htime : pss'.timeEst = pss.timeEst := congrArg (fun c ↦ c.2.2.1) h
  have hua : pss'.userAgent = pss.userAgent := congrArg (fun c ↦ c.2.2.2) h
  simp only [entryText, hwsi, htime, hua]

/-- The end of the list is looked up before it is followed. -/
theorem seek_live (h : Sessions s ls) (w : Addr) :
    seek s.nx (· = w) s.fuel s.vhd.livePssList = some (if w ∈ ls then some w else none) := by
  rw [seek_of_chain h.chain h.length_lt_fuel]
  congr 1
  split
  · next hw =>
      obtain ⟨x, hx⟩ := Option.isSome_iff_exists.mp
        (List.find?_isSome.mpr ⟨w, hw, by simp⟩ : (ls.find? (· = w)).isSome)
      obtain rfl : x = w := by simpa using List.find?_some hx
      exact hx
  · next hw =>
      rw [List.find?_eq_none]
      intro x hx hxw
      exact hw (of_decide_eq_true hxw ▸ hx)

/-- What stands before the entry of a session. -/
def comma (pss : PerSessionData) : List Char := if pss.subsequent then [','] else []

theorem walkStep_initial (lws : Lws) (s : State) (hwalk : pss.walk = .initial) :
    walkStep lws s pss = some (some
      ( { text := true, fin := false, payload := lws.snprintf (room 0) (headerText lws s.vhd) },
        { pss with walk := .list, walkNext := s.vhd.livePssList })) := by
  simp [walkStep, hwalk]

theorem walkStep_final (lws : Lws) (s : State)
    (hwalk : pss.walk = .final ∨ pss.walk = .list ∧ pss.walkNext = none) :
    walkStep lws s pss = some (some (walkFinal s.vhd pss)) := by
  rcases hwalk with hwalk | ⟨hwalk, hnext⟩
  · simp [walkStep, hwalk]
  · simp [walkStep, hwalk, hnext]

theorem walkStep_entry (h : Sessions s ls) {w : Addr} (hwalk : pss.walk = .list)
    (hnext : pss.walkNext = some w) (hw : s.sessions.get? w = some pss') :
    walkStep lws s pss = some (some
      ( { text := false
          fin := false
          payload := comma pss ++ lws.snprintf (room (comma pss).length) (entryText lws pss') },
        { pss with
          subsequent := true
          walkNext := pss'.next
          walk := if pss'.next = none then .final else .list })) := by
  simp [walkStep, hwalk, hnext, seek_live h, h.mem_of_get? hw, hw, comma]

theorem walkStep_gone (h : Sessions s ls) {w : Addr} (hwalk : pss.walk = .list)
    (hnext : pss.walkNext = some w) (hw : w ∉ ls) :
    walkStep lws s pss = some (some
      ( { text := false, fin := false, payload := comma pss },
        { pss with subsequent := true, walk := .final, changedPartway := true })) := by
  simp [walkStep, hwalk, hnext, seek_live h, hw, comma]

theorem walkFinal_walk (vhd : PerVhostData) (pss : PerSessionData) :
    (walkFinal vhd pss).2.walk = if pss.changedPartway then .initial else .none := by
  simp only [walkFinal]
  split <;> simp

theorem walkFinal_fixed (vhd : PerVhostData) (pss : PerSessionData) :
    (walkFinal vhd pss).2.fixed = pss.fixed := by
  simp only [walkFinal]
  split <;> rfl

theorem walkFinal_changedPartway (vhd : PerVhostData) (pss : PerSessionData) :
    (walkFinal vhd pss).2.changedPartway = pss.changedPartway := by
  simp only [walkFinal]
  split <;> rfl

/-- What a step of the walk writes, and the walk after it: a message begins,
goes on or ends. -/
theorem walkStep_cases (lws : Lws) (h : Sessions s ls) (pss : PerSessionData) :
    (pss.walk = .none ∧ walkStep lws s pss = some none) ∨
    ∃ frame pss', walkStep lws s pss = some (some (frame, pss')) ∧ pss'.fixed = pss.fixed ∧
      (pss.changedPartway → pss'.changedPartway) ∧
      ((pss.walk = .initial ∧ frame.text = true ∧ frame.fin = false ∧ pss'.walk = .list) ∨
        (pss.walk = .list ∧ frame.text = false ∧ frame.fin = false ∧
          (pss'.walk = .list ∨ pss'.walk = .final)) ∨
        ((pss.walk = .list ∨ pss.walk = .final) ∧ frame.text = false ∧ frame.fin = true ∧
          pss' = (walkFinal s.vhd pss).2)) := by
  have hend : pss.walk = .final ∨ pss.walk = .list ∧ pss.walkNext = none →
      ∃ frame pss', walkStep lws s pss = some (some (frame, pss')) ∧ pss'.fixed = pss.fixed ∧
        (pss.changedPartway → pss'.changedPartway) ∧ frame.text = false ∧ frame.fin = true ∧
        pss' = (walkFinal s.vhd pss).2 :=
    fun hwalk ↦ ⟨_, _, walkStep_final lws s hwalk, walkFinal_fixed s.vhd pss,
      fun hch ↦ (walkFinal_changedPartway s.vhd pss).trans hch, rfl, rfl, rfl⟩
  cases hwalk : pss.walk with
  | none => exact .inl ⟨rfl, by simp [walkStep, hwalk]⟩
  | initial =>
      exact .inr ⟨_, _, walkStep_initial lws s hwalk, rfl, id, .inl ⟨rfl, rfl, rfl, rfl⟩⟩
  | final =>
      obtain ⟨frame, pss', hstep, hn, hch, hrest⟩ := hend (.inl hwalk)
      exact .inr ⟨frame, pss', hstep, hn, hch, .inr (.inr ⟨.inr rfl, hrest⟩)⟩
  | list =>
      cases hnext : pss.walkNext with
      | none =>
          obtain ⟨frame, pss', hstep, hn, hch, hrest⟩ := hend (.inr ⟨hwalk, hnext⟩)
          exact .inr ⟨frame, pss', hstep, hn, hch, .inr (.inr ⟨.inl rfl, hrest⟩)⟩
      | some w =>
          by_cases hw : w ∈ ls
          · obtain ⟨pss', hpss'⟩ := h.exists_get? hw
            refine .inr ⟨_, _, walkStep_entry h hwalk hnext hpss', rfl, id,
              .inr (.inl ⟨rfl, rfl, rfl, ?_⟩)⟩
            by_cases hn : pss'.next = none <;> simp [hn]
          · exact .inr ⟨_, _, walkStep_gone h hwalk hnext hw, rfl, fun _ ↦ rfl,
              .inr (.inl ⟨rfl, rfl, rfl, .inr rfl⟩)⟩

/-- The same for a step that is known to write. -/
theorem walkStep_some (h : Sessions s ls) {frame : WsFrame}
    (hstep : walkStep lws s pss = some (some (frame, pss'))) :
    pss'.fixed = pss.fixed ∧ (pss.changedPartway → pss'.changedPartway) ∧
      ((pss.walk = .initial ∧ frame.text = true ∧ frame.fin = false ∧ pss'.walk = .list) ∨
        (pss.walk = .list ∧ frame.text = false ∧ frame.fin = false ∧
          (pss'.walk = .list ∨ pss'.walk = .final)) ∨
        ((pss.walk = .list ∨ pss.walk = .final) ∧ frame.text = false ∧ frame.fin = true ∧
          pss' = (walkFinal s.vhd pss).2)) := by
  rcases walkStep_cases lws h pss with ⟨-, hnone⟩ | ⟨frame₁, pss₁, hsome, hcases⟩
  · cases hstep.symm.trans hnone
  · obtain ⟨rfl, rfl⟩ : frame = frame₁ ∧ pss' = pss₁ := by simpa using hstep.symm.trans hsome
    exact hcases

/-! ## The callback for a writeable connection -/

/-- Nothing has happened to the session `b`. -/
structure Untouched (s t : State) (b : Addr) : Prop where
  get? : t.sessions.get? b = s.sessions.get? b
  mem_writable : b ∈ t.writable ↔ b ∈ s.writable
  mem_closing : b ∈ t.closing ↔ b ∈ s.closing
  sent : t.sent b = s.sent b

/-- The session `a` has been called for its writeable connection and had
nothing to write. -/
structure Idled (lws : Lws) (s t : State) (a : Addr) (pss : PerSessionData) : Prop where
  walkStep : walkStep lws s pss = some none
  get? : t.sessions.get? a = some pss
  not_mem_writable : a ∉ t.writable
  mem_closing : a ∈ t.closing ↔ a ∈ s.closing
  sent : t.sent a = s.sent a

/-- The session `a` has written `frame`, with success or not. -/
structure Wrote (lws : Lws) (s t : State) (a : Addr) (pss : PerSessionData) (ok : Bool)
    (frame : WsFrame) (pss' : PerSessionData) : Prop where
  walkStep : walkStep lws s pss = some (some (frame, pss'))
  get? : t.sessions.get? a = some pss'
  fixed : pss'.fixed = pss.fixed
  mem_writable : a ∈ t.writable ↔ ok ∧ pss'.walk ≠ .none
  mem_closing : a ∈ t.closing ↔ ¬ok ∨ a ∈ s.closing
  sent : t.sent a = s.sent a ++ if ok then [frame] else []

theorem walkStep_writable (lws : Lws) (s : State) (pss : PerSessionData) (ws : List Addr) :
    walkStep lws { s with writable := ws } pss = walkStep lws s pss := rfl

theorem serverWriteable_spec (lws : Lws) (h : Sessions s ls) (ha : s.sessions.get? a = some pss)
    (ok : Bool) :
    ∃ t, serverWriteable lws s a ok = some t ∧ Sessions t ls ∧ t.vhd = s.vhd ∧
      (∀ b, b ≠ a → Untouched s t b) ∧
      (Idled lws s t a pss ∨ ∃ frame pss', Wrote lws s t a pss ok frame pss') := by
  have hals := h.mem_of_get? ha
  have hfilter : ∀ b, b ≠ a → (b ∈ s.writable.filter (· ≠ a) ↔ b ∈ s.writable) := by
    intro b hb
    simp [hb]
  set s₁ : State := { s with writable := s.writable.filter (· ≠ a) }
  rcases walkStep_cases lws h pss with ⟨-, hnone⟩ | ⟨frame, pss', hsome, hfixed, -⟩
  · refine ⟨s₁, by simp [serverWriteable, ha, walkStep_writable, hnone, s₁], ?_, rfl, fun b hb ↦ ?_, .inl ?_⟩
    · exact ⟨h.chain, h.mem_iff, fun b hb ↦ h.writable_subset b (List.mem_filter.mp hb).1,
        h.closing_subset⟩
    · exact ⟨rfl, hfilter b hb, Iff.rfl, rfl⟩
    · exact ⟨hnone, ha, by simp [s₁], Iff.rfl, rfl⟩
  · set s₂ : State := { s₁ with sessions := s.sessions.modify a fun _ ↦ pss' }
    have hself : s₂.sessions.get? a = some pss' := by simp [s₂, Heap.get?_modify_self, ha]
    have hother : ∀ b, b ≠ a → s₂.sessions.get? b = s.sessions.get? b :=
      fun b hb ↦ Heap.get?_modify_of_ne hb
    have hchain : Chain s₂.nx s.vhd.livePssList ls := by
      refine h.chain.congr fun b hb ↦ ?_
      by_cases hba : b = a
      · subst hba
        simp [State.nx, Heap.next, hself, ha, next_eq_of_fixed hfixed]
      · simp [State.nx, Heap.next, hother b hba]
    have hmem : ∀ b, b ∈ ls ↔ (s₂.sessions.get? b).isSome := by
      intro b
      by_cases hba : b = a
      · subst hba
        simp [hself, hals]
      · rw [hother b hba, h.mem_iff]
    cases ok with
    | true =>
        refine ⟨{ s₂ with
            sent := Function.update s.sent a (s.sent a ++ [frame])
            writable := if pss'.walk ≠ .none then a :: s₁.writable else s₁.writable },
          by simp [serverWriteable, ha, walkStep_writable, hsome, s₁, s₂], ⟨hchain, hmem, ?_, ?_⟩, rfl, ?_,
          .inr ⟨frame, pss', hsome, hself, hfixed, ?_, by simp [s₂, s₁], by simp⟩⟩
        · intro b hb
          by_cases hba : b = a
          · exact hba ▸ hals
          · refine h.writable_subset b ((hfilter b hba).mp ?_)
            split_ifs at hb
            · simpa [hba, s₁] using hb
            · exact hb
        · exact h.closing_subset
        · intro b hb
          refine ⟨hother b hb, ?_, Iff.rfl, by simp [hb]⟩
          split_ifs <;> simp [s₁, hb]
        · by_cases hw : pss'.walk = .none <;> simp [hw, s₁]
    | false =>
        refine ⟨{ s₂ with closing := a :: s.closing },
          by simp [serverWriteable, ha, walkStep_writable, hsome, s₁, s₂], ⟨hchain, hmem, ?_, ?_⟩, rfl, ?_,
          .inr ⟨frame, pss', hsome, hself, hfixed, by simp [s₂, s₁], by simp, by simp [s₂, s₁]⟩⟩
        · exact fun b hb ↦ h.writable_subset b (List.mem_filter.mp hb).1
        · intro b hb
          rcases List.mem_cons.mp hb with rfl | hb
          · exact hals
          · exact h.closing_subset b hb
        · intro b hb
          exact ⟨hother b hb, hfilter b hb, by simp [hb], rfl⟩

/-! ## Steps and runs -/

/-- The open sessions after an event, the newest first. -/
def openAfter (ls : List Addr) : Event → List Addr
  | .established a _ _ _ => a :: ls
  | .closed a => ls.erase a
  | _ => ls

/-- The open sessions after the events of a run. -/
def openSessions (es : List Event) : List Addr := es.foldl openAfter []

def Event.isEstablished : Event → Bool
  | .established .. => true
  | _ => false

theorem step_eq_some_iff {e : Event} :
    step lws s e = some t ↔ Enabled s e ∧ callback lws s e = some t := by
  simp [step]

/-- Every callback that libwebsockets may make runs to its end, and the list
follows the connections. -/
theorem callback_spec (lws : Lws) (h : Sessions s ls) {e : Event} (he : Enabled s e) :
    ∃ t, callback lws s e = some t ∧ Sessions t (openAfter ls e) ∧
      t.vhd.countLivePss = s.vhd.countLivePss + if e.isEstablished then 1 else 0 := by
  cases e with
  | established a wsi now ua =>
      obtain ⟨t, ht, hsessions, hcount, -⟩ := established_spec h he.1 wsi now ua
      exact ⟨t, ht, hsessions, hcount⟩
  | serverWriteable a ok =>
      obtain ⟨pss, ha⟩ := Option.isSome_iff_exists.mp he.1
      obtain ⟨t, ht, hsessions, hvhd, -⟩ := serverWriteable_spec lws h ha ok
      exact ⟨t, ht, hsessions, by rw [hvhd]; rfl⟩
  | receive a => exact ⟨s, rfl, h, rfl⟩
  | closed a =>
      obtain ⟨t, ht, hsessions, hcount, -⟩ := closed_spec h ((h.mem_iff a).mpr he)
      exact ⟨t, ht, hsessions, hcount⟩

theorem Sessions.step (h : Sessions s ls) {e : Event} (hstep : step lws s e = some t) :
    Sessions t (openAfter ls e) := by
  obtain ⟨he, hcall⟩ := step_eq_some_iff.mp hstep
  obtain ⟨t', ht', hsessions, -⟩ := callback_spec lws h he
  obtain rfl := Option.some.inj (hcall.symm.trans ht')
  exact hsessions

theorem sessions_of_run {es : List Event} (h : (statusServer lws).Run .init es s) :
    Sessions s (openSessions es) := by
  induction h with
  | nil => exact sessions_init
  | snoc _ hstep ih =>
      rw [openSessions, List.foldl_append]
      exact ih.step hstep

theorem exists_sessions (h : (statusServer lws).Reachable s) : ∃ ls, Sessions s ls := by
  obtain ⟨s₀, es, rfl, hrun⟩ := h
  exact ⟨_, sessions_of_run hrun⟩

/-- Over every order of events, each callback that libwebsockets may make stays
within allocated user data and ends, also when the session that a walk would
come to next is gone or its address is in use again. -/
theorem exists_status_callback (hs : (statusServer lws).Reachable s) {e : Event} (he : Enabled s e) :
    ∃ t, callback lws s e = some t := by
  obtain ⟨ls, h⟩ := exists_sessions hs
  obtain ⟨t, ht, -⟩ := callback_spec lws h he
  exact ⟨t, ht⟩

/-- The walk of a session comes to the address of one that is gone, and that a
new connection uses again. -/
theorem exists_status_callback_address_reused :
    ∃ s, (statusServer .sample).Run .init
        [.established 1 10 100 none, .established 2 11 200 none, .serverWriteable 1 true,
          .closed 2, .established 2 12 300 none] s ∧
      ∃ t, callback .sample s (.serverWriteable 1 true) = some t := by
  obtain ⟨s, hrun, he⟩ : ∃ s, (statusServer .sample).Run .init
      [.established 1 10 100 none, .established 2 11 200 none, .serverWriteable 1 true,
        .closed 2, .established 2 12 300 none] s ∧ Enabled s (.serverWriteable 1 true) :=
    Lts.exists_run_of_replay (by decide)
  exact ⟨s, hrun, exists_status_callback ⟨_, _, rfl, hrun⟩ he⟩

/-- What a step does to a session that stays. -/
theorem step_session (h : Sessions s ls) {e : Event} (hstep : step lws s e = some t)
    (hb : s.sessions.get? b = some pss) (hne : e ≠ .closed b) :
    Untouched s t b ∨ Announced s t b ∨ ∃ ok, e = .serverWriteable b ok ∧
      (Idled lws s t b pss ∨ ∃ frame pss', Wrote lws s t b pss ok frame pss') := by
  obtain ⟨he, hcall⟩ := step_eq_some_iff.mp hstep
  cases e with
  | established a wsi now ua =>
      obtain ⟨t', ht', -, -, -, -, -, -, hother⟩ := established_spec h he.1 wsi now ua
      obtain rfl := Option.some.inj (hcall.symm.trans ht')
      refine .inr (.inl (hother b ?_))
      rintro rfl
      rw [he.1] at hb
      cases hb
  | serverWriteable a ok =>
      obtain ⟨pss₀, ha⟩ := Option.isSome_iff_exists.mp he.1
      obtain ⟨t', ht', -, -, hother, hself⟩ := serverWriteable_spec lws h ha ok
      obtain rfl := Option.some.inj (hcall.symm.trans ht')
      by_cases hba : b = a
      · subst hba
        obtain rfl := Option.some.inj (ha.symm.trans hb)
        exact .inr (.inr ⟨ok, rfl, hself⟩)
      · exact .inl (hother b hba)
  | receive a =>
      obtain rfl : s = t := Option.some.inj hcall
      exact .inl ⟨rfl, Iff.rfl, Iff.rfl, rfl⟩
  | closed a =>
      obtain ⟨t', ht', -, -, hother⟩ := closed_spec h ((h.mem_iff a).mpr he)
      obtain rfl := Option.some.inj (hcall.symm.trans ht')
      refine .inr (.inl (hother b ?_))
      rintro rfl
      exact hne rfl

end EsNotebook.Status
