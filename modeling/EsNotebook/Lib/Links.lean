import EsNotebook.Lib.Chain

/-!
# Lists linked in both directions

A linkage says which fields of a record link its cell to the next one and
back to the previous one, and what the rest of the record is.  A record may
carry more than one linkage.  A list without back links is the case where
`Back` asks for nothing.
-/

namespace EsNotebook

variable {α β γ : Type*}

/-- The fields of a record that link its cell into a list. -/
structure Linkage (α β γ : Type*) where
  next : β → Option α
  setNext : Option α → β → β
  setPrev : Option α → β → β
  payload : β → γ
  Back : Option α → β → Prop
  next_setNext : ∀ n r, next (setNext n r) = n
  next_setPrev : ∀ p r, next (setPrev p r) = next r
  payload_setNext : ∀ n r, payload (setNext n r) = payload r
  payload_setPrev : ∀ p r, payload (setPrev p r) = payload r
  back_setPrev : ∀ p r, Back p (setPrev p r)
  back_setNext : ∀ p n r, Back p r → Back p (setNext n r)

attribute [simp] Linkage.next_setNext Linkage.next_setPrev Linkage.payload_setNext
  Linkage.payload_setPrev Linkage.back_setPrev

namespace Heap

variable [DecidableEq α] {h : Heap α β} {a b : α} {r : β} {f : β → β}

theorem store_of_get? (hr : h.get? a = some r) : h.store a f = some (h.modify a f) := by
  simp [store, hr]

theorem get?_modify_of_get? (hr : h.get? a = some r) : (h.modify a f).get? a = some (f r) := by
  rw [get?_modify_self, hr]
  rfl

theorem isSome_get?_modify : ((h.modify a f).get? b).isSome = (h.get? b).isSome := by
  rw [get?_modify]
  split
  · next hb => simp [hb]
  · rfl

end Heap

namespace Linkage

variable (L : Linkage α β γ)

/-- From the pointer `p`, with `b` the cell before it, the cells of the list
follow each other and lead to `q`, and each of them leads back. -/
def Linked [DecidableEq α] (L : Linkage α β γ) (h : Heap α β) :
    Option α → Option α → List α → Option α → Prop
  | _, p, [], q => p = q
  | b, p, a :: as, q =>
      p = some a ∧ ∃ r, h.get? a = some r ∧ L.Back b r ∧ L.Linked h (some a) (L.next r) as q

section Linked

variable {L} [DecidableEq α] {h h' : Heap α β} {b b' p q m n : Option α} {a x y : α}
  {xs ys : List α} {f : β → β} {r : β}

@[simp] theorem linked_nil : L.Linked h b p [] q ↔ p = q := Iff.rfl

@[simp] theorem linked_cons : L.Linked h b p (a :: xs) q ↔
    p = some a ∧ ∃ r, h.get? a = some r ∧ L.Back b r ∧
      L.Linked h (some a) (L.next r) xs q := Iff.rfl

theorem linked_append : L.Linked h b p (xs ++ ys) q ↔
    ∃ m, L.Linked h b p xs m ∧ L.Linked h (xs.getLast?.or b) m ys q := by
  induction xs generalizing b p with
  | nil => simp
  | cons x xs ih =>
      have hlast : (x :: xs).getLast?.or b = xs.getLast?.or (some x) := by
        cases xs using List.reverseRecOn <;> simp [List.getLast?_cons]
      simp only [List.cons_append, linked_cons, ih, hlast]
      constructor
      · rintro ⟨hp, r, hr, hback, m, hxs, hys⟩
        exact ⟨m, ⟨hp, r, hr, hback, hxs⟩, hys⟩
      · rintro ⟨m, ⟨hp, r, hr, hback, hxs⟩, hys⟩
        exact ⟨hp, r, hr, hback, m, hxs, hys⟩

theorem Linked.seg (hl : L.Linked h b p xs q) : Seg (h.next L.next) p xs q := by
  induction xs generalizing b p with
  | nil => exact hl
  | cons x xs ih =>
      obtain ⟨hp, r, hr, -, hxs⟩ := hl
      exact ⟨hp, L.next r, by simp [Heap.next, hr], ih hxs⟩

theorem Linked.chain (hl : L.Linked h b p xs none) : Chain (h.next L.next) p xs := hl.seg

theorem Linked.exists_get? (hl : L.Linked h b p xs q) (ha : a ∈ xs) : ∃ r, h.get? a = some r := by
  induction xs generalizing b p with
  | nil => simp at ha
  | cons x xs ih =>
      obtain ⟨-, r, hr, -, hxs⟩ := hl
      rcases List.mem_cons.mp ha with rfl | ha
      · exact ⟨r, hr⟩
      · exact ih hxs ha

/-- The record of a cell in the list. -/
theorem Linked.get? (hl : L.Linked h b p (xs ++ a :: ys) none) :
    ∃ r, h.get? a = some r ∧ L.Back (xs.getLast?.or b) r ∧ L.next r = ys.head? := by
  obtain ⟨m, -, -, r, hr, hback, hys⟩ := linked_append.mp hl
  refine ⟨r, hr, hback, ?_⟩
  cases ys with
  | nil => exact hys
  | cons y ys => exact hys.1

theorem Linked.head? (hl : L.Linked h b p xs none) : p = xs.head? := by
  cases xs with
  | nil => exact hl
  | cons x xs => exact hl.1

/-- Only the links of the cells in the list matter. -/
theorem Linked.congr (hl : L.Linked h b p xs q)
    (heq : ∀ a ∈ xs, ∀ r, h.get? a = some r → ∃ r', h'.get? a = some r' ∧
      L.next r' = L.next r ∧ ∀ b, L.Back b r → L.Back b r') : L.Linked h' b p xs q := by
  induction xs generalizing b p with
  | nil => exact hl
  | cons x xs ih =>
      obtain ⟨hp, r, hr, hback, hxs⟩ := hl
      obtain ⟨r', hr', hnext, hback'⟩ := heq x (by simp) r hr
      refine ⟨hp, r', hr', hback' b hback, ?_⟩
      rw [hnext]
      exact ih hxs fun a ha ↦ heq a (by simp [ha])

theorem Linked.congr_get? (hl : L.Linked h b p xs q) (heq : ∀ a ∈ xs, h'.get? a = h.get? a) :
    L.Linked h' b p xs q :=
  hl.congr fun a ha r hr ↦ ⟨r, (heq a ha).trans hr, rfl, fun _ hback ↦ hback⟩

theorem Linked.modify_of_notMem (hl : L.Linked h b p xs q) (ha : a ∉ xs) :
    L.Linked (h.modify a f) b p xs q :=
  hl.congr_get? fun _ hb ↦ Heap.get?_modify_of_ne fun heq ↦ ha (heq ▸ hb)

/-- A write to another field than the links. -/
theorem Linked.modify_of_links (hl : L.Linked h b p xs q) (hnext : ∀ r, L.next (f r) = L.next r)
    (hback : ∀ b r, L.Back b r → L.Back b (f r)) : L.Linked (h.modify a f) b p xs q := by
  refine hl.congr fun x _ r hr ↦ ?_
  by_cases hx : x = a
  · subst hx
    exact ⟨f r, Heap.get?_modify_of_get? hr, hnext r, fun b ↦ hback b r⟩
  · exact ⟨r, by rw [Heap.get?_modify_of_ne hx, hr], rfl, fun _ hb ↦ hb⟩

/-- A new link from the last cell. -/
theorem Linked.setNext_last (hl : L.Linked h b p (xs ++ [y]) m) (hy : y ∉ xs) :
    L.Linked (h.modify y (L.setNext n)) b p (xs ++ [y]) n := by
  obtain ⟨m', hxs, hm', r, hr, hback, -⟩ := linked_append.mp hl
  refine linked_append.mpr ⟨m', hxs.modify_of_notMem hy, hm', L.setNext n r,
    Heap.get?_modify_of_get? hr, L.back_setNext _ _ _ hback, ?_⟩
  simp

/-- A new link back from the first cell. -/
theorem Linked.setPrev_head (hl : L.Linked h b p (x :: xs) q) (hx : x ∉ xs) :
    L.Linked (h.modify x (L.setPrev b')) b' p (x :: xs) q := by
  obtain ⟨hp, r, hr, -, hxs⟩ := hl
  refine ⟨hp, L.setPrev b' r, Heap.get?_modify_of_get? hr, L.back_setPrev _ _, ?_⟩
  rw [L.next_setPrev]
  exact hxs.modify_of_notMem hx

/-- Link the cell at the pointer `p` back to another one, if there is a cell. -/
def setBack (L : Linkage α β γ) (h : Heap α β) (p b : Option α) : Heap α β :=
  p.elim h fun x ↦ h.modify x (L.setPrev b)

/-- Link the cell at the pointer `p` to another one, if there is a cell. -/
def setForward (L : Linkage α β γ) (h : Heap α β) (p n : Option α) : Heap α β :=
  p.elim h fun y ↦ h.modify y (L.setNext n)

theorem get?_setBack_of_ne (ha : p ≠ some a) : (L.setBack h p b).get? a = h.get? a := by
  cases p with
  | none => rfl
  | some x => exact Heap.get?_modify_of_ne fun hax ↦ ha (hax ▸ rfl)

theorem get?_setForward_of_ne (ha : p ≠ some a) : (L.setForward h p n).get? a = h.get? a := by
  cases p with
  | none => rfl
  | some x => exact Heap.get?_modify_of_ne fun hax ↦ ha (hax ▸ rfl)

theorem Linked.setBack (hl : L.Linked h b p xs none) (hnodup : xs.Nodup) (b' : Option α) :
    L.Linked (L.setBack h p b') b' p xs none := by
  cases xs with
  | nil =>
      obtain rfl := linked_nil.mp hl
      exact linked_nil.mpr rfl
  | cons x xs =>
      obtain ⟨rfl, -⟩ := id hl
      exact hl.setPrev_head (List.nodup_cons.mp hnodup).1

/-- Link the cells before and after one to each other. -/
def bypass (L : Linkage α β γ) (h : Heap α β) (before after : Option α) : Heap α β :=
  L.setBack (L.setForward h before after) after before

/-- Linking the neighbours of a cell to each other takes the cell out. -/
theorem Linked.bypass (hl : L.Linked h none p (xs ++ a :: ys) none)
    (hnodup : (xs ++ a :: ys).Nodup) :
    L.Linked (L.bypass h xs.getLast? ys.head?) none
      (if xs = [] then ys.head? else p) (xs ++ ys) none := by
  obtain ⟨hxs, haxs, hdisj⟩ := List.nodup_append.mp hnodup
  have hys := (List.nodup_cons.mp haxs).2
  obtain ⟨m, hfst, -, r, hr, -, hsnd⟩ := linked_append.mp hl
  have hhead : L.next r = ys.head? := hsnd.head?
  rw [hhead] at hsnd
  rcases List.eq_nil_or_concat xs with rfl | ⟨xs, y, rfl⟩
  · exact hsnd.setBack hys none
  rw [List.concat_eq_append] at *
  have hy : y ∉ ys := fun hmem ↦ hdisj y (by simp) y (List.mem_cons_of_mem a hmem) rfl
  have hyxs : y ∉ xs := fun hmem ↦ (List.nodup_append.mp hxs).2.2 y hmem y (by simp) rfl
  have hfst₁ : L.Linked (L.setForward h (some y) ys.head?) none p (xs ++ [y]) ys.head? :=
    hfst.setNext_last hyxs
  have hsnd₁ : L.Linked (L.setForward h (some y) ys.head?) (some a) ys.head? ys none :=
    hsnd.modify_of_notMem hy
  simp only [Linkage.bypass, List.getLast?_concat]
  refine linked_append.mpr ⟨ys.head?, ?_, by simpa using hsnd₁.setBack hys (some y)⟩
  rw [if_neg (by simp)]
  refine hfst₁.congr_get? fun x hx ↦ get?_setBack_of_ne fun hhead ↦ ?_
  exact hdisj x hx x (List.mem_cons_of_mem a (List.mem_of_mem_head? hhead)) rfl

theorem get?_bypass_of_ne {before after : Option α} (hbefore : before ≠ some a)
    (hafter : after ≠ some a) : (L.bypass h before after).get? a = h.get? a :=
  (get?_setBack_of_ne hafter).trans (get?_setForward_of_ne hbefore)

end Linked

/-! ## Writes to the links only -/

section SameBut

variable [DecidableEq α]

/-- The heaps differ in the links only. -/
def SameBut (L : Linkage α β γ) (h h' : Heap α β) : Prop :=
  ∀ a, (h'.get? a).map L.payload = (h.get? a).map L.payload

variable {L} {h h' h'' : Heap α β} {a : α} {n : Option α} {r : β}

theorem SameBut.refl : L.SameBut h h := fun _ ↦ rfl

theorem SameBut.trans (h₁ : L.SameBut h h') (h₂ : L.SameBut h' h'') : L.SameBut h h'' :=
  fun a ↦ (h₂ a).trans (h₁ a)

theorem SameBut.modify {f : β → β} (hs : L.SameBut h h')
    (hf : ∀ r, L.payload (f r) = L.payload r) : L.SameBut h (h'.modify a f) := by
  intro b
  rw [← hs b, Heap.get?_modify]
  split
  · next hb =>
      subst hb
      cases h'.get? b <;> simp [hf]
  · rfl

theorem SameBut.setBack (hs : L.SameBut h h') (p b : Option α) : L.SameBut h (L.setBack h' p b) := by
  cases p with
  | none => exact hs
  | some x => exact hs.modify (L.payload_setPrev b)

theorem SameBut.setForward (hs : L.SameBut h h') (p n : Option α) :
    L.SameBut h (L.setForward h' p n) := by
  cases p with
  | none => exact hs
  | some x => exact hs.modify (L.payload_setNext n)

theorem SameBut.bypass (before after : Option α) : L.SameBut h (L.bypass h before after) :=
  (SameBut.refl.setForward before after).setBack after before

theorem SameBut.exists_get? (hs : L.SameBut h h') (hr : h.get? a = some r) :
    ∃ r', h'.get? a = some r' ∧ L.payload r' = L.payload r := by
  have ha := hs a
  rw [hr] at ha
  exact Option.map_eq_some_iff.mp ha

theorem SameBut.isSome (hs : L.SameBut h h') : (h'.get? a).isSome = (h.get? a).isSome := by
  simpa using congrArg Option.isSome (hs a)

end SameBut

end Linkage

end EsNotebook
