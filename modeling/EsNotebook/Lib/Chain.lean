import Mathlib.Data.List.Nodup
import Mathlib.Data.List.Basic
import Mathlib.Data.Finset.Card

/-!
# Linked chains of cells

A heap gives the record of every allocated cell, and a record links its cell
to the next one.  What a linked list needs of the heap is only where each
cell leads, so segments and chains are stated for such a function: a segment
leads from one pointer to another through the cells of a list, and a chain is
a segment that ends at the null pointer.  Loops that follow the links take as
much fuel as there are cells, which a chain never exhausts.
-/

namespace EsNotebook

variable {α β : Type*}

/-! ## Segments -/

/-- Following `nx` from the pointer `p` visits the cells of the list in order
and arrives at the pointer `q`. -/
def Seg (nx : α → Option (Option α)) : Option α → List α → Option α → Prop
  | p, [], q => p = q
  | p, a :: as, q => p = some a ∧ ∃ n, nx a = some n ∧ Seg nx n as q

/-- A segment that ends at the null pointer. -/
def Chain (nx : α → Option (Option α)) (p : Option α) (xs : List α) : Prop :=
  Seg nx p xs none

section Seg

variable {nx nx' : α → Option (Option α)} {p q : Option α} {a : α} {xs ys : List α}

@[simp] theorem seg_nil : Seg nx p [] q ↔ p = q := Iff.rfl

@[simp] theorem seg_cons :
    Seg nx p (a :: xs) q ↔ p = some a ∧ ∃ n, nx a = some n ∧ Seg nx n xs q := Iff.rfl

theorem seg_append :
    Seg nx p (xs ++ ys) q ↔ ∃ m, Seg nx p xs m ∧ Seg nx m ys q := by
  induction xs generalizing p with
  | nil => simp
  | cons x xs ih =>
      simp only [List.cons_append, seg_cons, ih]
      constructor
      · rintro ⟨hp, n, hn, m, hxs, hys⟩
        exact ⟨m, ⟨hp, n, hn, hxs⟩, hys⟩
      · rintro ⟨m, ⟨hp, n, hn, hxs⟩, hys⟩
        exact ⟨hp, n, hn, m, hxs, hys⟩

theorem chain_append :
    Chain nx p (xs ++ ys) ↔ ∃ m, Seg nx p xs m ∧ Chain nx m ys := seg_append

@[simp] theorem chain_nil : Chain nx p [] ↔ p = none := Iff.rfl

/-- Only the links of the visited cells matter. -/
theorem Seg.congr (h : Seg nx p xs q) (heq : ∀ a ∈ xs, nx' a = nx a) : Seg nx' p xs q := by
  induction xs generalizing p with
  | nil => exact h
  | cons x xs ih =>
      obtain ⟨hp, n, hn, hxs⟩ := h
      have hx : nx' x = some n := (heq x (by simp)).trans hn
      exact ⟨hp, n, hx, ih hxs fun a ha ↦ heq a (by simp [ha])⟩

theorem Chain.congr (h : Chain nx p xs) (heq : ∀ a ∈ xs, nx' a = nx a) : Chain nx' p xs :=
  Seg.congr h heq

theorem Seg.isSome_of_mem (h : Seg nx p xs q) (ha : a ∈ xs) : (nx a).isSome := by
  induction xs generalizing p with
  | nil => simp at ha
  | cons x xs ih =>
      obtain ⟨-, n, hn, hxs⟩ := h
      rcases List.mem_cons.mp ha with rfl | ha
      · simp [hn]
      · exact ih hxs ha

theorem Chain.unique (h : Chain nx p xs) (h' : Chain nx p ys) : xs = ys := by
  induction xs generalizing p ys with
  | nil =>
      cases ys with
      | nil => rfl
      | cons y ys =>
          obtain ⟨hp, -⟩ := h'
          cases (chain_nil.mp h).symm.trans hp
  | cons x xs ih =>
      obtain ⟨hp, n, hn, hxs⟩ := h
      cases ys with
      | nil => cases hp.symm.trans h'
      | cons y ys =>
          obtain ⟨hp', n', hn', hys⟩ := h'
          obtain rfl : x = y := Option.some.inj (hp.symm.trans hp')
          obtain rfl : n = n' := Option.some.inj (hn.symm.trans hn')
          rw [ih hxs hys]

/-- A chain from a visited cell is the rest of the list from there. -/
theorem Chain.exists_of_mem (h : Chain nx p xs) (ha : a ∈ xs) :
    ∃ pre post, xs = pre ++ a :: post ∧ Seg nx p pre (some a) ∧ Chain nx (some a) (a :: post) := by
  obtain ⟨pre, post, rfl⟩ := List.append_of_mem ha
  obtain ⟨m, hpre, hpost⟩ := chain_append.mp h
  obtain rfl := hpost.1
  exact ⟨pre, post, rfl, hpre, hpost⟩

/-- A chain ends, so it visits no cell twice. -/
theorem Chain.nodup (h : Chain nx p xs) : xs.Nodup := by
  induction xs generalizing p with
  | nil => exact List.nodup_nil
  | cons x xs ih =>
      have hcons := h
      obtain ⟨rfl, n, hn, hxs⟩ := h
      refine List.nodup_cons.mpr ⟨fun hx ↦ ?_, ih hxs⟩
      obtain ⟨pre, post, rfl, -, hpost⟩ := Chain.exists_of_mem hxs hx
      have hlen := congrArg List.length (hcons.unique hpost)
      simp at hlen
      omega

theorem Chain.eq_none_iff (h : Chain nx p xs) : p = none ↔ xs = [] := by
  cases xs with
  | nil => simpa using h
  | cons x xs => simp [h.1]

/-- Redirecting the cell before another one takes that one out. -/
theorem Chain.skip {y : α} (h : Chain nx p (xs ++ y :: a :: ys)) (hy : nx' y = nx a)
    (hne : ∀ b, b ≠ y → nx' b = nx b) : Chain nx' p (xs ++ y :: ys) := by
  have hnodup := h.nodup
  rw [List.nodup_append] at hnodup
  obtain ⟨-, hcons, hdisj⟩ := hnodup
  obtain ⟨m, hxs, hm, n, -, -, n', hn', hys⟩ := chain_append.mp h
  have hxs' : ∀ b ∈ xs, b ≠ y := fun b hb ↦ hdisj b hb y (by simp)
  have hys' : ∀ b ∈ ys, b ≠ y := by
    rintro b hb rfl
    simp [hb] at hcons
  refine chain_append.mpr ⟨m, hxs.congr fun b hb ↦ hne b (hxs' b hb), hm, n', hy.trans hn', ?_⟩
  exact Chain.congr hys fun b hb ↦ hne b (hys' b hb)

end Seg

/-! ## Heaps -/

/-- The allocated cells, each under its address. -/
structure Heap (α β : Type*) where
  cells : List (α × β)

namespace Heap

variable [DecidableEq α] {h : Heap α β} {a b : α} {r : β}

def get? (h : Heap α β) (a : α) : Option β := h.cells.lookup a

def size (h : Heap α β) : ℕ := h.cells.length

def alloc (h : Heap α β) (a : α) (r : β) : Heap α β := ⟨(a, r) :: h.cells⟩

def modify (h : Heap α β) (a : α) (f : β → β) : Heap α β :=
  ⟨h.cells.map fun c ↦ if c.1 = a then (c.1, f c.2) else c⟩

def free (h : Heap α β) (a : α) : Heap α β := ⟨h.cells.filter fun c ↦ c.1 ≠ a⟩

/-- A write through a pointer, which needs an allocated cell. -/
def store (h : Heap α β) (a : α) (f : β → β) : Option (Heap α β) :=
  (h.get? a).map fun _ ↦ h.modify a f

theorem get?_alloc_self : (h.alloc a r).get? a = some r := by
  simp [get?, alloc]

theorem get?_alloc_of_ne (hb : b ≠ a) : (h.alloc a r).get? b = h.get? b := by
  have hba : (b == a) = false := by simpa using hb
  simp [get?, alloc, List.lookup_cons, hba]

theorem get?_modify_self (f : β → β) : (h.modify a f).get? a = (h.get? a).map f := by
  obtain ⟨cells⟩ := h
  simp only [get?, modify]
  induction cells with
  | nil => simp
  | cons c cells ih =>
      obtain ⟨c, r⟩ := c
      by_cases hc : c = a
      · subst hc
        simp
      · have hac : (a == c) = false := by simpa using Ne.symm hc
        simpa [hc, List.lookup_cons, hac] using ih

theorem get?_modify_of_ne {f : β → β} (hb : b ≠ a) : (h.modify a f).get? b = h.get? b := by
  obtain ⟨cells⟩ := h
  simp only [get?, modify]
  induction cells with
  | nil => simp
  | cons c cells ih =>
      obtain ⟨c, r⟩ := c
      by_cases hc : c = a
      · subst hc
        have hbc : (b == c) = false := by simpa using hb
        simpa [List.lookup_cons, hbc] using ih
      · simp only [List.map_cons, hc, if_false, List.lookup_cons, ih]

theorem get?_modify (f : β → β) :
    (h.modify a f).get? b = if b = a then (h.get? a).map f else h.get? b := by
  by_cases hb : b = a
  · subst hb
    simp [get?_modify_self]
  · simp [hb, get?_modify_of_ne hb]

theorem get?_free_self : (h.free a).get? a = none := by
  rw [get?, free, List.lookup_eq_none_iff]
  intro c hc
  have hne : c.1 ≠ a := by simpa using (List.mem_filter.mp hc).2
  simpa using hne.symm

theorem get?_free_of_ne (hb : b ≠ a) : (h.free a).get? b = h.get? b := by
  obtain ⟨cells⟩ := h
  simp only [get?, free]
  induction cells with
  | nil => simp
  | cons c cells ih =>
      obtain ⟨c, r⟩ := c
      by_cases hc : c = a
      · subst hc
        have hbc : (b == c) = false := by simpa using hb
        simpa [List.lookup_cons, hbc] using ih
      · have hfilter : ((c, r) :: cells).filter (fun c ↦ c.1 ≠ a)
            = (c, r) :: cells.filter fun c ↦ c.1 ≠ a := by simp [hc]
        rw [hfilter, List.lookup_cons, ih, List.lookup_cons]

theorem mem_cells_of_get? (hr : h.get? a = some r) : a ∈ h.cells.map Prod.fst := by
  by_contra hmem
  have hnone : h.cells.lookup a = none := by
    rw [List.lookup_eq_none_iff]
    intro c hc
    have hne : a ≠ c.1 := fun heq ↦ hmem (heq ▸ List.mem_map_of_mem hc)
    simpa using hne
  rw [get?, hnone] at hr
  cases hr

theorem mem_cells_iff : a ∈ h.cells.map Prod.fst ↔ (h.get? a).isSome := by
  constructor
  · intro ha
    obtain ⟨c, hc, rfl⟩ := List.mem_map.mp ha
    rw [get?, Option.isSome_iff_ne_none]
    intro hnone
    have hne := List.lookup_eq_none_iff.mp hnone c hc
    simp at hne
  · intro ha
    obtain ⟨r, hr⟩ := Option.isSome_iff_exists.mp ha
    exact mem_cells_of_get? hr

/-- Distinct allocated cells are no more than the cells of the heap. -/
theorem length_le_size {xs : List α} (hnodup : xs.Nodup) (hxs : ∀ a ∈ xs, (h.get? a).isSome) :
    xs.length ≤ h.size := by
  have hsub : xs ⊆ h.cells.map Prod.fst := by
    intro a ha
    obtain ⟨r, hr⟩ := Option.isSome_iff_exists.mp (hxs a ha)
    exact mem_cells_of_get? hr
  calc xs.length ≤ (h.cells.map Prod.fst).length := (hnodup.subperm hsub).length_le
    _ = h.size := by simp [size]

/-! ## Chains in a heap -/

variable {link : β → Option α} {p : Option α} {xs : List α}

/-- Where the cell at an address leads. -/
def next (h : Heap α β) (link : β → Option α) (a : α) : Option (Option α) := (h.get? a).map link

theorem next_eq_some_iff {n : Option α} :
    h.next link a = some n ↔ ∃ r, h.get? a = some r ∧ link r = n := by
  simp [next]

theorem next_modify_of_ne {f : β → β} (hb : b ≠ a) :
    (h.modify a f).next link b = h.next link b := by
  simp [next, get?_modify_of_ne hb]

/-- A write that keeps the link of its cell keeps all links. -/
theorem next_modify_of_link {f : β → β} (hf : ∀ r, link (f r) = link r) :
    (h.modify a f).next link b = h.next link b := by
  rw [next, get?_modify]
  split
  · next hb =>
      subst hb
      cases hr : h.get? b <;> simp [next, hr, hf]
  · rfl

theorem length_le_size_of_chain (hc : Chain (h.next link) p xs) : xs.length ≤ h.size := by
  refine length_le_size hc.nodup fun a ha ↦ ?_
  simpa [next] using Seg.isSome_of_mem hc ha

theorem exists_get?_of_chain (hc : Chain (h.next link) p xs) (ha : a ∈ xs) :
    ∃ r, h.get? a = some r := by
  simpa [next, Option.isSome_iff_exists] using Seg.isSome_of_mem hc ha

end Heap

/-! ## Loops along the links -/

/-- Follow the links to the first cell where `stop` holds. -/
def seek (nx : α → Option (Option α)) (stop : α → Bool) : ℕ → Option α → Option (Option α)
  | 0, _ => none
  | _ + 1, none => some none
  | fuel + 1, some a =>
      if stop a then some (some a) else (nx a).bind (seek nx stop fuel)

theorem seek_of_chain {nx : α → Option (Option α)} {stop : α → Bool} {fuel : ℕ} {p : Option α}
    {xs : List α} (h : Chain nx p xs) (hfuel : xs.length < fuel) :
    seek nx stop fuel p = some (xs.find? stop) := by
  induction xs generalizing p fuel with
  | nil =>
      obtain rfl := chain_nil.mp h
      cases fuel with
      | zero => simp at hfuel
      | succ fuel => rfl
  | cons x xs ih =>
      obtain ⟨rfl, n, hn, hxs⟩ := h
      cases fuel with
      | zero => simp at hfuel
      | succ fuel =>
          have hrest := ih hxs (Nat.lt_of_succ_lt_succ hfuel)
          cases hx : stop x <;> simp [seek, hx, hn, hrest]

/-- Visit the cells along the links and rewrite each record. -/
def sweep [DecidableEq α] (link : β → Option α) (f : β → β) :
    ℕ → Option α → Heap α β → Option (Heap α β)
  | 0, _, _ => none
  | _ + 1, none, h => some h
  | fuel + 1, some a, h =>
      (h.get? a).bind fun r ↦ sweep link f fuel (link (f r)) (h.modify a f)

theorem sweep_of_chain [DecidableEq α] {link : β → Option α} {f : β → β}
    (hf : ∀ r, link (f r) = link r) {fuel : ℕ} {p : Option α} {h : Heap α β} {xs : List α}
    (hc : Chain (h.next link) p xs) (hfuel : xs.length < fuel) :
    ∃ h', sweep link f fuel p h = some h' ∧
      ∀ a, h'.get? a = if a ∈ xs then (h.get? a).map f else h.get? a := by
  induction xs generalizing p h fuel with
  | nil =>
      obtain rfl := chain_nil.mp hc
      cases fuel with
      | zero => simp at hfuel
      | succ fuel => exact ⟨h, rfl, by simp⟩
  | cons x xs ih =>
      have hnodup := List.nodup_cons.mp hc.nodup
      obtain ⟨rfl, n, hn, hxs⟩ := hc
      obtain ⟨r, hr, rfl⟩ := Heap.next_eq_some_iff.mp hn
      cases fuel with
      | zero => simp at hfuel
      | succ fuel =>
          have hxs' : Chain ((h.modify x f).next link) (link r) xs :=
            hxs.congr fun a _ ↦ Heap.next_modify_of_link hf
          obtain ⟨h', hsweep, hget⟩ := ih hxs' (Nat.lt_of_succ_lt_succ hfuel)
          refine ⟨h', by simpa [sweep, hr, hf] using hsweep, fun a ↦ ?_⟩
          rw [hget, Heap.get?_modify]
          by_cases hax : a = x
          · subst hax
            simp [hnodup.1]
          · simp [hax]

/-- Take the cell `a` out of the list at `head`: follow the links from `p`,
with `prev` the cell before, and redirect `prev` or the head when `a` comes. -/
def unlink [DecidableEq α] (link : β → Option α) (setLink : Option α → β → β) (a : α)
    (head : Option α) (h : Heap α β) :
    ℕ → Option α → Option α → Option (Option α × Heap α β)
  | 0, _, _ => none
  | _ + 1, none, _ => some (head, h)
  | fuel + 1, some x, prev =>
      (h.get? x).bind fun r ↦
        if x = a then
          match prev with
          | none => some (link r, h)
          | some y => (h.store y (setLink (link r))).map fun h' ↦ (head, h')
        else unlink link setLink a head h fuel (link r) (some x)

section unlink

variable [DecidableEq α] {link : β → Option α} {setLink : Option α → β → β} {a : α}
  {head : Option α} {h : Heap α β}

/-- The loop of `unlink` after the cells of `pre`, none of them `a`. -/
theorem unlink_of_seg (hset : ∀ n r, link (setLink n r) = n) {fuel : ℕ} {p : Option α}
    {pre post : List α} (hpre : Seg (h.next link) head pre p) (hpost : Chain (h.next link) p post)
    (ha : a ∉ pre) (hfuel : post.length < fuel) :
    ∃ head' h', unlink link setLink a head h fuel p pre.getLast? = some (head', h') ∧
      Chain (h'.next link) head' ((pre ++ post).erase a) ∧
      (h' = h ∨ ∃ y n, h' = h.modify y (setLink n)) := by
  induction post generalizing p pre fuel with
  | nil =>
      obtain rfl := chain_nil.mp hpost
      cases fuel with
      | zero => simp at hfuel
      | succ fuel =>
          refine ⟨head, h, rfl, ?_, .inl rfl⟩
          rw [List.append_nil, List.erase_of_not_mem ha]
          exact hpre
  | cons x post ih =>
      have hall : Chain (h.next link) head (pre ++ x :: post) := chain_append.mpr ⟨p, hpre, hpost⟩
      obtain ⟨rfl, n, hn, hpost'⟩ := hpost
      obtain ⟨r, hr, rfl⟩ := Heap.next_eq_some_iff.mp hn
      cases fuel with
      | zero => simp at hfuel
      | succ fuel =>
          by_cases hx : x = a
          · subst hx
            have herase : (pre ++ x :: post).erase x = pre ++ post := by
              rw [List.erase_append_right _ ha, List.erase_cons_head]
            rw [herase]
            rcases List.eq_nil_or_concat pre with rfl | ⟨pre, y, rfl⟩
            · exact ⟨link r, h, by simp [unlink, hr], hpost', .inl rfl⟩
            · rw [List.concat_eq_append] at *
              simp only [List.append_assoc, List.singleton_append] at hall ⊢
              obtain ⟨ry, hry⟩ := Heap.exists_get?_of_chain hall (a := y) (by simp)
              refine ⟨head, h.modify y (setLink (link r)), by simp [unlink, hr, Heap.store, hry],
                hall.skip ?_ fun b hb ↦ Heap.next_modify_of_ne hb, .inr ⟨y, link r, rfl⟩⟩
              simp [Heap.next, Heap.get?_modify_self, hry, hr, hset]
          · have hpre' : Seg (h.next link) head (pre ++ [x]) (link r) :=
              seg_append.mpr ⟨some x, hpre, rfl, link r, hn, rfl⟩
            obtain ⟨head', h', hrun, hchain, hframe⟩ :=
              ih hpre' hpost' (by simpa [ha] using Ne.symm hx) (Nat.lt_of_succ_lt_succ hfuel)
            refine ⟨head', h', ?_, by simpa using hchain, hframe⟩
            simpa [unlink, hr, hx] using hrun

theorem unlink_of_chain (hset : ∀ n r, link (setLink n r) = n) {fuel : ℕ} {xs : List α}
    (hc : Chain (h.next link) head xs) (hfuel : xs.length < fuel) :
    ∃ head' h', unlink link setLink a head h fuel head none = some (head', h') ∧
      Chain (h'.next link) head' (xs.erase a) ∧ (h' = h ∨ ∃ y n, h' = h.modify y (setLink n)) :=
  unlink_of_seg hset (seg_nil.mpr rfl) hc List.not_mem_nil hfuel

end unlink

end EsNotebook
