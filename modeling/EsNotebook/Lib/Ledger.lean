import Mathlib.Data.Multiset.Range
import Mathlib.Algebra.BigOperators.Group.List.Basic
import Mathlib.Algebra.Order.Group.Multiset
import Mathlib.Tactic.Abel

/-!
# Ownership ledgers

A ledger records what a program allocates and frees: the blocks in the order
of their allocation, each named by its position and carrying a label, and the
names passed to `free` in order.  The books are balanced when every allocated
block is in exactly one place: it has been freed, or it is held by someone who
will free it, or it is lost.  Each operation of a program then moves blocks
between these places.
-/

namespace EsNotebook

/-- The allocations and the frees so far. -/
structure Ledger (α : Type*) where
  blocks : List α
  frees : List ℕ

namespace Ledger

variable {α : Type*} {L : Ledger α} {held lost : Multiset ℕ} {b : ℕ}

def empty : Ledger α := { blocks := [], frees := [] }

/-- The name of the block that is allocated next. -/
def next (L : Ledger α) : ℕ := L.blocks.length

def malloc (L : Ledger α) (a : α) : Ledger α := { L with blocks := L.blocks ++ [a] }

/-- A second `free` of a block is recorded like the first. -/
def free (L : Ledger α) (b : ℕ) : Ledger α := { L with frees := L.frees ++ [b] }

@[simp] theorem next_malloc (a : α) : (L.malloc a).next = L.next + 1 := by simp [next, malloc]

@[simp] theorem blocks_free : (L.free b).blocks = L.blocks := rfl

theorem getElem?_malloc_next (a : α) : (L.malloc a).blocks[L.next]? = some a := by
  simp [malloc, next]

/-- Labels are for life. -/
theorem getElem?_malloc {a a' : α} (h : L.blocks[b]? = some a') :
    (L.malloc a).blocks[b]? = some a' := by
  obtain ⟨hlt, -⟩ := List.getElem?_eq_some_iff.mp h
  rwa [malloc, List.getElem?_append_left hlt]

/-- Every allocated block is freed, held or lost, and only one of these. -/
def Balanced (L : Ledger α) (held lost : Multiset ℕ) : Prop :=
  (L.frees : Multiset ℕ) + held + lost = Multiset.range L.next

theorem Balanced.empty : (empty : Ledger α).Balanced 0 0 := by
  simp [Balanced, Ledger.empty, next]

theorem Balanced.malloc (h : L.Balanced held lost) (a : α) :
    (L.malloc a).Balanced (L.next ::ₘ held) lost := by
  have hsum : (L.frees : Multiset ℕ) + (L.next ::ₘ held) + lost = L.next ::ₘ
      ((L.frees : Multiset ℕ) + held + lost) := by
    rw [Multiset.add_cons, Multiset.cons_add]
  rw [Balanced, next_malloc, Multiset.range_succ, ← h]
  exact hsum

theorem Balanced.free (h : L.Balanced (b ::ₘ held) lost) : (L.free b).Balanced held lost := by
  have hfrees : ((L.free b).frees : Multiset ℕ) = b ::ₘ (L.frees : Multiset ℕ) := by
    rw [Multiset.cons_coe, Multiset.coe_eq_coe]
    exact List.perm_append_singleton b L.frees
  have hnext : (L.free b).next = L.next := rfl
  rw [Balanced, hfrees, hnext, ← h, Multiset.cons_add, Multiset.add_cons]

/-- What nobody will free any more is lost. -/
theorem Balanced.lose {gone : Multiset ℕ} (h : L.Balanced (gone + held) lost) :
    L.Balanced held (gone + lost) := by
  rw [Balanced, ← h]
  abel

/-- With balanced books nothing has been freed twice. -/
theorem Balanced.nodup_frees (h : L.Balanced held lost) : L.frees.Nodup := by
  have hall : ((L.frees : Multiset ℕ) + held + lost).Nodup := by
    rw [h]
    exact Multiset.nodup_range _
  rw [Multiset.nodup_add, Multiset.nodup_add] at hall
  exact Multiset.coe_nodup.mp hall.1.1

theorem Balanced.cases (h : L.Balanced held lost) {a : α} (hb : L.blocks[b]? = some a) :
    b ∈ L.frees ∨ b ∈ held ∨ b ∈ lost := by
  obtain ⟨hlt, -⟩ := List.getElem?_eq_some_iff.mp hb
  have hmem : b ∈ (L.frees : Multiset ℕ) + held + lost := by
    rw [h]
    exact Multiset.mem_range.mpr hlt
  simpa only [Multiset.mem_add, Multiset.mem_coe, or_assoc] using hmem

/-! ## Holdings of several parties -/

/-- What the parties of a list hold together. -/
def holdings {κ : Type*} (held : κ → Multiset ℕ) (ks : List κ) : Multiset ℕ :=
  (ks.map held).sum

section holdings

variable {κ : Type*} {held : κ → Multiset ℕ} {ks : List κ}

theorem holdings_append_singleton (k : κ) :
    holdings held (ks ++ [k]) = held k + holdings held ks := by
  simp [holdings, add_comm]

/-- A party that leaves takes its holding along. -/
theorem holdings_eraseIdx {i : ℕ} {k : κ} (h : ks[i]? = some k) :
    holdings held ks = held k + holdings held (ks.eraseIdx i) := by
  obtain ⟨hlt, rfl⟩ := List.getElem?_eq_some_iff.mp h
  have hperm := (List.getElem_cons_eraseIdx_perm hlt).map held
  rw [holdings, ← hperm.sum_eq, List.map_cons, List.sum_cons, holdings]

theorem mem_holdings {b : ℕ} :
    b ∈ holdings held ks ↔ ∃ (c : ℕ) (k : κ), ks[c]? = some k ∧ b ∈ held k := by
  induction ks with
  | nil => simp [holdings]
  | cons k ks ih =>
      have hcons : holdings held (k :: ks) = held k + holdings held ks := by simp [holdings]
      rw [hcons, Multiset.mem_add, ih]
      constructor
      · rintro (h | ⟨c, k', hk', h⟩)
        · exact ⟨0, k, rfl, h⟩
        · exact ⟨c + 1, k', hk', h⟩
      · rintro ⟨c, k', hk', h⟩
        cases c with
        | zero =>
            obtain rfl : k = k' := by simpa using hk'
            exact .inl h
        | succ c => exact .inr ⟨c, k', hk', h⟩

/-- One party's holding can be looked at and replaced. -/
theorem exists_holdings_set (held : κ → Multiset ℕ) {c : ℕ} {k : κ} (h : ks[c]? = some k) :
    ∃ rest, holdings held ks = held k + rest ∧
      ∀ k', holdings held (ks.set c k') = held k' + rest := by
  induction ks generalizing c with
  | nil => simp at h
  | cons k₀ ks ih =>
      cases c with
      | zero =>
          obtain rfl : k₀ = k := by simpa using h
          exact ⟨holdings held ks, by simp [holdings], fun k' ↦ by simp [holdings]⟩
      | succ c =>
          obtain ⟨rest, heq, hset⟩ := ih (by simpa using h)
          refine ⟨held k₀ + rest, ?_, fun k' ↦ ?_⟩
          · calc holdings held (k₀ :: ks) = held k₀ + holdings held ks := by simp [holdings]
              _ = held k₀ + (held k + rest) := by rw [heq]
              _ = held k + (held k₀ + rest) := by abel
          · calc holdings held ((k₀ :: ks).set (c + 1) k')
                = held k₀ + holdings held (ks.set c k') := by simp [holdings]
              _ = held k₀ + (held k' + rest) := by rw [hset]
              _ = held k' + (held k₀ + rest) := by abel

end holdings

end Ledger

end EsNotebook
