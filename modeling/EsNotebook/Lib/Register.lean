import EsNotebook.Lib.Lts
import Mathlib.Data.Set.Card

/-!
# Registers

A register holds entries under identifiers, and users reach some of them by
an address.  It may be extended by a fresh entry at a fresh address, and the
entry at an address may be changed; nothing else ever moves.
-/

namespace EsNotebook

structure Register (κ ι α : Type*) where
  entries : ι → Option α
  address : κ → Option ι

namespace Register

variable {κ ι α : Type*}

inductive Op (κ α : Type*) where
  | insert (a : α)
  | modify (k : κ) (f : α → α)

/-- The number of entries that `op` adds. -/
def Op.added : Op κ α → ℕ
  | .insert _ => 1
  | .modify _ _ => 0

/-- The identifiers in use. -/
def ids (r : Register κ ι α) : Set ι := {id | r.entries id ≠ none}

variable [DecidableEq κ] [DecidableEq ι]

/-- What an operation may do.  Nothing happens where nothing is addressed. -/
inductive Step : Register κ ι α → Op κ α → Register κ ι α → Prop
  | insert {r : Register κ ι α} {a : α} (id : ι) (k : κ) (hid : r.entries id = none)
      (hk : r.address k = none) :
      Step r (.insert a)
        ⟨Function.update r.entries id (some a), Function.update r.address k (some id)⟩
  | modify {r : Register κ ι α} {k : κ} {f : α → α} {id : ι} {a : α}
      (hk : r.address k = some id) (hid : r.entries id = some a) :
      Step r (.modify k f) ⟨Function.update r.entries id (some (f a)), r.address⟩
  | absent {r : Register κ ι α} {k : κ} {f : α → α} (hk : r.address k = none) :
      Step r (.modify k f) r

/-- The runs of a register that begin in `r₀`. -/
def system (r₀ : Register κ ι α) : Lts (Register κ ι α) (Op κ α) where
  init r := r = r₀
  step := Step

theorem Step.encard_ids {r r' : Register κ ι α} {op : Op κ α} (h : Step r op r') :
    r'.ids.encard = r.ids.encard + op.added := by
  cases h with
  | @insert a id k hid hk =>
      have hids : ids ⟨Function.update r.entries id (some a),
          Function.update r.address k (some id)⟩ = Insert.insert id r.ids := by
        ext id'
        by_cases h : id' = id <;> simp [ids, Function.update_apply, h]
      rw [hids, Set.encard_insert_of_notMem (by simp [ids, hid])]
      rfl
  | @modify k f id a hk hid =>
      have hids : ids ⟨Function.update r.entries id (some (f a)), r.address⟩ = r.ids := by
        ext id'
        by_cases h : id' = id <;> simp [ids, Function.update_apply, h, hid]
      rw [hids]
      exact (add_zero _).symm
  | absent hk => exact (add_zero _).symm

/-- A run adds exactly one entry for each insertion. -/
theorem run_encard_ids {r₀ r r' : Register κ ι α} {ops : List (Op κ α)}
    (h : (system r₀).Run r ops r') :
    r'.ids.encard = r.ids.encard + (ops.map Op.added).sum := by
  induction h with
  | nil => simp
  | @snoc ops r' r'' op _ hstep ih =>
      rw [Step.encard_ids hstep, ih, List.map_append, List.sum_append, List.map_singleton,
        List.sum_singleton, Nat.cast_add, add_assoc]

end Register

end EsNotebook
