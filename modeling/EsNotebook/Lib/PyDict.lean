import Mathlib.Data.List.Lex
import Mathlib.Data.List.Sort
import Mathlib.Data.Prod.Lex
import Mathlib.Order.MinMax

/-!
# Comparing dicts of Python 2

Dicts are ordered by length, then by the smallest key at which they differ,
then by the values at these keys.  On dicts with the same keys this is the
lexicographic order of the values, taken in the order of the keys.
-/

namespace EsNotebook.Py

variable {κ ν : Type*} [LinearOrder κ] [LinearOrder ν]

/-- The smallest key of `a` that `b` does not have or has with another value. -/
def characterize (a b : List (κ × ν)) : Option κ :=
  ((a.filter fun item ↦ b.lookup item.1 ≠ some item.2).map Prod.fst).min?

/-- `a < b`, for lists of items with distinct keys. -/
def dictLt (a b : List (κ × ν)) : Bool :=
  if a.length = b.length then
    match characterize a b, characterize b a with
    | some ka, some kb =>
        if ka = kb then
          match a.lookup ka, b.lookup kb with
          | some va, some vb => va < vb
          | _, _ => false
        else ka < kb
    | _, _ => false
  else a.length < b.length

omit [LinearOrder ν] in
theorem lookup_cons_of_lt {k k' : κ} {v : ν} {items : List (κ × ν)} (h : k < k') :
    ((k, v) :: items).lookup k' = items.lookup k' := by
  rw [List.lookup_cons, beq_false_of_ne h.ne']

theorem characterize_cons_eq {k : κ} {v : ν} {a b : List (κ × ν)} (h : ∀ x ∈ a, k < x.1) :
    characterize ((k, v) :: a) ((k, v) :: b) = characterize a b := by
  unfold characterize
  rw [List.filter_cons_of_neg (by simp)]
  congr 2
  apply List.filter_congr
  intro x hx
  rw [lookup_cons_of_lt (h x hx)]

theorem characterize_cons_ne {k : κ} {v w : ν} {a b : List (κ × ν)} (h : ∀ x ∈ a, k < x.1)
    (hne : v ≠ w) : characterize ((k, v) :: a) ((k, w) :: b) = some k := by
  unfold characterize
  rw [List.filter_cons_of_pos (by simpa using hne.symm), List.map_cons]
  apply List.min?_eq_some_iff.mpr
  refine ⟨by simp, ?_⟩
  intro k' hk'
  rcases List.mem_cons.mp hk' with rfl | hk'
  · exact le_rfl
  · obtain ⟨x, hx, rfl⟩ := List.mem_map.mp hk'
    exact (h x (List.mem_of_mem_filter hx)).le

theorem exists_of_characterize {a b : List (κ × ν)} {k : κ} (h : characterize a b = some k) :
    ∃ x ∈ a, x.1 = k := by
  obtain ⟨x, hx, hk⟩ := List.mem_map.mp (List.min?_mem h)
  exact ⟨x, List.mem_of_mem_filter hx, hk⟩

theorem dictLt_cons_eq {k : κ} {v : ν} {a b : List (κ × ν)} (ha : ∀ x ∈ a, k < x.1)
    (hb : ∀ x ∈ b, k < x.1) : dictLt ((k, v) :: a) ((k, v) :: b) = dictLt a b := by
  unfold dictLt
  rw [characterize_cons_eq ha, characterize_cons_eq hb]
  simp only [List.length_cons, Nat.add_right_cancel_iff, Nat.add_lt_add_iff_right]
  split_ifs
  · cases hka : characterize a b with
    | none => rfl
    | some ka =>
        cases hkb : characterize b a with
        | none => rfl
        | some kb =>
            obtain ⟨x, hx, rfl⟩ := exists_of_characterize hka
            obtain ⟨y, hy, rfl⟩ := exists_of_characterize hkb
            simp only [lookup_cons_of_lt (ha x hx), lookup_cons_of_lt (hb y hy)]
  · rfl

/-- On dicts with the same keys, the order of the values. -/
theorem dictLt_iff_of_keys_eq {a b : List (κ × ν)} (hkeys : a.map Prod.fst = b.map Prod.fst)
    (hsorted : (a.map Prod.fst).Pairwise (· < ·)) :
    dictLt a b ↔ a.map Prod.snd < b.map Prod.snd := by
  induction a generalizing b with
  | nil =>
      obtain rfl : b = [] := by simpa using hkeys.symm
      simp [dictLt, characterize]
  | cons x a ih =>
      obtain ⟨k, v⟩ := x
      cases b with
      | nil => simp at hkeys
      | cons y b =>
          obtain ⟨k', w⟩ := y
          simp only [List.map_cons, List.cons.injEq] at hkeys
          obtain ⟨rfl, hkeys⟩ := hkeys
          rw [List.map_cons, List.pairwise_cons] at hsorted
          have hlen : a.length = b.length := by simpa using congrArg List.length hkeys
          have ha : ∀ x ∈ a, k < x.1 := fun x hx ↦ hsorted.1 _ (List.mem_map_of_mem hx)
          have hb : ∀ x ∈ b, k < x.1 := by
            intro x hx
            apply hsorted.1
            rw [hkeys]
            exact List.mem_map_of_mem hx
          rw [List.map_cons, List.map_cons, List.cons_lt_cons_iff]
          by_cases hvw : v = w
          · subst hvw
            simpa [dictLt_cons_eq ha hb] using ih hkeys hsorted.2
          · simp [dictLt, hlen, characterize_cons_ne ha hvw,
              characterize_cons_ne hb (Ne.symm hvw), hvw]

end EsNotebook.Py
