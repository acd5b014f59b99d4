import Mathlib.Data.List.Nodup
import Mathlib.Data.List.Perm.Basic
import Mathlib.Logic.Function.Basic

/-!
# Packed arrays

The entries stand at the beginning of an array, without gaps: a new one goes
behind the others, and the last one takes the place of one that is removed.
An index finds each entry by its key.
-/

namespace EsNotebook

variable {ε κ : Type*} {xs ys : List ε} {x y last : ε} {m i k : ℕ}

/-- The last entry takes the place of the one at `m`. -/
def swapRemove (xs : List ε) (m : ℕ) : List ε :=
  match xs.getLast? with
  | none => []
  | some last => xs.dropLast.set m last

@[simp] theorem swapRemove_nil : swapRemove ([] : List ε) m = [] := rfl

theorem swapRemove_concat : swapRemove (xs ++ [x]) m = xs.set m x := by
  simp [swapRemove]

theorem length_swapRemove : (swapRemove xs m).length = xs.length - 1 := by
  rcases List.eq_nil_or_concat' xs with rfl | ⟨ys, x, rfl⟩
  · rfl
  · rw [swapRemove_concat, List.length_set, List.length_append, List.length_singleton,
      Nat.add_sub_cancel]

theorem cons_swapRemove_perm (hx : xs[m]? = some x) : (x :: swapRemove xs m).Perm xs := by
  rcases List.eq_nil_or_concat' xs with rfl | ⟨ys, last, rfl⟩
  · simp at hx
  rw [swapRemove_concat]
  by_cases hm : m < ys.length
  · obtain rfl : ys[m] = x := by
      rw [List.getElem?_append_left hm, List.getElem?_eq_getElem hm] at hx
      exact Option.some.inj hx
    calc (ys[m] :: ys.set m last).Perm (ys[m] :: last :: ys.eraseIdx m) :=
          (List.set_perm_cons_eraseIdx hm last).cons _
      _ |>.Perm (last :: ys[m] :: ys.eraseIdx m) := .swap _ _ _
      _ |>.Perm (last :: ys) := (List.getElem_cons_eraseIdx_perm hm).cons _
      _ |>.Perm (ys ++ [last]) := (List.perm_append_singleton last ys).symm
  · obtain rfl : x = last := by
      obtain ⟨hlt, rfl⟩ := List.getElem?_eq_some_iff.mp hx
      have hm' : m = ys.length := by
        rw [List.length_append, List.length_singleton] at hlt
        omega
      subst hm'
      exact List.getElem_concat_length rfl _
    rw [List.set_eq_of_length_le (Nat.le_of_not_lt hm)]
    exact (List.perm_append_singleton x ys).symm

/-- Behind a place that comes before the gap, the rest loses the entry. -/
theorem drop_swapRemove_of_le (hkm : k ≤ m) :
    (swapRemove xs m).drop k = swapRemove (xs.drop k) (m - k) := by
  rcases List.eq_nil_or_concat' xs with rfl | ⟨ys, last, rfl⟩
  · simp
  rw [swapRemove_concat]
  rcases Nat.le_or_ge k ys.length with hk | hk
  · rw [List.drop_append_of_le_length hk, swapRemove_concat, List.drop_set, if_neg (by omega)]
  · rw [List.drop_eq_nil_of_le (by simpa using hk)]
    rcases Nat.lt_or_ge ys.length k with hlt | hge
    · have hall : (ys ++ [last]).length ≤ k := by
        rw [List.length_append, List.length_singleton]
        exact hlt
      rw [List.drop_eq_nil_of_le hall, swapRemove_nil]
    · obtain rfl : k = ys.length := by omega
      rw [List.drop_left, ← List.nil_append [last], swapRemove_concat, List.set_nil]

/-- Behind the gap, the rest loses its last entry. -/
theorem drop_eq_append_last (hmk : m < k) (hk : k < xs.length) (hlast : xs.getLast? = some last) :
    xs.drop k = (swapRemove xs m).drop k ++ [last] := by
  obtain ⟨ys, rfl⟩ := List.getLast?_eq_some_iff.mp hlast
  rw [List.length_append, List.length_singleton] at hk
  rw [swapRemove_concat, List.drop_append_of_le_length (by omega), List.drop_set, if_pos hmk]

/-! ## The index -/

/-- The cells begin with the entries, and the index finds them. -/
structure Packed (key : ε → κ) (cells : List (Option ε)) (index : κ → Option ℕ) (xs : List ε) :
    Prop where
  cells : cells.take xs.length = xs.map some
  nodup : (xs.map key).Nodup
  index : ∀ i x, xs[i]? = some x → index (key x) = some i

namespace Packed

variable {key : ε → κ} {cells cells' : List (Option ε)} {index : κ → Option ℕ}

theorem nil : Packed key cells index [] where
  cells := by rw [List.length_nil, List.take_zero, List.map_nil]
  nodup := List.nodup_nil
  index i x h := by simp at h

theorem cell (h : Packed key cells index xs) (hx : xs[i]? = some x) :
    cells[i]? = some (some x) := by
  obtain ⟨hi, -⟩ := List.getElem?_eq_some_iff.mp hx
  rw [← List.getElem?_take_of_lt hi, h.cells, List.getElem?_map, hx, Option.map_some]

theorem length_le (h : Packed key cells index xs) : xs.length ≤ cells.length := by
  have hlen := congrArg List.length h.cells
  rw [List.length_take, List.length_map] at hlen
  omega

/-- The entries change, but not their keys. -/
theorem congr (h : Packed key cells index xs) (hcells : cells'.take ys.length = ys.map some)
    (hkeys : ys.map key = xs.map key) : Packed key cells' index ys where
  cells := hcells
  nodup := hkeys ▸ h.nodup
  index i y hy := by
    have hkey : (xs.map key)[i]? = some (key y) := by
      rw [← hkeys, List.getElem?_map, hy, Option.map_some]
    obtain ⟨x, hx, hxy⟩ := Option.map_eq_some_iff.mp (List.getElem?_map (f := key) ▸ hkey)
    rw [← hxy]
    exact h.index i x hx

theorem set (h : Packed key cells index xs) (hx : xs[i]? = some x) (hkey : key y = key x) :
    Packed key (cells.set i (some y)) index (xs.set i y) := by
  refine h.congr ?_ ?_
  · rw [List.length_set, List.take_set, h.cells, List.map_set]
  · rw [List.map_set, hkey]
    refine List.ext_getElem? fun j ↦ ?_
    rw [List.getElem?_set]
    split
    · next hij =>
        obtain ⟨hi, rfl⟩ := List.getElem?_eq_some_iff.mp hx
        rw [← hij, List.length_map, if_pos hi, List.getElem?_map, List.getElem?_eq_getElem hi,
          Option.map_some]
    · rfl

theorem set_beyond (h : Packed key cells index xs) (hi : xs.length ≤ i) (c : Option ε) :
    Packed key (cells.set i c) index xs := by
  refine h.congr ?_ rfl
  rw [List.take_set_of_le hi, h.cells]

variable [DecidableEq κ]

theorem push (h : Packed key cells index xs) (hroom : xs.length < cells.length)
    (hx : key x ∉ xs.map key) :
    Packed key (cells.set xs.length (some x)) (Function.update index (key x) (some xs.length))
      (xs ++ [x]) where
  cells := by
    rw [List.length_append, List.length_singleton, List.take_add_one,
      List.take_set_of_le (Nat.le_refl _), h.cells, List.getElem?_set_self hroom, List.map_append]
    rfl
  nodup := by
    rw [List.map_append]
    exact List.nodup_append.mpr ⟨h.nodup, List.nodup_singleton _, fun a ha b hb hab ↦
      hx (List.mem_singleton.mp hb ▸ hab ▸ ha)⟩
  index i y hy := by
    rcases Nat.lt_or_ge i xs.length with hi | hi
    · rw [List.getElem?_append_left hi] at hy
      have hne : key y ≠ key x := fun heq ↦
        hx (heq ▸ List.mem_map_of_mem (List.mem_of_getElem? hy))
      rw [Function.update_of_ne hne]
      exact h.index i y hy
    · obtain ⟨hlt, rfl⟩ := List.getElem?_eq_some_iff.mp hy
      obtain rfl : i = xs.length := by
        rw [List.length_append, List.length_singleton] at hlt
        omega
      rw [List.getElem_concat_length rfl, Function.update_self]

theorem swapRemove (h : Packed key cells index xs) (hm : m < xs.length)
    (hlast : xs.getLast? = some last) :
    Packed key (cells.set m (some last)) (Function.update index (key last) (some m))
      (swapRemove xs m) := by
  have hperm := cons_swapRemove_perm (List.getElem?_eq_getElem hm)
  obtain ⟨ys, rfl⟩ := List.getLast?_eq_some_iff.mp hlast
  rw [swapRemove_concat] at hperm ⊢
  have hcells : cells.take ys.length = ys.map some := by
    have htake := congrArg (List.take ys.length) h.cells
    rw [List.take_take, List.length_append, Nat.min_eq_left (Nat.le_add_right _ _),
      List.map_append] at htake
    rw [htake]
    exact List.take_left' (List.length_map _)
  refine ⟨?_, ?_, fun i y hy ↦ ?_⟩
  · rw [List.length_set, List.take_set, hcells, List.map_set]
  · exact (((hperm.map key).nodup_iff.mpr h.nodup).of_cons)
  · have hnotMem : key last ∉ ys.map key := by
      have hnodup := h.nodup
      rw [List.map_append] at hnodup
      exact fun hmem ↦ (List.nodup_append.mp hnodup).2.2 _ hmem _ (List.mem_singleton_self _) rfl
    rw [List.getElem?_set] at hy
    split at hy
    · next hmi =>
        split at hy
        · obtain rfl := Option.some.inj hy
          rw [Function.update_self, hmi]
        · cases hy
    · obtain ⟨hi, -⟩ := List.getElem?_eq_some_iff.mp hy
      have hne : key y ≠ key last := fun heq ↦
        hnotMem (heq ▸ List.mem_map_of_mem (List.mem_of_getElem? hy))
      rw [Function.update_of_ne hne]
      exact h.index i y (by rwa [List.getElem?_append_left hi])

end Packed

end EsNotebook
