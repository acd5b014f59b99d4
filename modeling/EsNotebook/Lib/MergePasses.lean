import Mathlib.Data.List.Basic
import Mathlib.Data.List.Sort

/-!
# Merge sort from the bottom up

A pass merges the runs of `w` items two at a time, and the next pass takes
runs of `2 * w`, until a pass has made one run of everything.  Of two items
that compare equal the one from the earlier run is taken first, so the order
of ties is kept, and a stable sort is determined by its order: the passes
compute the merge sort of the standard library.
-/

namespace EsNotebook

variable {α β : Type*} {le : α → α → Bool} {w : ℕ} {xs ys : List α} {x y : α}

/-! ## Passes -/

/-- One pass over the list. -/
def mergePass (le : α → α → Bool) (w : ℕ) (xs : List α) : List α :=
  if xs = [] ∨ w = 0 then xs
  else (xs.take w).merge ((xs.drop w).take w) le ++ mergePass le w (xs.drop (2 * w))
termination_by xs.length
decreasing_by
  rename_i h
  rw [not_or] at h
  have hpos := List.length_pos_of_ne_nil h.1
  rw [List.length_drop]
  omega

@[simp] theorem mergePass_nil : mergePass le w [] = [] := by
  rw [mergePass]
  simp

theorem mergePass_of_ne_nil (hw : 0 < w) (hxs : xs ≠ []) :
    mergePass le w xs
      = (xs.take w).merge ((xs.drop w).take w) le ++ mergePass le w (xs.drop (2 * w)) := by
  rw [mergePass, if_neg (by simp [hxs, hw.ne'])]

theorem take_append_take_drop (w : ℕ) (xs : List α) :
    xs.take w ++ (xs.drop w).take w ++ xs.drop (2 * w) = xs := by
  have hdrop : xs.drop (2 * w) = (xs.drop w).drop w := by
    rw [List.drop_drop, Nat.two_mul]
  rw [hdrop, List.append_assoc, List.take_append_drop, List.take_append_drop]

/-- Induction over the pairs of runs. -/
theorem passInduction {P : List α → Prop} (hw : 0 < w) (hnil : P [])
    (hcons : ∀ xs, xs ≠ [] → P (xs.drop (2 * w)) → P xs) (xs : List α) : P xs := by
  induction hlen : xs.length using Nat.strong_induction_on generalizing xs with
  | _ n ih =>
      by_cases hxs : xs = []
      · exact hxs ▸ hnil
      · refine hcons xs hxs (ih _ ?_ _ rfl)
        have hpos := List.length_pos_of_ne_nil hxs
        rw [List.length_drop]
        omega

theorem mergePass_perm (hw : 0 < w) (xs : List α) : (mergePass le w xs).Perm xs := by
  refine passInduction (P := fun xs ↦ (mergePass le w xs).Perm xs) hw (by simp) ?_ xs
  intro xs hxs ih
  rw [mergePass_of_ne_nil hw hxs]
  have hmerge : ((xs.take w).merge ((xs.drop w).take w) le ++ mergePass le w (xs.drop (2 * w))).Perm
      (xs.take w ++ (xs.drop w).take w ++ xs.drop (2 * w)) := (List.merge_perm_append le).append ih
  rwa [take_append_take_drop] at hmerge

theorem length_mergePass (hw : 0 < w) (xs : List α) : (mergePass le w xs).length = xs.length :=
  (mergePass_perm hw xs).length_eq

/-- The passes with runs of `w`, `2 * w`, and so on. -/
def mergePasses (le : α → α → Bool) (w : ℕ) (xs : List α) : List α :=
  if w = 0 ∨ xs.length ≤ 2 * w then mergePass le w xs
  else mergePasses le (2 * w) (mergePass le w xs)
termination_by xs.length - w
decreasing_by
  rename_i h
  rw [not_or] at h
  rw [length_mergePass (Nat.pos_of_ne_zero h.1)]
  omega

theorem mergePasses_of_le (h : xs.length ≤ 2 * w) : mergePasses le w xs = mergePass le w xs := by
  rw [mergePasses, if_pos (.inr h)]

theorem mergePasses_of_lt (hw : 0 < w) (h : 2 * w < xs.length) :
    mergePasses le w xs = mergePasses le (2 * w) (mergePass le w xs) := by
  rw [mergePasses, if_neg (by omega)]

/-- Induction over the passes. -/
theorem passesInduction {P : ℕ → List α → Prop} (le : α → α → Bool)
    (hlast : ∀ w xs, 0 < w → xs.length ≤ 2 * w → P w xs)
    (hstep : ∀ w xs, 0 < w → 2 * w < xs.length → P (2 * w) (mergePass le w xs) → P w xs)
    (hw : 0 < w) (xs : List α) : P w xs := by
  induction hlen : xs.length - w using Nat.strong_induction_on generalizing w xs with
  | _ n ih =>
      by_cases hle : xs.length ≤ 2 * w
      · exact hlast w xs hw hle
      · have hlt : 2 * w < xs.length := Nat.lt_of_not_le hle
        refine hstep w xs hw hlt (ih _ ?_ (by omega) _ rfl)
        rw [length_mergePass hw]
        omega

theorem mergePasses_perm (hw : 0 < w) (xs : List α) : (mergePasses le w xs).Perm xs := by
  refine passesInduction (P := fun w xs ↦ (mergePasses le w xs).Perm xs) le ?_ ?_ hw xs
  · intro w xs hw hle
    rw [mergePasses_of_le hle]
    exact mergePass_perm hw xs
  · intro w xs hw hlt ih
    rw [mergePasses_of_lt hw hlt]
    exact ih.trans (mergePass_perm hw xs)

/-! ## Sorting what the items stand for -/

theorem map_mergePass {r : α → α → Bool} {s : β → β → Bool} {f : α → β} (hw : 0 < w)
    (h : ∀ a ∈ xs, ∀ b ∈ xs, r a b = s (f a) (f b)) :
    (mergePass r w xs).map f = mergePass s w (xs.map f) := by
  revert h
  refine passInduction (P := fun xs ↦ (∀ a ∈ xs, ∀ b ∈ xs, r a b = s (f a) (f b)) →
    (mergePass r w xs).map f = mergePass s w (xs.map f)) hw (by simp) ?_ xs
  intro xs hxs ih h
  have hmap : xs.map f ≠ [] := by simpa using hxs
  have hmerge : ((xs.take w).merge ((xs.drop w).take w) r).map f
      = ((xs.take w).map f).merge (((xs.drop w).take w).map f) s :=
    List.map_merge fun a ha b hb ↦
      h a (List.mem_of_mem_take ha) b (List.mem_of_mem_drop (List.mem_of_mem_take hb))
  rw [mergePass_of_ne_nil hw hxs, mergePass_of_ne_nil hw hmap, List.map_append, hmerge,
    ih fun a ha b hb ↦ h a (List.mem_of_mem_drop ha) b (List.mem_of_mem_drop hb)]
  simp only [List.map_take, List.map_drop]

theorem map_mergePasses {r : α → α → Bool} {s : β → β → Bool} {f : α → β} (hw : 0 < w)
    (h : ∀ a ∈ xs, ∀ b ∈ xs, r a b = s (f a) (f b)) :
    (mergePasses r w xs).map f = mergePasses s w (xs.map f) := by
  revert h
  refine passesInduction (P := fun w xs ↦ (∀ a ∈ xs, ∀ b ∈ xs, r a b = s (f a) (f b)) →
    (mergePasses r w xs).map f = mergePasses s w (xs.map f)) r ?_ ?_ hw xs
  · intro w xs hw hle h
    rw [mergePasses_of_le hle, mergePasses_of_le (by simpa using hle), map_mergePass hw h]
  · intro w xs hw hlt ih h
    have hmem : ∀ a ∈ mergePass r w xs, a ∈ xs := fun a ha ↦ (mergePass_perm hw xs).mem_iff.mp ha
    rw [mergePasses_of_lt hw hlt, mergePasses_of_lt hw (by simpa using hlt),
      ih fun a ha b hb ↦ h a (hmem a ha) b (hmem b hb), map_mergePass hw h]

/-! ## Stable sorts -/

/-- The items that compare equal to `x`. -/
def tiesWith (le : α → α → Bool) (x : α) (xs : List α) : List α :=
  xs.filter fun y ↦ le x y && le y x

theorem tiesWith_append : tiesWith le x (xs ++ ys) = tiesWith le x xs ++ tiesWith le x ys :=
  List.filter_append xs ys

theorem tiesWith_cons_of_ties (hxy : le x y = true) (hyx : le y x = true) :
    tiesWith le x (y :: xs) = y :: tiesWith le x xs := by
  simp [tiesWith, hxy, hyx]

theorem tiesWith_cons_of_not (h : ¬(le x y = true ∧ le y x = true)) :
    tiesWith le x (y :: xs) = tiesWith le x xs := by
  rw [tiesWith, List.filter_cons_of_neg (by simpa using h)]
  rfl

section Stable

variable (trans : ∀ a b c, le a b = true → le b c = true → le a c = true)
  (total : ∀ a b, (le a b || le b a) = true)
include trans total

/-- Merging sorted lists keeps the items that tie in order. -/
theorem tiesWith_merge (hxs : xs.Pairwise (le · ·)) (hys : ys.Pairwise (le · ·)) (z : α) :
    tiesWith le z (xs.merge ys le) = tiesWith le z xs ++ tiesWith le z ys := by
  induction xs generalizing ys with
  | nil => simp [tiesWith]
  | cons x xs ihx =>
      induction ys with
      | nil => simp [tiesWith]
      | cons y ys ihy =>
          have hys' := (List.pairwise_cons.mp hys).2
          by_cases hxy : le x y = true
          · have hrest := ihx (List.pairwise_cons.mp hxs).2 hys
            rw [List.cons_merge_cons_pos _ _ _ hxy]
            by_cases hz : le z x = true ∧ le x z = true
            · rw [tiesWith_cons_of_ties hz.1 hz.2, tiesWith_cons_of_ties hz.1 hz.2, hrest]
              rfl
            · rw [tiesWith_cons_of_not hz, tiesWith_cons_of_not hz, hrest]
          · rw [List.cons_merge_cons_neg _ _ _ hxy]
            by_cases hz : le z y = true ∧ le y z = true
            · -- nothing before `y` compares equal to it
              have hnone : tiesWith le z (x :: xs) = [] := by
                refine List.filter_eq_nil_iff.mpr fun a ha htie ↦ hxy ?_
                have hxa : le x a = true := by
                  rcases List.mem_cons.mp ha with rfl | ha
                  · simpa using total a a
                  · exact (List.pairwise_cons.mp hxs).1 a ha
                have haz : le a z = true := by simp at htie; exact htie.2
                exact trans x a y hxa (trans a z y haz hz.1)
              rw [tiesWith_cons_of_ties hz.1 hz.2, ihy hys', hnone,
                tiesWith_cons_of_ties hz.1 hz.2]
              rfl
            · rw [tiesWith_cons_of_not hz, tiesWith_cons_of_not hz, ihy hys']

omit trans in
/-- A list is determined by being sorted and by the order of the ties. -/
theorem eq_of_tiesWith (hxs : xs.Pairwise (le · ·)) (hys : ys.Pairwise (le · ·))
    (h : ∀ z, tiesWith le z xs = tiesWith le z ys) : xs = ys := by
  have hrefl : ∀ a, le a a = true := fun a ↦ by simpa using total a a
  have mem_of_mem : ∀ {us vs : List α}, (∀ z, tiesWith le z us = tiesWith le z vs) →
      ∀ a ∈ us, a ∈ vs := by
    intro us vs huv a ha
    have hmem : a ∈ tiesWith le a us := List.mem_filter.mpr ⟨ha, by simp [hrefl a]⟩
    exact (List.mem_filter.mp (huv a ▸ hmem)).1
  induction xs generalizing ys with
  | nil =>
      cases ys with
      | nil => rfl
      | cons y ys => exact absurd (mem_of_mem (fun z ↦ (h z).symm) y (by simp)) (by simp)
  | cons x xs ih =>
      cases ys with
      | nil => exact absurd (mem_of_mem h x (by simp)) (by simp)
      | cons y ys =>
          have hxcons := List.pairwise_cons.mp hxs
          have hycons := List.pairwise_cons.mp hys
          have hxy : le x y = true := by
            rcases List.mem_cons.mp (mem_of_mem (fun z ↦ (h z).symm) y (by simp)) with rfl | hy
            · exact hrefl y
            · exact hxcons.1 y hy
          have hyx : le y x = true := by
            rcases List.mem_cons.mp (mem_of_mem h x (by simp)) with rfl | hx
            · exact hrefl x
            · exact hycons.1 x hx
          have hhead := h x
          rw [tiesWith_cons_of_ties (hrefl x) (hrefl x), tiesWith_cons_of_ties hxy hyx] at hhead
          obtain rfl := (List.cons.inj hhead).1
          rw [ih hxcons.2 hycons.2]
          intro z
          have hz := h z
          by_cases htie : le z x = true ∧ le x z = true
          · rw [tiesWith_cons_of_ties htie.1 htie.2, tiesWith_cons_of_ties htie.1 htie.2] at hz
            exact (List.cons.inj hz).2
          · rwa [tiesWith_cons_of_not htie, tiesWith_cons_of_not htie] at hz

theorem tiesWith_mergeSort (z : α) : tiesWith le z (xs.mergeSort le) = tiesWith le z xs := by
  have hties : (tiesWith le z xs).Pairwise (le · ·) := by
    refine List.pairwise_of_forall_mem_list fun a ha b hb ↦ ?_
    have haz := (List.mem_filter.mp ha).2
    have hbz := (List.mem_filter.mp hb).2
    simp only [Bool.and_eq_true] at haz hbz
    exact trans a z b haz.2 hbz.1
  have hsub := List.sublist_mergeSort trans total hties List.filter_sublist
  have hfilter := hsub.filter fun y ↦ le z y && le y z
  rw [tiesWith, List.filter_filter] at hfilter
  simp only [Bool.and_self] at hfilter
  refine (hfilter.eq_of_length ?_).symm
  exact ((List.mergeSort_perm xs le).symm.filter _).length_eq

/-! ## Sorted runs -/

omit trans total in
/-- Each aligned run of `w` items is sorted. -/
def SortedRuns (le : α → α → Bool) (w : ℕ) (xs : List α) : Prop :=
  ∀ k, ((xs.drop (k * w)).take w).Pairwise (le · ·)

omit trans total in
theorem sortedRuns_one (xs : List α) : SortedRuns le 1 xs := by
  intro k
  have hlen : ((xs.drop (k * 1)).take 1).length ≤ 1 := by simp
  match (xs.drop (k * 1)).take 1, hlen with
  | [], _ => simp
  | [x], _ => simp

omit trans total in
theorem SortedRuns.pairwise (h : SortedRuns le w xs) (hle : xs.length ≤ w) :
    xs.Pairwise (le · ·) := by
  simpa [List.take_of_length_le hle] using h 0

omit trans total in
theorem SortedRuns.drop (h : SortedRuns le w xs) (n : ℕ) : SortedRuns le w (xs.drop (n * w)) := by
  intro k
  rw [List.drop_drop, ← Nat.add_mul]
  exact h (n + k)

theorem pairwise_merge_runs (h : SortedRuns le w xs) :
    ((xs.take w).merge ((xs.drop w).take w) le).Pairwise (le · ·) := by
  refine List.pairwise_merge trans total _ _ ?_ ?_
  · simpa using h 0
  · simpa using h 1

theorem sortedRuns_mergePass (hw : 0 < w) (h : SortedRuns le w xs) :
    SortedRuns le (2 * w) (mergePass le w xs) := by
  revert h
  refine passInduction (P := fun xs ↦ SortedRuns le w xs →
    SortedRuns le (2 * w) (mergePass le w xs)) hw (fun _ k ↦ by simp) ?_ xs
  intro xs hxs ih h k
  set A := (xs.take w).merge ((xs.drop w).take w) le with hA
  have hlen : A.length = min (2 * w) xs.length := by
    simp [hA]
    omega
  have hrest := ih (by simpa using h.drop 2)
  rw [mergePass_of_ne_nil hw hxs, ← hA]
  by_cases hshort : xs.length ≤ 2 * w
  · have hnil : mergePass le w (xs.drop (2 * w)) = [] := by
      rw [List.drop_eq_nil_of_le hshort, mergePass_nil]
    rw [hnil, List.append_nil]
    exact ((pairwise_merge_runs trans total h).sublist (List.drop_sublist _ _)).sublist
      (List.take_sublist _ _)
  · have hA' : A.length = 2 * w := by omega
    cases k with
    | zero =>
        rw [Nat.zero_mul, List.drop_zero, List.take_left' hA']
        exact pairwise_merge_runs trans total h
    | succ k =>
        have hdrop : (k + 1) * (2 * w) = 2 * w + k * (2 * w) := by
          rw [Nat.succ_mul, Nat.add_comm]
        rw [hdrop, ← List.drop_drop, List.drop_left' hA']
        exact hrest k

theorem tiesWith_mergePass (hw : 0 < w) (h : SortedRuns le w xs) (z : α) :
    tiesWith le z (mergePass le w xs) = tiesWith le z xs := by
  revert h
  refine passInduction (P := fun xs ↦ SortedRuns le w xs →
    tiesWith le z (mergePass le w xs) = tiesWith le z xs) hw (fun _ ↦ by simp) ?_ xs
  intro xs hxs ih h
  have hfst : (xs.take w).Pairwise (le · ·) := by simpa using h 0
  have hsnd : ((xs.drop w).take w).Pairwise (le · ·) := by simpa using h 1
  rw [mergePass_of_ne_nil hw hxs, tiesWith_append, tiesWith_merge trans total hfst hsnd,
    ih (by simpa using h.drop 2), ← tiesWith_append, ← tiesWith_append, take_append_take_drop]

/-- The passes sort, and they keep the order of the ties. -/
theorem pairwise_mergePasses (hw : 0 < w) (h : SortedRuns le w xs) :
    (mergePasses le w xs).Pairwise (le · ·) ∧
      ∀ z, tiesWith le z (mergePasses le w xs) = tiesWith le z xs := by
  revert h
  refine passesInduction (P := fun w xs ↦ SortedRuns le w xs →
    (mergePasses le w xs).Pairwise (le · ·) ∧
      ∀ z, tiesWith le z (mergePasses le w xs) = tiesWith le z xs) le ?_ ?_ hw xs
  · intro w xs hw hle h
    rw [mergePasses_of_le hle]
    have hruns := sortedRuns_mergePass trans total hw h
    exact ⟨hruns.pairwise (by rwa [length_mergePass hw]), tiesWith_mergePass trans total hw h⟩
  · intro w xs hw hlt ih h
    obtain ⟨hpairwise, hties⟩ := ih (sortedRuns_mergePass trans total hw h)
    rw [mergePasses_of_lt hw hlt]
    exact ⟨hpairwise, fun z ↦ (hties z).trans (tiesWith_mergePass trans total hw h z)⟩

theorem mergePasses_eq_mergeSort (xs : List α) : mergePasses le 1 xs = xs.mergeSort le := by
  obtain ⟨hpairwise, hties⟩ := pairwise_mergePasses trans total Nat.one_pos (sortedRuns_one xs)
  refine eq_of_tiesWith total hpairwise (List.pairwise_mergeSort trans total xs) fun z ↦ ?_
  rw [hties z, tiesWith_mergeSort trans total z]

end Stable

end EsNotebook
