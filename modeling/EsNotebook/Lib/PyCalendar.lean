import EsNotebook.Lib.PyTime

/-!
# Days and dates

Every ordinal from 1 on is the ordinal of a date.  Years and months are found
as the greatest ones that begin before the day, among numbers that count the
days before them.
-/

namespace EsNotebook.Py

def daysInYear (y : ℕ) : ℕ := if isLeap y then 366 else 365

theorem daysBeforeYear_succ {y : ℕ} (hy : 1 ≤ y) :
    daysBeforeYear (y + 1) = daysBeforeYear y + daysInYear y := by
  obtain ⟨k, rfl⟩ := Nat.exists_eq_add_of_le' hy
  have hdiv (b : ℕ) : (k + 1) / b = k / b + if (k + 1) % b = 0 then 1 else 0 := by
    simp only [Nat.succ_div, Nat.dvd_iff_mod_eq_zero]
  have hle : k / 100 ≤ k / 4 := Nat.div_le_div_left (by decide) (by decide)
  simp only [daysBeforeYear, daysInYear, isLeap, Nat.add_sub_cancel, hdiv, decide_eq_true_eq]
  by_cases h4 : (k + 1) % 4 = 0
  · by_cases h100 : (k + 1) % 100 = 0
    · by_cases h400 : (k + 1) % 400 = 0
      · simp only [h4, h100, h400, if_true, or_true, and_self]
        omega
      · simp only [h4, h100, h400, if_true, if_false, ne_eq, not_true, or_self, and_false]
        omega
    · have h400 : (k + 1) % 400 ≠ 0 := by omega
      simp only [h4, h100, h400, if_true, if_false, ne_eq, not_false_iff, true_or, and_self]
      omega
  · have h100 : (k + 1) % 100 ≠ 0 := by omega
    have h400 : (k + 1) % 400 ≠ 0 := by omega
    simp only [h4, h100, h400, if_false, false_and]
    omega

theorem daysBeforeYear_mono : Monotone daysBeforeYear := by
  apply monotone_nat_of_le_succ
  intro y
  unfold daysBeforeYear
  omega

theorem daysBeforeMonth_succ (y : ℕ) {m : ℕ} (hm : 1 ≤ m) :
    daysBeforeMonth y (m + 1) = daysBeforeMonth y m + daysInMonth y m := by
  obtain ⟨k, rfl⟩ := Nat.exists_eq_add_of_le' hm
  simp [daysBeforeMonth, List.range'_concat, Nat.add_comm]

theorem daysBeforeMonth_mono (y : ℕ) : Monotone (daysBeforeMonth y) := by
  apply monotone_nat_of_le_succ
  intro m
  cases m with
  | zero => exact le_rfl
  | succ m =>
      rw [daysBeforeMonth_succ y (Nat.le_add_left 1 m)]
      exact Nat.le_add_right _ _

theorem daysBeforeMonth_thirteen (y : ℕ) : daysBeforeMonth y 13 = daysInYear y := by
  cases h : isLeap y <;> simp [daysBeforeMonth, daysInYear, daysInMonth, h, List.range']

namespace Date

theorem ordinal_le (d : Date) : d.ordinal ≤ daysBeforeYear (d.year + 1) := by
  have hmonth : daysBeforeMonth d.year (d.month + 1) ≤ daysInYear d.year := by
    rw [← daysBeforeMonth_thirteen]
    exact daysBeforeMonth_mono d.year (Nat.succ_le_succ d.month_le)
  rw [daysBeforeMonth_succ d.year d.month_pos] at hmonth
  have hday := d.day_le
  rw [ordinal, daysBeforeYear_succ d.year_pos]
  omega

theorem daysBeforeYear_lt_ordinal (d : Date) : daysBeforeYear d.year < d.ordinal := by
  have hday := d.day_pos
  rw [ordinal]
  omega

theorem year_lt_iff {d : Date} {y : ℕ} : d.year < y ↔ d.ordinal ≤ daysBeforeYear y := by
  constructor
  · intro h
    exact d.ordinal_le.trans (daysBeforeYear_mono h)
  · intro h
    by_contra hge
    have hle := daysBeforeYear_mono (Nat.le_of_not_lt hge)
    have hlt := d.daysBeforeYear_lt_ordinal
    omega

end Date

theorem findGreatest_lt {f : ℕ → ℕ} {n a k : ℕ} (ha : f a < n) (hak : a ≤ k) :
    ∃ m, Nat.findGreatest (fun m ↦ f m < n) k = m ∧ a ≤ m ∧ m ≤ k ∧ f m < n ∧
      (m < k → n ≤ f (m + 1)) := by
  refine ⟨_, rfl, Nat.le_findGreatest hak ha, Nat.findGreatest_le k,
    Nat.findGreatest_spec (P := fun m ↦ f m < n) hak ha, ?_⟩
  intro hlt
  apply Nat.le_of_not_lt
  exact Nat.findGreatest_is_greatest (P := fun m ↦ f m < n) (Nat.lt_succ_self _) hlt

theorem exists_ofOrdinal {n : ℕ} (hn : 1 ≤ n) :
    ∃ d, Date.ofOrdinal n = some d ∧ d.ordinal = n := by
  -- the year
  obtain ⟨y, hyear, hy, -, hylt, hynext⟩ :=
    findGreatest_lt (f := daysBeforeYear) (n := n) (a := 1) (k := n / 365 + 1) hn (by omega)
  have hyle : n ≤ daysBeforeYear y + daysInYear y := by
    rw [← daysBeforeYear_succ hy]
    by_cases hlast : y < n / 365 + 1
    · exact hynext hlast
    · have hlong : 365 * y ≤ daysBeforeYear (y + 1) := by
        unfold daysBeforeYear
        omega
      omega
  -- the month
  obtain ⟨m, hmonth, hm, hm12, hmlt, hmnext⟩ :=
    findGreatest_lt (f := daysBeforeMonth y) (n := n - daysBeforeYear y) (a := 1) (k := 12)
      (Nat.sub_pos_of_lt hylt) (by decide)
  have hmle : n - daysBeforeYear y ≤ daysBeforeMonth y m + daysInMonth y m := by
    rw [← daysBeforeMonth_succ y hm]
    by_cases hlast : m < 12
    · exact hmnext hlast
    · obtain rfl : m = 12 := by omega
      rw [daysBeforeMonth_thirteen]
      omega
  refine ⟨⟨y, m, n - daysBeforeYear y - daysBeforeMonth y m, hy, hm, hm12, by omega, by omega⟩,
    ?_, ?_⟩
  · simp only [Date.ofOrdinal, hyear, hmonth]
    exact Date.of?_self ⟨y, m, _, _, _, _, _, _⟩
  · simp only [Date.ordinal]
    omega

theorem ordinal_ofOrdinal {n : ℕ} {d : Date} (h : Date.ofOrdinal n = some d) : d.ordinal = n := by
  cases n with
  | zero => cases h
  | succ n =>
      obtain ⟨d', hd', hordinal⟩ := exists_ofOrdinal (Nat.le_add_left 1 n)
      rw [h] at hd'
      rw [Option.some.inj hd', hordinal]

theorem ordinal_of_localtime {offset : ℤ} {t : ℚ} {d : Date} (h : localtime offset t = some d) :
    (d.ordinal : ℤ) = (⌊t⌋ + offset) / 86400 + epochOrdinal := by
  have hordinal := ordinal_ofOrdinal (Option.filter_eq_some_iff.mp h).1
  have hpos := d.daysBeforeYear_lt_ordinal
  omega

theorem exists_localtime {offset : ℤ} {t : ℚ} (hlow : 1 ≤ (⌊t⌋ + offset) / 86400 + epochOrdinal)
    (hhigh : (⌊t⌋ + offset) / 86400 + epochOrdinal ≤ daysBeforeYear 10000) :
    ∃ d, localtime offset t = some d ∧ d.year ≤ 9999 := by
  obtain ⟨d, hd, hordinal⟩ :=
    exists_ofOrdinal (n := ((⌊t⌋ + offset) / 86400 + epochOrdinal).toNat) (by omega)
  have hyear : d.year ≤ 9999 := by
    apply Nat.le_of_lt_succ
    apply Date.year_lt_iff.mpr
    show d.ordinal ≤ daysBeforeYear 10000
    omega
  refine ⟨d, ?_, hyear⟩
  apply Option.filter_eq_some_iff.mpr
  exact ⟨hd, by simp; omega⟩

end EsNotebook.Py
