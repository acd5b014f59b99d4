import EsNotebook.Lib.PyCalendar
import EsNotebook.Todo.Addressing

/-!
# Ways of entering a due date

`joblist_add` takes a number of days, a date, or nothing for today.  The first
and the last give a local date.  A typed date is compared, at midnight UTC,
with the current time, so that the same day may count as past.
-/

namespace EsNotebook.Todo

open Py

/-- The days from 1970/01/01 to the local date in `n` days. -/
def localDay (clock : Clock) (n : ℕ) : ℤ := (⌊clock.now⌋ + clock.offset) / 86400 + n

/-- The days from 1970/01/01 to 9999/12/31. -/
def lastDay : ℤ := 2932896

/-- The number `n`, the local date in `n` days and, for 0, the empty answer
are all accepted with this date. -/
def EntriesAgree (clock : Clock) (n : ℕ) : Prop :=
  ∃ date written, localtime clock.offset (clock.now + n * 24 * 3600) = some date ∧
    strftime '/' date = some written ∧
    (∀ test, isDigit test → parseInt test = some (n : ℤ) →
      addDate clock test = .ok (some date)) ∧
    addDate clock written = .ok (some date) ∧
    (n = 0 → addDate clock [] = .ok (some date))

variable {clock : Clock} {n : ℕ} {date : Date} {written test : Str}

/-! ## The three branches -/

theorem addDate_nil (h : clock.today.year ≤ 9999) : addDate clock [] = .ok (some clock.today) := by
  obtain ⟨today, hwritten, hread⟩ := strptime_strftime '/' clock.year_ge h
  simp only [addDate, if_true, hwritten, hread, orValueError, bind, Except.bind]

theorem addDate_of_isDigit (hdigit : isDigit test) (hvalue : parseInt test = some (n : ℤ))
    (hdate : localtime clock.offset (clock.now + n * 24 * 3600) = some date) :
    addDate clock test = .ok (some date) := by
  have hne : test ≠ [] := by
    rintro rfl
    cases hdigit
  simp only [addDate, if_neg hne, if_pos hdigit, hvalue, orValueError]
  have hdate' : localtime clock.offset (clock.now + ((n : ℤ) : ℚ) * 24 * 3600) = some date := by
    rwa [Int.cast_natCast]
  simp only [bind, Except.bind, hdate']

theorem not_isDigit_of_strftime (h : strftime '/' date = some written) :
    written ≠ [] ∧ ¬isDigit written := by
  obtain ⟨y, -, hs⟩ := Option.bind_eq_some_iff.mp h
  obtain rfl := Option.some.inj hs
  refine ⟨by simp, ?_⟩
  intro hdigit
  simp only [isDigit, Bool.and_eq_true, List.all_eq_true] at hdigit
  exact absurd (hdigit.2 '/' (by simp)) (by decide)

/-- A written date is accepted if its midnight in UTC is not past. -/
theorem addDate_written (h : strftime '/' date = some written) :
    addDate clock written = .ok (some date) ↔ strptime '/' written = some date ∧
      date.year ≤ 9999 ∧ clock.now ≤ (((date.ordinal : ℤ) - epochOrdinal) * 86400 : ℤ) := by
  obtain ⟨hne, hdigit⟩ := not_isDigit_of_strftime h
  unfold addDate
  rw [if_neg hne, if_neg hdigit]
  constructor
  · intro hadd
    obtain ⟨datenew, hread, hadd⟩ := bind_eq_ok_iff.mp hadd
    obtain ⟨jtime, htime, hadd⟩ := bind_eq_ok_iff.mp hadd
    rw [orValueError_eq_ok_iff] at hread htime
    split_ifs at hadd with hpast
    · cases hadd
    obtain rfl := Option.some.inj (Except.ok.inj hadd)
    unfold timegm at htime
    split_ifs at htime with hyear
    rw [← Option.some.inj htime] at hpast
    exact ⟨hread, hyear, not_lt.mp hpast⟩
  · rintro ⟨hread, hyear, hnow⟩
    simp only [hread, timegm, if_pos hyear, orValueError, bind, Except.bind,
      if_neg (not_lt.mpr hnow)]

/-! ## Local days -/

theorem floor_now_add (clock : Clock) (n : ℕ) :
    (⌊clock.now + n * 24 * 3600⌋ + clock.offset) / 86400 = localDay clock n := by
  have hseconds : clock.now + n * 24 * 3600 = clock.now + ((n * 86400 : ℕ) : ℚ) := by
    push_cast
    ring
  rw [hseconds, Int.floor_add_natCast, localDay]
  omega

theorem ordinal_today (clock : Clock) :
    (clock.today.ordinal : ℤ) = localDay clock 0 + epochOrdinal := by
  rw [ordinal_of_localtime clock.localtime_now, localDay]
  omega

/-- The date in `n` days, which is in no earlier year than today. -/
theorem ordinal_of_localDay
    (h : localtime clock.offset (clock.now + n * 24 * 3600) = some date) :
    (date.ordinal : ℤ) = localDay clock n + epochOrdinal ∧ 1900 ≤ date.year := by
  have hordinal := ordinal_of_localtime h
  rw [floor_now_add] at hordinal
  refine ⟨hordinal, ?_⟩
  by_contra hyear
  have hdate := Date.year_lt_iff.mp (Nat.lt_of_not_le hyear)
  have htoday := Date.year_lt_iff.not.mp (Nat.not_lt.mpr clock.year_ge)
  have hordinal₀ := ordinal_today clock
  unfold localDay at *
  omega

theorem daysBeforeYear_lastDay : (daysBeforeYear 10000 : ℤ) = lastDay + epochOrdinal := by decide

theorem year_le_iff_localDay (h : (date.ordinal : ℤ) = localDay clock n + epochOrdinal) :
    date.year ≤ 9999 ↔ localDay clock n ≤ lastDay := by
  have hyear : date.year ≤ 9999 ↔ date.ordinal ≤ daysBeforeYear 10000 :=
    Nat.lt_succ_iff.symm.trans Date.year_lt_iff
  have hlast := daysBeforeYear_lastDay
  omega

theorem exists_of_localDay_le (h : localDay clock n ≤ lastDay) :
    ∃ date, localtime clock.offset (clock.now + n * 24 * 3600) = some date ∧
      date.year ≤ 9999 := by
  have htoday := ordinal_today clock
  have hpos := clock.today.daysBeforeYear_lt_ordinal
  have hlast := daysBeforeYear_lastDay
  unfold localDay at *
  apply exists_localtime
  · rw [floor_now_add, localDay]
    omega
  · rw [floor_now_add, localDay]
    omega

theorem EntriesAgree.midnight (h : EntriesAgree clock n) :
    localDay clock n ≤ lastDay ∧ clock.now ≤ (localDay clock n * 86400 : ℤ) := by
  obtain ⟨date, written, hdate, hwritten, -, hadd, -⟩ := h
  obtain ⟨hordinal, -⟩ := ordinal_of_localDay hdate
  obtain ⟨-, hyear, hnow⟩ := (addDate_written hwritten).mp hadd
  rw [hordinal, add_sub_cancel_right] at hnow
  exact ⟨(year_le_iff_localDay hordinal).mp hyear, hnow⟩

theorem entriesAgree_of_midnight (hlast : localDay clock n ≤ lastDay)
    (hnow : clock.now ≤ (localDay clock n * 86400 : ℤ)) : EntriesAgree clock n := by
  obtain ⟨date, hdate, hyear⟩ := exists_of_localDay_le hlast
  obtain ⟨hordinal, hlow⟩ := ordinal_of_localDay hdate
  obtain ⟨written, hwritten, hread⟩ := strptime_strftime '/' hlow hyear
  refine ⟨date, written, hdate, hwritten, ?_, ?_, ?_⟩
  · intro test hdigit hvalue
    exact addDate_of_isDigit hdigit hvalue hdate
  · refine (addDate_written hwritten).mpr ⟨hread, hyear, ?_⟩
    rwa [hordinal, add_sub_cancel_right]
  · rintro rfl
    rw [Nat.cast_zero, zero_mul, zero_mul, add_zero, clock.localtime_now] at hdate
    obtain rfl := Option.some.inj hdate
    exact addDate_nil hyear

/-- From the day after tomorrow on the answers agree, with an offset of at most
a day to the west. -/
theorem entriesAgree_of_two_le (hn : 2 ≤ n) (hoffset : -86400 ≤ clock.offset)
    (hlast : localDay clock n ≤ lastDay) : EntriesAgree clock n := by
  apply entriesAgree_of_midnight hlast
  have hday : ⌊clock.now⌋ + 1 ≤ localDay clock n * 86400 := by
    unfold localDay
    omega
  have hnow := (Int.lt_floor_add_one clock.now).le
  exact hnow.trans (by exact_mod_cast hday)

/-- The answers agree exactly if midnight UTC of the local date is not past,
up to the last date with a year of four digits. -/
theorem entries_agree_iff (clock : Clock) (n : ℕ) :
    EntriesAgree clock n ↔
      localDay clock n ≤ lastDay ∧ clock.now ≤ (localDay clock n * 86400 : ℤ) :=
  ⟨fun h ↦ h.midnight, fun h ↦ entriesAgree_of_midnight h.1 h.2⟩

/-- At noon in UTC the date of today is past, but neither 0 nor nothing is. -/
theorem today_refused_at_noon : ¬∀ (clock : Clock) (n : ℕ), EntriesAgree clock n := by
  intro h
  have hnow := (h january 0).midnight.2
  have hday : localDay january 0 = 17542 := by decide +kernel
  rw [hday] at hnow
  exact absurd hnow (by decide +kernel)

end EsNotebook.Todo
