import EsNotebook.Lib.PyCalendar
import Mathlib.Data.List.Lex

/-!
# Dates with leading zeros

A date written with four, two and two digits, as timestamps of RFC 3339 begin.
Such texts are ordered like the dates.
-/

namespace EsNotebook.Py

/-- `yyyy-mm-dd` -/
def fullDate (d : Date) : Str :=
  twoDigits (d.year / 100) ++ twoDigits (d.year % 100) ++ ['-'] ++ twoDigits d.month ++ ['-'] ++
    twoDigits d.day

@[simp] theorem length_fullDate (d : Date) : (fullDate d).length = 10 := rfl

/-! ## Reading -/

theorem digit_digitChar {n : ℕ} (h : n < 10) : (Nat.digitChar n).toNat - '0'.toNat = n := by
  interval_cases n <;> rfl

theorem parseYear_fullDate {y : ℕ} (h : y ≤ 9999) (s : Str) :
    parseYear (twoDigits (y / 100) ++ twoDigits (y % 100) ++ s) = some (y, s) := by
  have hdigits : isDigit [Nat.digitChar (y / 100 / 10), Nat.digitChar (y / 100 % 10),
      Nat.digitChar (y % 100 / 10), Nat.digitChar (y % 100 % 10)] := by
    simp only [isDigit, List.all_cons, List.all_nil, Nat.isDigit_digitChar, Bool.and_true,
      Bool.and_eq_true, decide_eq_true_eq]
    refine ⟨by simp, ?_, ?_, ?_, ?_⟩ <;> omega
  have hvalue : Nat.ofDigitChars 10 [Nat.digitChar (y / 100 / 10), Nat.digitChar (y / 100 % 10),
      Nat.digitChar (y % 100 / 10), Nat.digitChar (y % 100 % 10)] 0 = y := by
    simp only [Nat.ofDigitChars_cons, Nat.ofDigitChars_nil]
    rw [digit_digitChar (by omega), digit_digitChar (by omega), digit_digitChar (by omega),
      digit_digitChar (by omega)]
    omega
  simp only [twoDigits, List.cons_append, List.nil_append, parseYear, hdigits, if_true, hvalue]

theorem strptime_fullDate {d : Date} (h : d.year ≤ 9999) : strptime '-' (fullDate d) = some d := by
  have hday : d.day ≤ 31 := d.day_le.trans (daysInMonth_le _ _)
  have hrest : parseDay (twoDigits d.day) = some (d.day, []) := by
    simpa using parseDay_twoDigits d.day_pos hday []
  have hassoc : fullDate d = twoDigits (d.year / 100) ++ twoDigits (d.year % 100) ++
      ('-' :: (twoDigits d.month ++ '-' :: twoDigits d.day)) := by
    simp [fullDate]
  rw [hassoc]
  simp only [strptime, parseYear_fullDate h, parseMonth_twoDigits d.month_pos d.month_le, hrest,
    expect, if_true, Option.bind_eq_bind, Option.bind_some, Date.of?_self]

/-! ## The order -/

theorem digitChar_lt {a b : ℕ} (h : a < b) (hb : b < 10) : Nat.digitChar a < Nat.digitChar b := by
  interval_cases b <;> interval_cases a <;> decide

theorem twoDigits_append_lt {a b : ℕ} (h : a < b) (hb : b < 100) (s t : Str) :
    twoDigits a ++ s < twoDigits b ++ t := by
  simp only [twoDigits, List.cons_append, List.nil_append]
  by_cases htens : a / 10 = b / 10
  · rw [htens]
    apply List.cons_lt_cons_iff.mpr
    refine .inr ⟨rfl, ?_⟩
    apply List.cons_lt_cons_iff.mpr
    exact .inl (digitChar_lt (by omega) (by omega))
  · apply List.cons_lt_cons_iff.mpr
    exact .inl (digitChar_lt (by omega) (by omega))

namespace Date

theorem lt_of_ordinal_lt {a b : Date} (h : a.ordinal < b.ordinal) :
    a.year < b.year ∨ a.year = b.year ∧
      (a.month < b.month ∨ a.month = b.month ∧ a.day < b.day) := by
  rcases Nat.lt_trichotomy a.year b.year with hlt | heq | hgt
  · exact .inl hlt
  · refine .inr ⟨heq, ?_⟩
    simp only [ordinal, heq] at h
    rcases Nat.lt_trichotomy a.month b.month with hmonth | hmonth | hmonth
    · exact .inl hmonth
    · refine .inr ⟨hmonth, ?_⟩
      rw [hmonth] at h
      omega
    · have hnext := daysBeforeMonth_mono b.year hmonth
      rw [Nat.succ_eq_add_one, daysBeforeMonth_succ b.year b.month_pos] at hnext
      have hbday := b.day_le
      have haday := a.day_pos
      omega
  · have hle := year_lt_iff.mp hgt
    have hlt := a.daysBeforeYear_lt_ordinal
    omega

end Date

theorem fullDate_lt {a b : Date} (h : a.ordinal < b.ordinal) (hb : b.year ≤ 9999) :
    fullDate a < fullDate b := by
  have hday : b.day ≤ 31 := b.day_le.trans (daysInMonth_le _ _)
  have hmonth := b.month_le
  simp only [fullDate, List.append_assoc]
  rcases Date.lt_of_ordinal_lt h with hyear | ⟨hyear, hrest⟩
  · by_cases hcentury : a.year / 100 = b.year / 100
    · rw [hcentury]
      apply List.append_left_lt
      exact twoDigits_append_lt (by omega) (by omega) _ _
    · exact twoDigits_append_lt (by omega) (by omega) _ _
  · rw [hyear]
    apply List.append_left_lt
    apply List.append_left_lt
    apply List.append_left_lt
    rcases hrest with hlt | ⟨heq, hlt⟩
    · exact twoDigits_append_lt hlt (by omega) _ _
    · rw [heq]
      apply List.append_left_lt
      apply List.append_left_lt
      have hlast := twoDigits_append_lt hlt (by omega) [] []
      simpa using hlast

theorem lt_of_prefix_lt {p q s t : Str} (h : p < q) (hlen : p.length = q.length) (hs : p <+: s)
    (ht : q <+: t) : s < t := by
  obtain ⟨r, rfl⟩ := hs
  obtain ⟨u, rfl⟩ := ht
  induction p generalizing q with
  | nil =>
      obtain rfl : q = [] := List.eq_nil_of_length_eq_zero hlen.symm
      exact absurd h (List.lt_irrefl _)
  | cons c p ih =>
      cases q with
      | nil => cases hlen
      | cons c' q =>
          rw [List.cons_append, List.cons_append]
          apply List.cons_lt_cons_iff.mpr
          rcases List.cons_lt_cons_iff.mp h with hlt | ⟨rfl, hlt⟩
          · exact .inl hlt
          · exact .inr ⟨rfl, ih hlt (Nat.succ.inj hlen)⟩

/-- Texts that begin with dates are in the order of the dates. -/
theorem ordinal_le_of_not_lt {s t : Str} {a b : Date} (ha : fullDate a <+: s)
    (hb : fullDate b <+: t) (hyear : a.year ≤ 9999) (h : ¬t < s) : a.ordinal ≤ b.ordinal := by
  by_contra hlt
  have hdate := fullDate_lt (Nat.lt_of_not_le hlt) hyear
  exact h (lt_of_prefix_lt hdate rfl hb ha)

end EsNotebook.Py
