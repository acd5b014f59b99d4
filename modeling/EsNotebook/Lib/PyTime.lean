import EsNotebook.Lib.PyText
import Mathlib.Data.Nat.Find
import Mathlib.Algebra.Order.Floor.Ring
import Mathlib.Data.Rat.Floor
import Mathlib.Tactic.IntervalCases

/-!
# Dates of Python 2

The date part of `struct_time`: `strptime` and `strftime` for year, month and
day between separators, `localtime` and `timegm`.  Conversions that raise
`ValueError` in Python are `none`.
-/

namespace EsNotebook.Py

def isLeap (y : ℕ) : Bool := y % 4 = 0 ∧ (y % 100 ≠ 0 ∨ y % 400 = 0)

def daysInMonth (y m : ℕ) : ℕ :=
  if m = 2 then if isLeap y then 29 else 28
  else if m = 4 ∨ m = 6 ∨ m = 9 ∨ m = 11 then 30
  else 31

/-- A day of the Gregorian calendar. -/
structure Date where
  year : ℕ
  month : ℕ
  day : ℕ
  year_pos : 1 ≤ year
  month_pos : 1 ≤ month
  month_le : month ≤ 12
  day_pos : 1 ≤ day
  day_le : day ≤ daysInMonth year month
  deriving DecidableEq, Repr

def Date.of? (y m d : ℕ) : Option Date :=
  if h : 1 ≤ y ∧ 1 ≤ m ∧ m ≤ 12 ∧ 1 ≤ d ∧ d ≤ daysInMonth y m then
    some ⟨y, m, d, h.1, h.2.1, h.2.2.1, h.2.2.2.1, h.2.2.2.2⟩
  else none

@[simp] theorem Date.of?_self (d : Date) : Date.of? d.year d.month d.day = some d := by
  have h : 1 ≤ d.year ∧ 1 ≤ d.month ∧ d.month ≤ 12 ∧ 1 ≤ d.day ∧
      d.day ≤ daysInMonth d.year d.month :=
    ⟨d.year_pos, d.month_pos, d.month_le, d.day_pos, d.day_le⟩
  rw [Date.of?, dif_pos h]

theorem daysInMonth_le (y m : ℕ) : daysInMonth y m ≤ 31 := by
  unfold daysInMonth
  split_ifs <;> omega

/-! ## Text -/

def digit (c : Char) : ℕ := c.toNat - '0'.toNat

/-- `%Y`: four digits. -/
def parseYear : Str → Option (ℕ × Str)
  | a :: b :: c :: d :: s =>
      if isDigit [a, b, c, d] then some (Nat.ofDigitChars 10 [a, b, c, d] 0, s) else none
  | _ => none

/-- `%m`: `1[0-2]|0[1-9]|[1-9]`. -/
def parseMonth : Str → Option (ℕ × Str)
  | '1' :: '0' :: s => some (10, s)
  | '1' :: '1' :: s => some (11, s)
  | '1' :: '2' :: s => some (12, s)
  | '0' :: c :: s => if c.isDigit ∧ c ≠ '0' then some (digit c, s) else none
  | c :: s => if c.isDigit ∧ c ≠ '0' then some (digit c, s) else none
  | [] => none

/-- `%d`: `3[0-1]|[1-2]\d|0[1-9]|[1-9]| [1-9]`. -/
def parseDay : Str → Option (ℕ × Str)
  | '3' :: '0' :: s => some (30, s)
  | '3' :: '1' :: s => some (31, s)
  | '0' :: c :: s | ' ' :: c :: s => if c.isDigit ∧ c ≠ '0' then some (digit c, s) else none
  | c :: c' :: s =>
      if (c = '1' ∨ c = '2') ∧ c'.isDigit then some (10 * digit c + digit c', s)
      else if c.isDigit ∧ c ≠ '0' then some (digit c, c' :: s)
      else none
  | [c] => if c.isDigit ∧ c ≠ '0' then some (digit c, []) else none
  | [] => none

def expect (c : Char) : Str → Option Str
  | c' :: s => if c' = c then some s else none
  | [] => none

/-- `time.strptime(s, "%Y/%m/%d")`, or with another separator. -/
def strptime (sep : Char) (s : Str) : Option Date := do
  let (y, s) ← parseYear s
  let s ← expect sep s
  let (m, s) ← parseMonth s
  let s ← expect sep s
  let (d, s) ← parseDay s
  if s = [] then Date.of? y m d else none

def twoDigits (n : ℕ) : Str := [Nat.digitChar (n / 10), Nat.digitChar (n % 10)]

/-- The year that `strftime` accepts for `y`: two-digit years are moved to
this and the last century, other years before 1900 are refused. -/
def strftimeYear (y : ℕ) : Option ℕ :=
  if 1900 ≤ y then some y
  else if 69 ≤ y ∧ y ≤ 99 then some (y + 1900)
  else if y ≤ 68 then some (y + 2000)
  else none

/-- `time.strftime("%Y/%m/%d", d)`, or with another separator. -/
def strftime (sep : Char) (d : Date) : Option Str := do
  let y ← strftimeYear d.year
  some (Nat.toDigits 10 y ++ [sep] ++ twoDigits d.month ++ [sep] ++ twoDigits d.day)

theorem strftime_of_year_ge {sep : Char} {d : Date} (h : 1900 ≤ d.year) :
    strftime sep d =
      some (Nat.toDigits 10 d.year ++ [sep] ++ twoDigits d.month ++ [sep] ++ twoDigits d.day) := by
  simp [strftime, strftimeYear, h]

theorem length_toDigits_year {y : ℕ} (hlow : 1000 ≤ y) (hhigh : y ≤ 9999) :
    (Nat.toDigits 10 y).length = 4 := by
  have hle := (Nat.length_toDigits_le_iff (n := y) (b := 10) (k := 4) (by omega) (by omega)).mpr
    (by omega)
  have hlt := (Nat.length_toDigits_le_iff (n := y) (b := 10) (k := 3) (by omega) (by omega)).not.mpr
    (by omega)
  omega

theorem parseYear_toDigits {y : ℕ} (hlow : 1000 ≤ y) (hhigh : y ≤ 9999) (s : Str) :
    parseYear (Nat.toDigits 10 y ++ s) = some (y, s) := by
  have hlen := length_toDigits_year hlow hhigh
  have hdigits := isDigit_toDigits y
  have hvalue : Nat.ofDigitChars 10 (Nat.toDigits 10 y) 0 = y := Nat.ofDigitChars_ten_toDigits
  generalize Nat.toDigits 10 y = ds at *
  obtain ⟨a, b, c, d, rfl⟩ := List.length_eq_four.mp hlen
  simp only [List.cons_append, List.nil_append, parseYear, hdigits, if_true, hvalue]

theorem parseYear_le {s rest : Str} {y : ℕ} (h : parseYear s = some (y, rest)) : y ≤ 9999 := by
  unfold parseYear at h
  split at h
  case h_1 a b c d s =>
    split at h
    case isTrue hdigits =>
      obtain ⟨rfl, -⟩ := Prod.mk.inj (Option.some.inj h)
      simp only [isDigit, List.all_cons, List.all_nil, Bool.and_true, Bool.and_eq_true,
        decide_eq_true_eq] at hdigits
      obtain ⟨-, ha, hb, hc, hd⟩ := hdigits
      have hle {e : Char} (he : e.isDigit) : e.toNat - '0'.toNat ≤ 9 := by
        have hbound := (Char.isDigit_iff_toNat.mp he).2
        have hnine : '9'.toNat = '0'.toNat + 9 := rfl
        omega
      have ha := hle ha
      have hb := hle hb
      have hc := hle hc
      have hd := hle hd
      simp only [Nat.ofDigitChars_cons, Nat.ofDigitChars_nil]
      omega
    case isFalse => cases h
  case h_2 => cases h

/-- Dates that are read have four-digit years. -/
theorem strptime_year_le {sep : Char} {s : Str} {d : Date} (h : strptime sep s = some d) :
    d.year ≤ 9999 := by
  obtain ⟨⟨y, s₁⟩, hyear, h⟩ := Option.bind_eq_some_iff.mp h
  obtain ⟨s₂, -, h⟩ := Option.bind_eq_some_iff.mp h
  obtain ⟨⟨m, s₃⟩, -, h⟩ := Option.bind_eq_some_iff.mp h
  obtain ⟨s₄, -, h⟩ := Option.bind_eq_some_iff.mp h
  obtain ⟨⟨n, s₅⟩, -, h⟩ := Option.bind_eq_some_iff.mp h
  have hy := parseYear_le hyear
  dsimp only at h
  split at h
  · unfold Date.of? at h
    split at h
    · rw [← Option.some.inj h]
      exact hy
    · cases h
  · cases h

theorem parseMonth_twoDigits {m : ℕ} (hpos : 1 ≤ m) (hle : m ≤ 12) (s : Str) :
    parseMonth (twoDigits m ++ s) = some (m, s) := by
  interval_cases m <;> rfl

theorem parseDay_twoDigits {d : ℕ} (hpos : 1 ≤ d) (hle : d ≤ 31) (s : Str) :
    parseDay (twoDigits d ++ s) = some (d, s) := by
  interval_cases d <;> rfl

/-- A date of these years is read back from what is written. -/
theorem strptime_strftime (sep : Char) {d : Date} (hlow : 1900 ≤ d.year) (hhigh : d.year ≤ 9999) :
    ∃ s, strftime sep d = some s ∧ strptime sep s = some d := by
  refine ⟨_, strftime_of_year_ge hlow, ?_⟩
  have hday : d.day ≤ 31 := d.day_le.trans (daysInMonth_le _ _)
  have hrest : parseDay (twoDigits d.day) = some (d.day, []) := by
    simpa using parseDay_twoDigits d.day_pos hday []
  simp only [strptime, List.append_assoc, List.cons_append, List.nil_append,
    parseYear_toDigits (by omega) hhigh, parseMonth_twoDigits d.month_pos d.month_le, hrest,
    expect, if_true, Option.bind_eq_bind, Option.bind_some, Date.of?_self]

theorem length_strftime {sep : Char} {d : Date} (hlow : 1900 ≤ d.year) (hhigh : d.year ≤ 9999)
    {s : Str} (h : strftime sep d = some s) : s.length = 10 := by
  rw [strftime_of_year_ge hlow] at h
  rw [← Option.some.inj h]
  simp [length_toDigits_year (by omega) hhigh, twoDigits]

theorem mem_twoDigits {n : ℕ} (hn : n < 100) {c : Char} (h : c ∈ twoDigits n) : c.isDigit := by
  simp only [twoDigits, List.mem_cons, List.not_mem_nil, or_false] at h
  rcases h with rfl | rfl
  · rw [Nat.isDigit_digitChar]
    exact decide_eq_true (by omega)
  · rw [Nat.isDigit_digitChar]
    exact decide_eq_true (by omega)

theorem mem_strftime {sep : Char} {d : Date} {s : Str} (h : strftime sep d = some s) {c : Char}
    (hc : c ∈ s) : c.isDigit ∨ c = sep := by
  obtain ⟨y, -, hs⟩ := Option.bind_eq_some_iff.mp h
  obtain rfl := Option.some.inj hs
  have hday : d.day ≤ 31 := d.day_le.trans (daysInMonth_le _ _)
  have hmonth := d.month_le
  simp only [List.append_assoc, List.mem_append, List.mem_singleton] at hc
  rcases hc with hc | rfl | hc | rfl | hc
  · exact .inl (Nat.isDigit_of_mem_toDigits (by omega) (by omega) hc)
  · exact .inr rfl
  · exact .inl (mem_twoDigits (by omega) hc)
  · exact .inr rfl
  · exact .inl (mem_twoDigits (by omega) hc)

/-! ## Days and seconds -/

def daysBeforeYear (y : ℕ) : ℕ :=
  365 * (y - 1) + (y - 1) / 4 - (y - 1) / 100 + (y - 1) / 400

def daysBeforeMonth (y m : ℕ) : ℕ :=
  ((List.range' 1 (m - 1)).map (daysInMonth y)).sum

/-- Days since the end of the year 0. -/
def Date.ordinal (d : Date) : ℕ :=
  daysBeforeYear d.year + daysBeforeMonth d.year d.month + d.day

def Date.ofOrdinal (n : ℕ) : Option Date :=
  let y := Nat.findGreatest (fun y ↦ daysBeforeYear y < n) (n / 365 + 1)
  let m := Nat.findGreatest (fun m ↦ daysBeforeMonth y m < n - daysBeforeYear y) 12
  Date.of? y m (n - daysBeforeYear y - daysBeforeMonth y m)

/-- The ordinal of 1970/01/01. -/
def epochOrdinal : ℕ := 719163

/-- The date of `time.localtime(t)` where clocks are `offset` seconds ahead
of UTC. -/
def localtime (offset : ℤ) (t : ℚ) : Option Date :=
  let days := (⌊t⌋ + offset) / 86400 + epochOrdinal
  (Date.ofOrdinal days.toNat).filter (fun d ↦ d.year ≤ 2147485547)

/-- What the clock shows.  The local year is one that `strftime` writes. -/
structure Clock where
  now : ℚ
  offset : ℤ
  today : Date
  localtime_now : localtime offset now = some today
  year_ge : 1900 ≤ today.year

/-- `calendar.timegm` of midnight. -/
def timegm (d : Date) : Option ℤ :=
  if d.year ≤ 9999 then some (((d.ordinal : ℤ) - epochOrdinal) * 86400) else none

example : (Date.of? 2018 1 11).bind timegm = some 1515628800 := by decide +kernel

example : (localtime 28800 1515628800.5).map Date.day = some 11 := by decide +kernel

end EsNotebook.Py
