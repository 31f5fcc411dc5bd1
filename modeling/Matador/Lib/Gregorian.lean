import Mathlib

/-!
# The Gregorian calendar

The proleptic Gregorian calendar over all years, and the count of its days by years that begin in
March. Counted so, the leap day is the last day of its year, and the days before a month and before
a year are plain quotients.
-/

namespace Matador.Lib.Gregorian

/-! ## Days -/

def Leap (y : Int) : Prop := 4 ∣ y ∧ (¬ 100 ∣ y ∨ 400 ∣ y)

instance (y : Int) : Decidable (Leap y) := inferInstanceAs (Decidable (_ ∧ _))

def daysInMonth (m y : Int) : Int :=
  if m = 2 then (if Leap y then 29 else 28)
  else if m = 4 ∨ m = 6 ∨ m = 9 ∨ m = 11 then 30
  else 31

/-- `d`, `m`, `y` is a day of the calendar. -/
structure IsDay (d m y : Int) : Prop where
  one_le_month : 1 ≤ m
  month_le : m ≤ 12
  one_le_day : 1 ≤ d
  day_le : d ≤ daysInMonth m y

theorem isDay_iff (d m y : Int) : IsDay d m y ↔ (1 ≤ m ∧ m ≤ 12) ∧ 1 ≤ d ∧ d ≤ daysInMonth m y :=
  ⟨fun h => ⟨⟨h.1, h.2⟩, h.3, h.4⟩, fun h => ⟨h.1.1, h.1.2, h.2.1, h.2.2⟩⟩

instance (d m y : Int) : Decidable (IsDay d m y) := decidable_of_iff _ (isDay_iff d m y).symm

def nextDay (d m y : Int) : Int × Int × Int :=
  if d < daysInMonth m y then (d + 1, m, y)
  else if m < 12 then (1, m + 1, y)
  else (1, 1, y + 1)

theorem daysInMonth_le (m y : Int) : daysInMonth m y ≤ 31 := by
  unfold daysInMonth
  split_ifs <;> omega

theorem le_daysInMonth (m y : Int) : 28 ≤ daysInMonth m y := by
  unfold daysInMonth
  split_ifs <;> omega

theorem IsDay.nextDay {d m y : Int} (h : IsDay d m y) :
    IsDay (nextDay d m y).1 (nextDay d m y).2.1 (nextDay d m y).2.2 := by
  obtain ⟨hm, hm', hd, hd'⟩ := h
  unfold Gregorian.nextDay
  split_ifs with hlast hyear
  · exact ⟨hm, hm', by omega, Int.add_one_le_of_lt hlast⟩
  · have hfst : 1 ≤ daysInMonth (m + 1) y := by have := le_daysInMonth (m + 1) y; omega
    exact ⟨show 1 ≤ m + 1 by omega, show m + 1 ≤ 12 by omega, le_refl _, hfst⟩
  · exact ⟨le_refl _, show (1 : Int) ≤ 12 by omega, le_refl _, show (1 : Int) ≤ 31 by omega⟩

/-! ## Years from March -/

/-- The month counted from March, which is month 0. -/
def marchMonth (m : Int) : Int := if m > 2 then m - 3 else m + 9

/-- The year a day belongs to if years begin in March. -/
def marchYear (m y : Int) : Int := if m > 2 then y else y - 1

/-- The days of a year from March in front of its month `m`. -/
def daysBeforeMonth (m : Int) : Int := (153 * m + 2) / 5

/-- The days in front of the year from March `y`. -/
def daysBeforeYear (y : Int) : Int := 146097 * (y / 100) / 4 + 1461 * (y % 100) / 4

/-- The number of the day in its year from March, from 1. -/
def dayOfYear (d m : Int) : Int := d + daysBeforeMonth (marchMonth m)

/-- The number of the day: the 1st of March of the year 0 has the number 1. -/
def dayNumber (d m y : Int) : Int := dayOfYear d m + daysBeforeYear (marchYear m y)

theorem daysBeforeYear_eq (y : Int) :
    daysBeforeYear y = 36524 * (y / 100) + y / 100 / 4 + 365 * (y % 100) + y % 100 / 4 := by
  unfold daysBeforeYear
  generalize y / 100 = c
  omega

/-- A year from March ends with a leap day if it is the fourth year of four, in the last year of a
century only in each fourth one. -/
theorem leap_succ_iff (y : Int) : Leap (y + 1) ↔
    y % 100 % 4 = 3 ∧ (y % 100 = 99 → y / 100 % 4 = 3) := by
  unfold Leap
  omega

theorem daysBeforeYear_succ (y : Int) :
    daysBeforeYear (y + 1) = daysBeforeYear y + (if Leap (y + 1) then 366 else 365) := by
  simp only [daysBeforeYear_eq, leap_succ_iff]
  have hcas : (y % 100 = 99 ∧ (y + 1) / 100 = y / 100 + 1 ∧ (y + 1) % 100 = 0) ∨
      (y % 100 < 99 ∧ (y + 1) / 100 = y / 100 ∧ (y + 1) % 100 = y % 100 + 1) := by
    omega
  obtain ⟨hk, hc', hk'⟩ | ⟨hk, hc', hk'⟩ := hcas
  · rw [hc']
    split_ifs <;> omega
  · rw [hc']
    split_ifs <;> omega

theorem daysBeforeMonth_succ {m : Int} (y : Int) (hm : 1 ≤ m) (hm' : m ≤ 12) (h2 : m ≠ 2) :
    daysBeforeMonth (marchMonth m + 1) = daysBeforeMonth (marchMonth m) + daysInMonth m y := by
  interval_cases m <;> first | exact absurd rfl h2 | rfl

/-- **The numbers of two days that follow each other differ by one.** -/
theorem dayNumber_nextDay {d m y : Int} (h : IsDay d m y) :
    dayNumber (nextDay d m y).1 (nextDay d m y).2.1 (nextDay d m y).2.2 = dayNumber d m y + 1 := by
  obtain ⟨hm, hm', hd, hd'⟩ := h
  unfold nextDay
  split_ifs with hlast hyear
  · simp only [dayNumber, dayOfYear]
    omega
  · have hd : d = daysInMonth m y := by omega
    by_cases h2 : m = 2
    · -- the last day of February closes the year
      have hlong := daysBeforeYear_succ (y - 1)
      rw [Int.sub_add_cancel] at hlong
      subst h2
      have hdays : daysInMonth 2 y = if Leap y then 29 else 28 := rfl
      have hmar : dayNumber 1 (2 + 1) y = 1 + daysBeforeYear y := rfl
      have hfeb : dayNumber d 2 y = d + 337 + daysBeforeYear (y - 1) := rfl
      show dayNumber 1 (2 + 1) y = dayNumber d 2 y + 1
      split_ifs at hdays hlong <;> omega
    · have hmon := daysBeforeMonth_succ y hm hm' h2
      have hshi : marchMonth (m + 1) = marchMonth m + 1 := by
        unfold marchMonth
        split_ifs <;> omega
      have hsame : marchYear (m + 1) y = marchYear m y := by
        unfold marchYear
        split_ifs <;> omega
      simp only [dayNumber, dayOfYear, hshi, hsame]
      omega
  · have hm12 : m = 12 := by omega
    subst hm12
    have hd : d = 31 := by
      have : daysInMonth 12 y = 31 := rfl
      omega
    have hmon : daysBeforeMonth (marchMonth 1) = daysBeforeMonth (marchMonth 12) + 31 := rfl
    have hsame : marchYear 1 (y + 1) = marchYear 12 y := by
      unfold marchYear
      norm_num
    simp only [dayNumber, dayOfYear, hsame]
    omega

/-! ## From the number back -/

/-- The month from March of the day with number `t` in its year. -/
def monthOf (t : Int) : Int := (5 * t - 3) / 153

theorem one_le_dayOfYear {d m y : Int} (h : IsDay d m y) : 1 ≤ dayOfYear d m := by
  obtain ⟨hm, hm', hd, hd'⟩ := h
  unfold dayOfYear daysBeforeMonth marchMonth
  split_ifs <;> omega

theorem dayOfYear_le {d m y : Int} (h : IsDay d m y) :
    dayOfYear d m ≤ if Leap (marchYear m y + 1) then 366 else 365 := by
  obtain ⟨hm, hm', hd, hd'⟩ := h
  have hlong := daysInMonth_le m y
  by_cases h2 : m = 2
  · subst h2
    simp only [dayOfYear, marchYear, marchMonth, daysBeforeMonth, daysInMonth] at hd' ⊢
    norm_num at hd' ⊢
    split_ifs at hd' ⊢ <;> omega
  · have : dayOfYear d m ≤ 365 := by
      unfold dayOfYear daysBeforeMonth marchMonth
      split_ifs <;> omega
    split_ifs <;> omega

section YearOf

variable {t y : Int} (h1 : 1 ≤ t) (hle : t ≤ if Leap (y + 1) then 366 else 365)

include h1 hle

/-- The century: the days of a century in front of the day are fewer than those of a whole one. -/
theorem century_of_dayNumber : (4 * (t + daysBeforeYear y) - 1) / 146097 = y / 100 := by
  rw [daysBeforeYear_eq]
  simp only [leap_succ_iff] at hle
  split_ifs at hle <;> omega

theorem year_of_dayNumber : (4 * (t - 1 + 1461 * (y % 100) / 4) + 3) / 1461 = y % 100 := by
  simp only [leap_succ_iff] at hle
  split_ifs at hle <;> omega

end YearOf

/-- **The month is found from the number of a day in its year.** -/
theorem monthOf_dayOfYear {d m y : Int} (h : IsDay d m y) :
    monthOf (dayOfYear d m) = marchMonth m := by
  obtain ⟨hm, hm', hd, hd'⟩ := h
  unfold daysInMonth at hd'
  unfold monthOf dayOfYear daysBeforeMonth marchMonth
  interval_cases m <;> norm_num at hd' ⊢ <;> omega

end Matador.Lib.Gregorian
