import Mathlib

/-!
# Dates

A date keeps a day twice, as day, month and year and as the number of the day (the Julian date).
`sync_date` computes the number from the calendar day, `sync_julian_date` the calendar day from the
number, in `int` and `unsigned int`. For years up to 99 `gc2jd` adds 1900, so there the two halves
of a date denote different days.
-/

namespace Matador

def gc2jd (day month year : Int32) : Int32 :=
  let y := if year ≤ 99 then year + 1900 else year
  let m := if month > 2 then month - 3 else month + 9
  let y := if month > 2 then y else y - 1
  let c := y.toUInt32 / 100
  let ya := y.toUInt32 - 100 * c
  (1721119 + day.toUInt32 + 146097 * c / 4 + 1461 * ya / 4 + ((153 * m + 2) / 5).toUInt32).toInt32

/-- `jd2gc`: day, month and year. -/
def jd2gc (jd : Int32) : Int32 × Int32 × Int32 :=
  let j := (jd - 1721119).toUInt32
  let y := (j * 4 - 1) / 146097
  let j := j * 4 - 146097 * y - 1
  let x := j / 4
  let j := (x * 4 + 3) / 1461
  let y := 100 * y + j
  let x := x * 4 + 3 - 1461 * j
  let x := (x + 4) / 4
  let m := (5 * x - 3) / 153
  let x := 5 * x - 3 - 153 * m
  let d := (x + 5) / 5
  if m.toInt32 < 10 then (d.toInt32, m.toInt32 + 3, y.toInt32)
  else (d.toInt32, m.toInt32 - 9, y.toInt32 + 1)

structure Date where
  day : Int32
  month : Int32
  year : Int32
  julianDate : Int32
  deriving DecidableEq

namespace Date

def isLeapyear (year : Int32) : Bool := (year % 4 = 0 && year % 100 ≠ 0) || year % 400 = 0

def monthDays : List Int32 := [31, 28, 31, 30, 31, 30, 31, 31, 30, 31, 30, 31]

def isValidDate (year month day : Int32) : Bool :=
  if month < 1 ∨ month > 12 then false
  else
    let days := monthDays.getD (month - 1).toNatClampNeg 0
    if month = 2 ∧ (days + (if isLeapyear year then 1 else 0) < day ∨ day < 1) then false
    else !(days < day || day < 1)

/-- `date::sync_date`; an invalid date throws. -/
def syncDate (day month year : Int32) : Except String Date :=
  if isValidDate year month day then .ok ⟨day, month, year, gc2jd day month year⟩
  else .error "date isn't valid"

def syncJulianDate (julianDate : Int32) : Date :=
  ⟨(jd2gc julianDate).1, (jd2gc julianDate).2.1, (jd2gc julianDate).2.2, julianDate⟩

/-- The two halves of the date denote the same day. -/
def InSync (x : Date) : Prop := syncJulianDate x.julianDate = x

instance (x : Date) : Decidable x.InSync := inferInstanceAs (Decidable (_ = x))

theorem inSync_syncJulianDate (julianDate : Int32) : (syncJulianDate julianDate).InSync := rfl

end Date

end Matador
