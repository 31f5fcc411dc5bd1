import Matador.Lib.Gregorian
import Matador.Utils.Date

/-!
# The calendar of dates

`gc2jd` and `jd2gc` against the Gregorian calendar, and the days `is_valid_date` accepts.

* up to `lastDay`, the 5th of June 2939805, the two conversions compute `dayNumber` and its inverse;
  behind it `jd2gc` does not find the day again
* `is_valid_date` rejects the 29th of February of a leap year: behind the check for February the
  check for all months is made as well, with 28 days
-/

namespace Matador

open Int32 Lib.Gregorian

/-! ## Numbers of 32 bits -/

/-- The unsigned number `x` is `n`. -/
def Is (x : UInt32) (n : Int) : Prop := (x.toNat : Int) = n

namespace Is

variable {x x' : UInt32} {n n' : Int}

section

variable (h : Is x n) (h' : Is x' n')

include h h'

theorem add (hlt : n + n' < 2 ^ 32) : Is (x + x') (n + n') := by
  unfold Is at *
  rw [UInt32.toNat_add]
  omega

theorem sub (hle : n' ≤ n) : Is (x - x') (n - n') := by
  unfold Is at *
  rw [UInt32.toNat_sub_of_le _ _ (UInt32.le_iff_toNat_le.mpr (by omega))]
  omega

theorem mul (hlt : n * n' < 2 ^ 32) : Is (x * x') (n * n') := by
  unfold Is at *
  subst h h'
  rw [UInt32.toNat_mul, Nat.mod_eq_of_lt (by exact_mod_cast hlt)]
  exact Nat.cast_mul _ _

theorem div : Is (x / x') (n / n') := by
  subst h h'
  exact Int.natCast_ediv _ _

end

end Is

variable {n : Int}

theorem is_toUInt32 {x : Int32} (h : x.toInt = n) (h0 : 0 ≤ n) : Is x.toUInt32 n := by
  have hx : 0 ≤ x := le_iff_toInt_le.mpr (by rw [h]; exact h0)
  unfold Is
  rw [toNat_toUInt32_of_le hx, toNatClampNeg]
  omega

variable {x : UInt32}

theorem Is.toInt (h : Is x n) (hlt : n < 2 ^ 31) : x.toInt32.toInt = n := by
  have hbits : x.toInt32.toInt = x.toBitVec.toInt := rfl
  rw [hbits, BitVec.toInt_eq_toNat_of_lt (by rw [UInt32.toNat_toBitVec]; unfold Is at h; omega)]
  exact h

/-! ## `gc2jd` -/

/-- The number of the day in front of the 1st of March of the year 0. -/
def epoch : Int := 1721119

theorem bmod_eq_self (h : -2 ^ 31 ≤ n) (h' : n < 2 ^ 31) : n.bmod (2 ^ 32) = n :=
  Int.bmod_eq_of_le (by omega) (by omega)

variable {m : Int32}

theorem toInt_marchMonth (hm : 1 ≤ m.toInt) (hm' : m.toInt ≤ 12) :
    (if m > 2 then m - 3 else m + 9).toInt = marchMonth m.toInt := by
  have h2 : m > 2 ↔ m.toInt > 2 := lt_iff_toInt_lt
  unfold marchMonth
  simp only [h2]
  split_ifs with h
  · exact (toInt_sub m 3).trans (bmod_eq_self (by simp; omega) (by simp; omega))
  · exact (toInt_add m 9).trans (bmod_eq_self (by simp; omega) (by simp; omega))

theorem toInt_marchYear {y : Int32} (hy : 100 ≤ y.toInt) :
    (if m > 2 then (if y ≤ 99 then y + 1900 else y)
      else (if y ≤ 99 then y + 1900 else y) - 1).toInt = marchYear m.toInt y.toInt := by
  have h2 : m > 2 ↔ m.toInt > 2 := lt_iff_toInt_lt
  have h99 : ¬ y ≤ 99 := by
    rw [le_iff_toInt_le]
    exact not_le.mpr (show (99 : Int) < y.toInt by omega)
  have hlt := toInt_lt y
  unfold marchYear
  simp only [h2]
  split_ifs with h
  · rfl
  · exact (toInt_sub y 1).trans (bmod_eq_self (by simp; omega) (by simp; omega))

theorem toInt_daysBeforeMonth (h : m.toInt = n) (h0 : 0 ≤ n) (hle : n ≤ 11) :
    ((153 * m + 2) / 5).toInt = daysBeforeMonth n := by
  have hmul : (153 * m).toInt = 153 * n := by
    rw [toInt_mul, h]
    exact bmod_eq_self (by simp; omega) (by simp; omega)
  have hadd : (153 * m + 2).toInt = 153 * n + 2 := by
    rw [toInt_add, hmul]
    exact bmod_eq_self (by simp; omega) (by simp; omega)
  rw [toInt_div_of_ne_right _ _ (by decide), hadd]
  exact Int.tdiv_eq_ediv_of_nonneg (by omega)

theorem marchYear_bounds (m y : Int) : y - 1 ≤ marchYear m y ∧ marchYear m y ≤ y := by
  unfold marchYear
  split_ifs <;> omega

theorem marchMonth_bounds {m : Int} (hm : 1 ≤ m) (hm' : m ≤ 12) :
    0 ≤ marchMonth m ∧ marchMonth m ≤ 11 := by
  unfold marchMonth
  split_ifs <;> omega

variable {y : Int}

theorem is_daysBeforeYear (h : Is x y) (h0 : 0 ≤ y) (hle : y < 2939900) :
    Is (146097 * (x / 100) / 4) (146097 * (y / 100) / 4) ∧
      Is (1461 * (x - 100 * (x / 100)) / 4) (1461 * (y % 100) / 4) := by
  have hc : Is (x / 100) (y / 100) := h.div rfl
  have hcen : Is (100 * (x / 100)) (100 * (y / 100)) := Is.mul rfl hc (by omega)
  have hya : Is (x - 100 * (x / 100)) (y % 100) := by
    rw [show y % 100 = y - 100 * (y / 100) by omega]
    exact h.sub hcen (by omega)
  exact ⟨(Is.mul (show Is 146097 146097 from rfl) hc (by omega)).div rfl,
    (Is.mul (show Is 1461 1461 from rfl) hya (by omega)).div rfl⟩

variable {d : Int32}

/-- The number of the 5th of June 2939805, the last one that `jd2gc` can multiply by 4. -/
def lastDay : Int := 2 ^ 30

theorem dayNumber_bounds {d m y : Int} (h : IsDay d m y) :
    daysBeforeYear (marchYear m y) < dayNumber d m y ∧
    dayNumber d m y ≤ daysBeforeYear (marchYear m y) + 366 := by
  have h1 := one_le_dayOfYear h
  have hle := dayOfYear_le h
  unfold dayNumber
  split_ifs at hle <;> omega

theorem marchYear_lt {d m y : Int} (h : IsDay d m y) (hlast : dayNumber d m y ≤ lastDay) :
    marchYear m y < 2939900 := by
  have hnum := dayNumber_bounds h
  unfold daysBeforeYear lastDay at *
  omega

theorem dayNumber_le_lastDay {d m y : Int} (h : IsDay d m y) (hy : y ≤ 1000001) :
    dayNumber d m y ≤ lastDay := by
  have hnum := dayNumber_bounds h
  have hY := marchYear_bounds m y
  unfold daysBeforeYear at hnum
  unfold lastDay
  omega

/-- **`gc2jd` computes the number of the day**, as long as the days of the centuries fit into 32
bits. -/
theorem toInt_gc2jd {y : Int32} (h : IsDay d.toInt m.toInt y.toInt) (hy : 100 ≤ y.toInt)
    (hy' : marchYear m.toInt y.toInt < 2939900) :
    (gc2jd d m y).toInt = epoch + dayNumber d.toInt m.toInt y.toInt := by
  have hmon := toInt_daysBeforeMonth (toInt_marchMonth h.one_le_month h.month_le)
    (marchMonth_bounds h.one_le_month h.month_le).1 (marchMonth_bounds h.one_le_month h.month_le).2
  have hM := marchMonth_bounds h.one_le_month h.month_le
  have hY := marchYear_bounds m.toInt y.toInt
  obtain ⟨hcen, hrest⟩ := is_daysBeforeYear
    (is_toUInt32 (toInt_marchYear (m := m) hy) (by omega)) (by omega) (by omega)
  have hday : Is d.toUInt32 d.toInt := is_toUInt32 rfl (by have := h.one_le_day; omega)
  have hlong := daysInMonth_le m.toInt y.toInt
  have hd := h.day_le
  have hM' : 0 ≤ daysBeforeMonth (marchMonth m.toInt) ∧
      daysBeforeMonth (marchMonth m.toInt) ≤ 340 := by
    unfold daysBeforeMonth
    omega
  have hsum := (((Is.add (show Is 1721119 epoch from rfl) hday (by unfold epoch; omega)).add hcen
    (by unfold epoch; omega)).add hrest (by unfold epoch; omega)).add
    (is_toUInt32 hmon hM'.1) (by unfold epoch; omega)
  have htot := hsum.toInt (by unfold epoch; omega)
  refine htot.trans ?_
  unfold dayNumber dayOfYear daysBeforeYear
  omega

/-! ## `jd2gc` -/

theorem is_quarters (h : Is x n) (h1 : 1 ≤ n) (hle : n ≤ lastDay) : Is (x * 4 - 1) (4 * n - 1) := by
  unfold Is lastDay at *
  rw [UInt32.toNat_sub, UInt32.toNat_mul]
  simp
  omega

theorem is_century {t : Int} (h : Is x (t + daysBeforeYear y)) (h1 : 1 ≤ t)
    (hle : t ≤ if Leap (y + 1) then 366 else 365) (h0 : 0 ≤ y)
    (hy : t + daysBeforeYear y ≤ lastDay) : Is ((x * 4 - 1) / 146097) (y / 100) ∧
      Is ((x * 4 - 146097 * ((x * 4 - 1) / 146097) - 1) / 4) (t - 1 + 1461 * (y % 100) / 4) := by
  have hcen := century_of_dayNumber h1 hle
  have hnum : daysBeforeYear y = 146097 * (y / 100) / 4 + 1461 * (y % 100) / 4 := rfl
  have hfour := is_quarters h (by omega) hy
  have hc : Is ((x * 4 - 1) / 146097) (y / 100) := by
    rw [← hcen]
    exact hfour.div rfl
  refine ⟨hc, ?_⟩
  unfold lastDay at hy
  have hdays : Is (146097 * ((x * 4 - 1) / 146097)) (146097 * (y / 100)) := Is.mul rfl hc (by omega)
  have hrest := (hfour.sub hdays (by omega)).div (show Is 4 4 from rfl)
  have heq : (4 * (t + daysBeforeYear y) - 1 - 146097 * (y / 100)) / 4 =
      t - 1 + 1461 * (y % 100) / 4 := by omega
  rw [sub_right_comm]
  exact heq ▸ hrest

theorem is_year {t : Int} (h : Is x (t - 1 + 1461 * (y % 100) / 4)) (h1 : 1 ≤ t)
    (hle : t ≤ if Leap (y + 1) then 366 else 365) :
    Is ((x * 4 + 3) / 1461) (y % 100) ∧
    Is ((x * 4 + 3 - 1461 * ((x * 4 + 3) / 1461) + 4) / 4) t := by
  have hyear := year_of_dayNumber h1 hle
  have hfour : Is (x * 4 + 3) (4 * (t - 1 + 1461 * (y % 100) / 4) + 3) := by
    rw [Int.mul_comm 4]
    exact (h.mul (show Is 4 4 from rfl) (by omega)).add (show Is 3 3 from rfl) (by omega)
  have hk : Is ((x * 4 + 3) / 1461) (y % 100) := by
    rw [← hyear]
    exact hfour.div rfl
  refine ⟨hk, ?_⟩
  have hdays : Is (1461 * ((x * 4 + 3) / 1461)) (1461 * (y % 100)) := Is.mul rfl hk (by omega)
  have hrest :=
    ((hfour.sub hdays (by omega)).add (show Is 4 4 from rfl) (by omega)).div (show Is 4 4 from rfl)
  have heq : (4 * (t - 1 + 1461 * (y % 100) / 4) + 3 - 1461 * (y % 100) + 4) / 4 = t := by omega
  exact heq ▸ hrest

theorem is_month {d m : Int} (hday : IsDay d m y) (h : Is x (dayOfYear d m)) :
    Is ((5 * x - 3) / 153) (marchMonth m) ∧
      Is ((5 * x - 3 - 153 * ((5 * x - 3) / 153) + 5) / 5) d := by
  have hmon := monthOf_dayOfYear hday
  have ht := one_le_dayOfYear hday
  have ht' : dayOfYear d m ≤ 366 := by
    have := dayOfYear_le hday
    split_ifs at this <;> omega
  have hM := marchMonth_bounds hday.one_le_month hday.month_le
  have hd := hday.one_le_day
  have hfive : Is (5 * x - 3) (5 * dayOfYear d m - 3) :=
    (Is.mul (show Is 5 5 from rfl) h (by omega)).sub (show Is 3 3 from rfl) (by omega)
  have hm : Is ((5 * x - 3) / 153) (marchMonth m) := by
    rw [← hmon]
    exact hfive.div rfl
  refine ⟨hm, ?_⟩
  have hbef : dayOfYear d m = d + (153 * marchMonth m + 2) / 5 := rfl
  have hdays : Is (153 * ((5 * x - 3) / 153)) (153 * marchMonth m) := Is.mul rfl hm (by omega)
  have hrest :=
    ((hfive.sub hdays (by omega)).add (show Is 5 5 from rfl) (by omega)).div (show Is 5 5 from rfl)
  have heq : (5 * dayOfYear d m - 3 - 153 * marchMonth m + 5) / 5 = d := by omega
  exact heq ▸ hrest

theorem toInt_month {m : Int} (hm : 1 ≤ m) (hm' : m ≤ 12) (h : Is x (marchMonth m)) :
    (x.toInt32 < 10 ↔ m > 2) ∧
      (m > 2 → (x.toInt32 + 3).toInt = m) ∧ (¬ m > 2 → (x.toInt32 - 9).toInt = m) := by
  have hM := marchMonth_bounds hm hm'
  have hx := h.toInt (by omega)
  have hlt : x.toInt32 < 10 ↔ x.toInt32.toInt < 10 := lt_iff_toInt_lt
  refine ⟨?_, fun h2 => ?_, fun h2 => ?_⟩
  · rw [hlt, hx]
    unfold marchMonth
    split_ifs <;> omega
  · rw [toInt_add, hx, marchMonth, if_pos h2]
    exact (bmod_eq_self (by simp; omega) (by simp; omega)).trans (by simp)
  · rw [toInt_sub, hx, marchMonth, if_neg h2]
    exact (bmod_eq_self (by simp; omega) (by simp; omega)).trans (by simp)

theorem toInt_year {m : Int} (h : Is x (marchYear m y)) (hy' : marchYear m y < 2939900) :
    (m > 2 → x.toInt32.toInt = y) ∧ (¬ m > 2 → (x.toInt32 + 1).toInt = y) := by
  have hY := marchYear_bounds m y
  have hx := h.toInt (by omega)
  have h0 : 0 ≤ marchYear m y := by unfold Is at h; omega
  refine ⟨fun h2 => ?_, fun h2 => ?_⟩
  · rw [hx, marchYear, if_pos h2]
  · rw [toInt_add, hx]
    rw [marchYear, if_neg h2] at h0 ⊢
    exact (bmod_eq_self (by simp; omega) (by simp; omega)).trans (by simp)

/-- **`jd2gc` finds the day from its number.** -/
theorem jd2gc_of_dayNumber {y jd : Int32} (h : IsDay d.toInt m.toInt y.toInt) (hy : 100 ≤ y.toInt)
    (hlast : dayNumber d.toInt m.toInt y.toInt ≤ lastDay)
    (hjd : jd.toInt = epoch + dayNumber d.toInt m.toInt y.toInt) : jd2gc jd = (d, m, y) := by
  have hY := marchYear_bounds m.toInt y.toInt
  have h1 := one_le_dayOfYear h
  have hle := dayOfYear_le h
  have hnum : dayNumber d.toInt m.toInt y.toInt =
      dayOfYear d.toInt m.toInt + daysBeforeYear (marchYear m.toInt y.toInt) := rfl
  have hbef : 0 ≤ daysBeforeYear (marchYear m.toInt y.toInt) := by
    unfold daysBeforeYear
    omega
  have hj :
      Is (jd - 1721119).toUInt32 (dayOfYear d.toInt m.toInt +
        daysBeforeYear (marchYear m.toInt y.toInt)) := by
    refine is_toUInt32 ?_ (by omega)
    have hlt := toInt_lt jd
    rw [toInt_sub, hjd, hnum]
    unfold epoch at *
    exact (bmod_eq_self (by simp; omega) (by simp; omega)).trans (by simp)
  have hy' := marchYear_lt h hlast
  obtain ⟨hcen, hrest⟩ := is_century hj h1 hle (by omega) hlast
  obtain ⟨hyear, hdayo⟩ := is_year hrest h1 hle
  obtain ⟨hmon, hday⟩ := is_month h hdayo
  have hwhl := (Is.mul (show Is 100 100 from rfl) hcen (by omega)).add hyear (by omega)
  rw [Int.mul_ediv_add_emod] at hwhl
  obtain ⟨hlt, hm, hm'⟩ := toInt_month h.one_le_month h.month_le hmon
  obtain ⟨hy1, hy2⟩ := toInt_year hwhl hy'
  have hd := hday.toInt (by have := h.day_le; have := daysInMonth_le m.toInt y.toInt; omega)
  unfold jd2gc
  simp only [hlt]
  split_ifs with h2
  · exact Prod.ext (toInt_inj.mp hd) (Prod.ext (toInt_inj.mp (hm h2)) (toInt_inj.mp (hy1 h2)))
  · exact Prod.ext (toInt_inj.mp hd) (Prod.ext (toInt_inj.mp (hm' h2)) (toInt_inj.mp (hy2 h2)))

theorem jd2gc_back {y : Int32} (h : IsDay d.toInt m.toInt y.toInt) (hy : 100 ≤ y.toInt)
    (hlast : dayNumber d.toInt m.toInt y.toInt ≤ lastDay) : jd2gc (gc2jd d m y) = (d, m, y) :=
  jd2gc_of_dayNumber h hy hlast (toInt_gc2jd h hy (marchYear_lt h hlast))

theorem toInt_nextDay {y : Int32} (h : IsDay d.toInt m.toInt y.toInt) (hy' : y.toInt ≤ 1000000) :
    let n := nextDay d.toInt m.toInt y.toInt
    (ofInt n.1).toInt = n.1 ∧ (ofInt n.2.1).toInt = n.2.1 ∧ (ofInt n.2.2).toInt = n.2.2 ∧
      y.toInt ≤ n.2.2 ∧ n.2.2 ≤ 1000001 := by
  intro n
  have hn : IsDay n.1 n.2.1 n.2.2 := h.nextDay
  have hlong := daysInMonth_le n.2.1 n.2.2
  have hyear : y.toInt ≤ n.2.2 ∧ n.2.2 ≤ y.toInt + 1 := by
    show _ ≤ (nextDay _ _ _).2.2 ∧ (nextDay _ _ _).2.2 ≤ _
    unfold nextDay
    split_ifs <;> simp
  have hmin := le_toInt y
  obtain ⟨hm, hm', hd, hd'⟩ := hn
  refine ⟨toInt_ofInt_of_le (by omega) (by omega), toInt_ofInt_of_le (by omega) (by omega),
    toInt_ofInt_of_le (by omega) (by omega), hyear.1, by omega⟩

/-- **Day and number of a day determine each other, and the numbers follow the days.** -/
theorem jd2gc_gc2jd {d m y : Int32} (h : IsDay d.toInt m.toInt y.toInt) (hy : 100 ≤ y.toInt)
    (hy' : y.toInt ≤ 1000000) :
    jd2gc (gc2jd d m y) = (d, m, y) ∧
      let n := nextDay d.toInt m.toInt y.toInt
      (gc2jd (.ofInt n.1) (.ofInt n.2.1) (.ofInt n.2.2)).toInt = (gc2jd d m y).toInt + 1 := by
  have hY := marchYear_bounds m.toInt y.toInt
  have hnum := toInt_gc2jd h hy (by omega)
  refine ⟨jd2gc_back h hy (dayNumber_le_lastDay h (by omega)), ?_⟩
  intro n
  obtain ⟨hd, hm, hyear, hge, hle⟩ := toInt_nextDay h hy'
  have hnext := toInt_gc2jd (m := .ofInt n.2.1) (y := .ofInt n.2.2)
    (by rw [hd, hm, hyear]; exact h.nextDay) (by rw [hyear]; omega) 
    (by rw [hyear, hm]; exact (marchYear_bounds _ _).2.trans_lt (hle.trans_lt (by decide)))
  rw [hnext, hd, hm, hyear, dayNumber_nextDay h]
  omega

/-- The 28th of February 2100, which is no leap year. -/
theorem jd2gc_gc2jd_february :
    jd2gc (gc2jd 28 2 2100) = (28, 2, 2100) ∧
    (gc2jd 1 3 2100).toInt = (gc2jd 28 2 2100).toInt + 1 :=
  jd2gc_gc2jd (d := 28) (m := 2) (y := 2100) (by decide) (by decide) (by decide)

/-! ## Valid dates -/

namespace Date

theorem toInt_monthDays (hm : 1 ≤ m.toInt) (hm' : m.toInt ≤ 12) :
    (monthDays.getD (m - 1).toNatClampNeg 0).toInt = daysInMonth m.toInt 1 := by
  obtain ⟨k, hk⟩ : ∃ k, k = m.toInt := ⟨_, rfl⟩
  have hofi : m = ofInt k := by rw [hk, ofInt_toInt]
  rw [← hk] at hm hm' ⊢
  subst hofi
  interval_cases k <;> decide

theorem daysInMonth_of_ne {m : Int} (h : m ≠ 2) (y y' : Int) :
    daysInMonth m y = daysInMonth m y' := by
  simp only [daysInMonth, if_neg h]

theorem toInt_le_leapDay {x : Int32} (h0 : 0 ≤ x.toInt) (h31 : x.toInt ≤ 31) (b : Bool) :
    x.toInt ≤ (x + if b then 1 else 0).toInt := by
  have hone : (if b then 1 else 0 : Int32).toInt = if b then 1 else 0 := by
    cases b <;> rfl
  rw [toInt_add, hone, bmod_eq_self (by split_ifs <;> omega) (by split_ifs <;> omega)]
  split_ifs <;> omega

/-- What `is_valid_date` accepts: in February never more than 28 days. -/
theorem isValidDate_iff (y m d : Int32) : isValidDate y m d ↔
      IsDay d.toInt m.toInt y.toInt ∧ ¬(Leap y.toInt ∧ m.toInt = 2 ∧ d.toInt = 29) := by
  have hm : (m < 1 ∨ m > 12) ↔ ¬(1 ≤ m.toInt ∧ m.toInt ≤ 12) := by
    have h1 : m < 1 ↔ m.toInt < 1 := lt_iff_toInt_lt
    have h12 : m > 12 ↔ m.toInt > 12 := lt_iff_toInt_lt
    rw [h1, h12]
    omega
  have h1 : d < 1 ↔ d.toInt < 1 := lt_iff_toInt_lt
  by_cases hrng : 1 ≤ m.toInt ∧ m.toInt ≤ 12
  · obtain ⟨hge, hle⟩ := hrng
    have hdays := toInt_monthDays hge hle
    have hlt : monthDays.getD (m - 1).toNatClampNeg 0 < d ↔ daysInMonth m.toInt 1 < d.toInt := by
      rw [lt_iff_toInt_lt, hdays]
    have hvld : isValidDate y m d ↔ 1 ≤ d.toInt ∧ d.toInt ≤ daysInMonth m.toInt 1 := by
      unfold isValidDate
      rw [if_neg (by rw [hm]; exact not_not.mpr ⟨hge, hle⟩)]
      have hleap := toInt_le_leapDay (by have := le_daysInMonth m.toInt 1; omega)
        (hdays ▸ daysInMonth_le m.toInt 1) (isLeapyear y)
      rw [hdays] at hleap
      have hnot : (!(decide (monthDays.getD (m - 1).toNatClampNeg 0 < d) || decide (d < 1))) ↔
          1 ≤ d.toInt ∧ d.toInt ≤ daysInMonth m.toInt 1 := by
        simp only [Bool.not_eq_true', Bool.or_eq_false_iff, decide_eq_false_iff_not, hlt, h1]
        omega
      -- what the check of February rejects, the check of all months rejects as well
      by_cases hfeb : m = 2 ∧
        (monthDays.getD (m - 1).toNatClampNeg 0 + (if isLeapyear y then 1 else 0) < d ∨ d < 1)
      · have hmore : daysInMonth m.toInt 1 < d.toInt ∨ d.toInt < 1 :=
          hfeb.2.imp (fun hd => lt_of_le_of_lt hleap (lt_iff_toInt_lt.mp hd)) h1.mp
        rw [if_pos hfeb]
        exact ⟨fun h => absurd h Bool.false_ne_true, fun h => by omega⟩
      · rw [if_neg hfeb]
        exact hnot
    rw [hvld, isDay_iff]
    by_cases hfeb : m.toInt = 2
    · have hleap : daysInMonth m.toInt y.toInt = if Leap y.toInt then 29 else 28 := by
        rw [hfeb]; rfl
      have hpln : daysInMonth m.toInt 1 = 28 := by rw [hfeb]; rfl
      rw [hleap]
      split_ifs with hl
      · simp only [hl, true_and]
        omega
      · simp only [hl]
        omega
    · rw [daysInMonth_of_ne hfeb 1 y.toInt]
      omega
  · have hvld : isValidDate y m d = false := by
      unfold isValidDate
      rw [if_pos (hm.mpr hrng)]
    rw [hvld, isDay_iff]
    exact ⟨nofun, fun h => absurd h.1.1 hrng⟩

/-- **`is_valid_date` decides the days of the calendar in all cases but one**: the 29th of February
of a leap year, which the check of all months rejects behind that of February; then the constructor
and the setters throw. -/
theorem isValidDate_iff_isDay (y m d : Int32) :
    ((isValidDate y m d = true ↔ IsDay d.toInt m.toInt y.toInt) ∧
      ((∃ x, syncDate d m y = .ok x) ↔ IsDay d.toInt m.toInt y.toInt)) ↔
      ¬(Leap y.toInt ∧ m.toInt = 2 ∧ d.toInt = 29) := by
  have hsync : (∃ x, syncDate d m y = .ok x) ↔ isValidDate y m d := by
    unfold syncDate
    split_ifs with h <;> simp [h]
  rw [hsync, and_self, isValidDate_iff]
  constructor
  · intro h hleap
    have hday : IsDay d.toInt m.toInt y.toInt := by
      obtain ⟨hleap, hm, hd⟩ := hleap
      rw [hm, hd]
      exact ⟨by omega, by omega, by omega, by rw [daysInMonth, if_pos rfl, if_pos hleap]⟩
    exact (h.mpr hday).2 hleap
  · intro h
    exact ⟨And.left, fun hday => ⟨hday, h⟩⟩

/-- The 29th of February 2020. -/
theorem isValidDate_leap_day :
    IsDay 29 2 2020 ∧ isValidDate 2020 2 29 = false ∧
    syncDate 29 2 2020 = .error "date isn't valid" :=
  ⟨by decide, by decide, rfl⟩

/-! ## Dates in sync -/

variable {b : Bool} {x : Date}

end Date

end Matador
