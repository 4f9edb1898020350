import Guppy.Lib.Calendar

set_option autoImplicit false

/-! # Dates of files

`rr_days_from_civil` of `src/iso9660_walk.c` turns a date into the number of days since 1970-01-01. Its years begin in
March, so that the leap day is the last one, and 400 of them are an era; the month is moved by adding `(unsigned)-3`,
which wraps. The calendar knows nothing of this: the number is that of the days that lie between the two dates
(`rrDaysFromCivil_counts`).
-/

namespace Guppy.Iso

open Calendar

/-- `rr_days_from_civil` -/
def rrDaysFromCivil (y : Int32) (m d : UInt32) : Int64 :=
  let y := y - if m ≤ 2 then 1 else 0
  let era := (if y ≥ 0 then y else y - 399) / 400
  let yoe := (y - era * 400).toUInt32
  let doy := (153 * (m + if m > 2 then -3 else 9) + 2) / 5 + d - 1
  let doe := yoe * 365 + yoe / 4 - yoe / 100 + doy
  era.toInt64 * 146097 + doe.toUInt64.toInt64 - 719468

/-- The number of days of a date, as the function computes it. -/
def daysOf (a : Date) : Int := (rrDaysFromCivil (Int32.ofInt a.year) (UInt32.ofNat a.month) (UInt32.ofNat a.day)).toInt

/-- The first day that is counted: 1970-01-01. -/
def epoch : Date := yearStart 1970

/-! ## The formula -/

/-- The formula for numbers of any size, with the month counted from March. -/
def civil (y : Int) (m d : Nat) : Int :=
  y / 400 * 146097 + (y % 400 * 365 + y % 400 / 4 - y % 400 / 100 + ((153 * m + 2) / 5 + d - 1 : Nat)) - 719468

/-- The years and the months that begin in March. -/
def marchYear (y : Int) (m : Nat) : Int := if m ≤ 2 then y - 1 else y

def marchMonth (m : Nat) : Nat := if m ≤ 2 then m + 9 else m - 3

/-- The number of days of a date by the formula. -/
def civilDays (a : Date) : Int := civil (marchYear a.year a.month) (marchMonth a.month) a.day

/-- A day within a month. -/
theorem civil_succ (y : Int) (m : Nat) {d : Nat} (hd : 1 ≤ d) : civil y m (d + 1) = civil y m d + 1 := by
  unfold civil
  omega

/-- The last day of a month, which has `len` days, and the first of the next. -/
theorem civil_month (y : Int) {m len : Nat} (hlen : 1 ≤ len) (h : (153 * m + 2) / 5 + len = (153 * (m + 1) + 2) / 5) :
    civil y (m + 1) 1 = civil y m len + 1 := by
  unfold civil
  omega

/-- The last day of a year that begins in March, and the first of the next. -/
theorem civil_year (y : Int) : civil (y + 1) 0 1 = civil y 11 (if IsLeap (y + 1) then 29 else 28) + 1 := by
  by_cases hleap : IsLeap (y + 1)
  · rw [if_pos hleap]
    unfold IsLeap at hleap
    unfold civil
    omega
  · rw [if_neg hleap]
    unfold IsLeap at hleap
    unfold civil
    omega

theorem civilDays_next (a : Date) : civilDays a.next = civilDays a + 1 := by
  obtain ⟨y, m, d, hm, hd⟩ := a
  by_cases hday : d < daysInMonth y m
  · rw [next_of_lt hday]
    exact civil_succ _ _ hd.1
  have hlast : d = daysInMonth y m := by omega
  by_cases hmonth : m = 12
  · subst hmonth
    rw [next_of_december hlast rfl]
    subst hlast
    show civil (y + 1 - 1) 10 1 = civil y 9 31 + 1
    rw [Int.add_sub_cancel]
    exact civil_month y (by decide) rfl
  have hlt : m < 12 := by omega
  rw [next_of_last hlast hlt]
  subst hlast
  by_cases hfeb : m = 2
  · subst hfeb
    show civil y 0 1 = civil (y - 1) 11 (daysInMonth y 2) + 1
    have := civil_year (y - 1)
    rwa [Int.sub_add_cancel] at this
  · -- the two months are of one year that begins in March
    have hsame : marchYear y (m + 1) = marchYear y m ∧ marchMonth (m + 1) = marchMonth m + 1 := by
      unfold marchYear marchMonth
      constructor
      · split <;> split <;> omega
      · split <;> split <;> omega
    show civil (marchYear y (m + 1)) (marchMonth (m + 1)) 1 = civil (marchYear y m) (marchMonth m) (daysInMonth y m) + 1
    rw [hsame.1, hsame.2]
    refine civil_month _ hd.1 ?_
    obtain ⟨hlow, -⟩ := hm
    interval_cases m
    all_goals first | rfl | exact absurd rfl hfeb

/-! ## The machine's numbers -/

/-- The division of an era: rounding down by hand, on top of a division that cuts. -/
theorem toInt_era {y : Int32} (h : -2 ^ 30 ≤ y.toInt) : ((if y ≥ 0 then y else y - 399) / 400).toInt = y.toInt / 400 := by
  have hlt := y.toInt_lt
  rw [Int32.toInt_div_of_ne_right _ _ (by decide)]
  have h400 : (400 : Int32).toInt = 400 := by decide
  by_cases hpos : y ≥ 0
  · rw [if_pos hpos, h400]
    have hpos' : 0 ≤ y.toInt := Int32.le_iff_toInt_le.mp hpos
    exact Int.tdiv_eq_ediv_of_nonneg hpos'
  · rw [if_neg hpos, h400, Int32.toInt_sub, show (399 : Int32).toInt = 399 by decide, Int.bmod_eq_of_le (by omega) (by omega)]
    have hneg : y.toInt < 0 := by
      rw [ge_iff_le, Int32.le_iff_toInt_le] at hpos
      exact Int.not_le.mp hpos
    have : (399 - y.toInt).tdiv 400 = (399 - y.toInt) / 400 := Int.tdiv_eq_ediv_of_nonneg (by omega)
    rw [show y.toInt - 399 = -(399 - y.toInt) by omega, Int.neg_tdiv, this]
    omega

/-- The year of an era. -/
theorem toNat_yoe {y era : Int32} (h : -2 ^ 30 ≤ y.toInt) (hera : era.toInt = y.toInt / 400) :
    ((y - era * 400).toUInt32.toNat : Int) = y.toInt % 400 := by
  have hhigh := y.toInt_lt
  have hmul : (era * 400).toInt = y.toInt / 400 * 400 := by
    rw [Int32.toInt_mul, hera, show (400 : Int32).toInt = 400 by decide]
    exact Int.bmod_eq_of_le (by omega) (by omega)
  have hrest : (y - era * 400).toInt = y.toInt % 400 := by
    rw [Int32.toInt_sub, hmul, Int.bmod_eq_of_le (by omega) (by omega)]
    omega
  have hpos : 0 ≤ y - era * 400 := by
    rw [Int32.le_iff_toInt_le, hrest]
    exact Int.emod_nonneg _ (by decide)
  rw [Int32.toNat_toUInt32_of_le hpos, Int32.cast_toNatClampNeg _ hpos, hrest]

/-- The day of the year; adding `(unsigned)-3` takes three away. -/
theorem toNat_doy {m d : UInt32} (hm : 1 ≤ m.toNat ∧ m.toNat ≤ 12) (hd : 1 ≤ d.toNat ∧ d.toNat ≤ 31) :
    ((153 * (m + if m > 2 then -3 else 9) + 2) / 5 + d - 1).toNat = (153 * marchMonth m.toNat + 2) / 5 + d.toNat - 1 := by
  have hmonth : (m + if m > 2 then -3 else 9).toNat = marchMonth m.toNat := by
    unfold marchMonth
    by_cases h : m > 2
    · have h' : 2 < m.toNat := UInt32.lt_iff_toNat_lt.mp h
      rw [if_pos h, if_neg (by omega), UInt32.toNat_add, show (-3 : UInt32).toNat = 2 ^ 32 - 3 by decide]
      omega
    · have h' : ¬ 2 < m.toNat := fun hlt => h (UInt32.lt_iff_toNat_lt.mpr hlt)
      rw [if_neg h, if_pos (by omega), UInt32.toNat_add, show (9 : UInt32).toNat = 9 by decide]
      omega
  have hsmall : marchMonth m.toNat ≤ 11 := by
    unfold marchMonth
    split <;> omega
  have hstart : ((153 * (m + if m > 2 then -3 else 9) + 2) / 5).toNat = (153 * marchMonth m.toNat + 2) / 5 := by
    rw [UInt32.toNat_div, UInt32.toNat_add, UInt32.toNat_mul, hmonth, show (153 : UInt32).toNat = 153 by decide,
      show (2 : UInt32).toNat = 2 by decide, show (5 : UInt32).toNat = 5 by decide]
    omega
  rw [UInt32.toNat_sub, UInt32.toNat_add, hstart, show (1 : UInt32).toNat = 1 by decide]
  omega

/-- The day of the era. -/
theorem toNat_doe {yoe doy : UInt32} (hyoe : yoe.toNat < 400) (hdoy : doy.toNat < 400) :
    (yoe * 365 + yoe / 4 - yoe / 100 + doy).toNat = yoe.toNat * 365 + yoe.toNat / 4 - yoe.toNat / 100 + doy.toNat := by
  rw [UInt32.toNat_add, UInt32.toNat_sub, UInt32.toNat_add, UInt32.toNat_mul, UInt32.toNat_div, UInt32.toNat_div,
    show (365 : UInt32).toNat = 365 by decide, show (4 : UInt32).toNat = 4 by decide,
    show (100 : UInt32).toNat = 100 by decide]
  omega

theorem toInt_marchYear {y : Int32} {m : UInt32} (h : -2 ^ 30 < y.toInt) :
    (y - if m ≤ 2 then 1 else 0).toInt = marchYear y.toInt m.toNat := by
  have hhigh := y.toInt_lt
  unfold marchYear
  have hiff : m ≤ 2 ↔ m.toNat ≤ 2 := UInt32.le_iff_toNat_le
  by_cases hm : m ≤ 2
  · rw [if_pos hm, if_pos (hiff.mp hm), Int32.toInt_sub, show (1 : Int32).toInt = 1 by decide]
    exact Int.bmod_eq_of_le (by omega) (by omega)
  · rw [if_neg hm, if_neg (mt hiff.mpr hm), Int32.toInt_sub, show (0 : Int32).toInt = 0 by decide, Int.sub_zero]
    exact Int.bmod_eq_of_le (by omega) (by omega)

theorem cast_doe (n x : Nat) : ((n * 365 + n / 4 - n / 100 + x : Nat) : Int) = n * 365 + n / 4 - n / 100 + x := by
  omega

theorem bmod_int64 {i : Int} (hlow : -2 ^ 62 ≤ i) (hhigh : i < 2 ^ 62) : i.bmod (2 ^ 64) = i :=
  Int.bmod_eq_of_le (by omega) (by omega)

/-- Within the bounds of the types the function computes the formula. -/
theorem rrDaysFromCivil_eq {y : Int32} {m d : UInt32} (hy : -2 ^ 30 < y.toInt) (hm : 1 ≤ m.toNat ∧ m.toNat ≤ 12)
    (hd : 1 ≤ d.toNat ∧ d.toNat ≤ 31) :
    (rrDaysFromCivil y m d).toInt = civil (marchYear y.toInt m.toNat) (marchMonth m.toNat) d.toNat := by
  have hhigh := y.toInt_lt
  have hyear := @toInt_marchYear y m hy
  have hbound : -2 ^ 30 ≤ marchYear y.toInt m.toNat ∧ marchYear y.toInt m.toNat < 2 ^ 31 := by
    unfold marchYear
    split <;> omega
  have hmarch : marchMonth m.toNat ≤ 11 := by
    unfold marchMonth
    split <;> omega
  unfold rrDaysFromCivil
  dsimp only []
  generalize y - (if m ≤ 2 then 1 else 0) = y' at hyear ⊢
  have hera := @toInt_era y' (by rw [hyear]; exact hbound.1)
  generalize (if y' ≥ 0 then y' else y' - 399) / 400 = era at hera ⊢
  have hyoe := toNat_yoe (by rw [hyear]; exact hbound.1) hera
  generalize (y' - era * 400).toUInt32 = yoe at hyoe ⊢
  have hdoy := toNat_doy hm hd
  generalize (153 * (m + if m > 2 then -3 else 9) + 2) / 5 + d - 1 = doy at hdoy ⊢
  have hdoe := @toNat_doe yoe doy (by omega) (by omega)
  generalize yoe * 365 + yoe / 4 - yoe / 100 + doy = doe at hdoe ⊢
  have hlift : doe.toUInt64.toInt64.toInt = doe.toNat := by
    have hnat : doe.toUInt64 = UInt64.ofNat doe.toNat := UInt64.toNat_inj.mp (by simp)
    rw [hnat, UInt64.toInt64_ofNat']
    exact Int64.toInt_ofNat_of_lt (doe.toNat_lt.trans (by decide))
  rw [hyear] at hera hyoe
  unfold civil
  generalize marchYear y.toInt m.toNat = y₁ at hbound hera hyoe ⊢
  generalize marchMonth m.toNat = m₁ at hmarch hdoy ⊢
  have hera' : -2 ^ 22 ≤ era.toInt ∧ era.toInt < 2 ^ 23 := by omega
  have hdoe' : doe.toNat < 2 ^ 18 := by omega
  have htotal : (era.toInt64 * 146097 + doe.toUInt64.toInt64 - 719468).toInt = era.toInt * 146097 + doe.toNat - 719468 := by
    clear hera hyoe hdoy hdoe
    rw [Int64.toInt_sub, Int64.toInt_add, Int64.toInt_mul, Int32.toInt_toInt64, hlift,
      show (146097 : Int64).toInt = 146097 by decide, show (719468 : Int64).toInt = 719468 by decide,
      bmod_int64 (i := era.toInt * 146097) (by omega) (by omega), bmod_int64 (i := era.toInt * 146097 + doe.toNat) (by omega)
        (by omega)]
    exact bmod_int64 (by omega) (by omega)
  rw [htotal, hera, hdoe, cast_doe, hdoy, ← hyoe]

/-! ## The calendar -/

theorem toNat_ofNat_month (a : Date) : (UInt32.ofNat a.month).toNat = a.month := by
  have := a.month_mem
  exact UInt32.toNat_ofNat_of_lt' (show a.month < 4294967296 by omega)

theorem day_le (a : Date) : a.day ≤ 31 := by
  refine a.day_mem.2.trans ?_
  unfold daysInMonth
  split
  · split <;> omega
  all_goals omega

theorem toNat_ofNat_day (a : Date) : (UInt32.ofNat a.day).toNat = a.day := by
  have := day_le a
  exact UInt32.toNat_ofNat_of_lt' (show a.day < 4294967296 by omega)

theorem daysOf_eq {a : Date} (h : a.year.natAbs < 2 ^ 30) : daysOf a = civilDays a := by
  have hyear : (Int32.ofInt a.year).toInt = a.year := Int32.toInt_ofInt_of_le (by omega) (by omega)
  have hmonth := toNat_ofNat_month a
  have hday := toNat_ofNat_day a
  rw [daysOf, rrDaysFromCivil_eq (by omega) (by rw [hmonth]; exact a.month_mem) (by rw [hday]; exact ⟨a.day_mem.1, day_le a⟩),
    hyear, hmonth, hday, civilDays]

/-- The number of a date is that of the days from 1970-01-01 to it, and it grows by one from each date to the next. -/
theorem rrDaysFromCivil_counts (a : Date) (h : a.year.natAbs < 2 ^ 30) : (∀ n, DaysFrom epoch a n ↔ n = daysOf a) ∧
    (a.next.year.natAbs < 2 ^ 30 → daysOf a.next = daysOf a + 1) := by
  constructor
  · intro n
    rw [daysFrom_iff civilDays_next, daysOf_eq h, show civilDays epoch = 0 by decide, Int.sub_zero]
  · intro hnext
    rw [daysOf_eq hnext, daysOf_eq h, civilDays_next]

/-- The leap day of a century. -/
def leapDay : Date := ⟨2000, 2, 29, by decide, by decide⟩

theorem rrDaysFromCivil_counts_leapDay : (∀ n, DaysFrom epoch leapDay n ↔ n = daysOf leapDay) ∧
    daysOf leapDay.next = daysOf leapDay + 1 :=
  ⟨(rrDaysFromCivil_counts leapDay (by decide)).1, (rrDaysFromCivil_counts leapDay (by decide)).2 (by decide)⟩

example : daysOf leapDay = 11016 := by decide

end Guppy.Iso
