import Mathlib.Logic.Function.Iterate
import Mathlib.Order.Basic
import Mathlib.Tactic

set_option autoImplicit false

/-! # The Gregorian calendar

Dates of the proleptic Gregorian calendar, and the date after each (`Date.next`). Of two dates one is reached from the
other (`reaches_total`), so a count that grows by one from each date to the next is the number of days between them
(`daysFrom_iff`).
-/

namespace Guppy.Calendar

/-- Every fourth year is a leap year, but of the centuries only every fourth. -/
def IsLeap (y : Int) : Prop := y % 4 = 0 ∧ (y % 100 ≠ 0 ∨ y % 400 = 0)

instance : DecidablePred IsLeap := fun y => inferInstanceAs (Decidable (y % 4 = 0 ∧ (y % 100 ≠ 0 ∨ y % 400 = 0)))

def daysInMonth (y : Int) : Nat → Nat
  | 2 => if IsLeap y then 29 else 28
  | 4 | 6 | 9 | 11 => 30
  | _ => 31

theorem daysInMonth_pos (y : Int) (m : Nat) : 1 ≤ daysInMonth y m := by
  unfold daysInMonth
  split
  · split <;> omega
  all_goals omega

structure Date where
  year : Int
  month : Nat
  day : Nat
  month_mem : 1 ≤ month ∧ month ≤ 12
  day_mem : 1 ≤ day ∧ day ≤ daysInMonth year month

/-- The first day of a month. -/
def monthStart (y : Int) (m : Nat) (hm : 1 ≤ m ∧ m ≤ 12) : Date := ⟨y, m, 1, hm, le_rfl, daysInMonth_pos y m⟩

/-- The first day of a year. -/
def yearStart (y : Int) : Date := monthStart y 1 ⟨le_rfl, by decide⟩

/-- The next day. -/
def Date.next (a : Date) : Date :=
  if h : a.day < daysInMonth a.year a.month then ⟨a.year, a.month, a.day + 1, a.month_mem, Nat.le_add_left 1 a.day, h⟩
  else if h : a.month < 12 then monthStart a.year (a.month + 1) ⟨Nat.le_add_left 1 a.month, h⟩
  else yearStart (a.year + 1)

/-- From `a` to `b` it is `n` days, where a negative number leads back. -/
def DaysFrom (a b : Date) (n : Int) : Prop :=
  (∃ k : Nat, n = k ∧ Date.next^[k] a = b) ∨ ∃ k : Nat, n = -k ∧ Date.next^[k] b = a

/-- The one date comes to the other. -/
def Reaches (a b : Date) : Prop := ∃ k : Nat, Date.next^[k] a = b

section Next

variable {a b c : Date}

theorem next_of_lt (h : a.day < daysInMonth a.year a.month) :
    a.next = ⟨a.year, a.month, a.day + 1, a.month_mem, Nat.le_add_left 1 a.day, h⟩ := dif_pos h

theorem next_of_last (hd : a.day = daysInMonth a.year a.month) (h : a.month < 12) :
    a.next = monthStart a.year (a.month + 1) ⟨Nat.le_add_left 1 a.month, h⟩ := by
  rw [Date.next, dif_neg (by omega), dif_pos h]

theorem next_of_december (hd : a.day = daysInMonth a.year a.month) (h : a.month = 12) : a.next = yearStart (a.year + 1) := by
  rw [Date.next, dif_neg (by omega), dif_neg (by omega)]

theorem Reaches.refl (a : Date) : Reaches a a := ⟨0, rfl⟩

theorem Reaches.trans (hab : Reaches a b) (hbc : Reaches b c) : Reaches a c := by
  obtain ⟨j, rfl⟩ := hab
  obtain ⟨k, rfl⟩ := hbc
  exact ⟨k + j, Function.iterate_add_apply ..⟩

theorem reaches_next (a : Date) : Reaches a a.next := ⟨1, rfl⟩

/-! ## Along a month and a year -/

theorem reaches_day {y : Int} {m : Nat} (hm : 1 ≤ m ∧ m ≤ 12) {d : Nat} (hd : 1 ≤ d ∧ d ≤ daysInMonth y m) (k : Nat) :
    ∀ hk : 1 ≤ d + k ∧ d + k ≤ daysInMonth y m, Reaches ⟨y, m, d, hm, hd⟩ ⟨y, m, d + k, hm, hk⟩ := by
  induction k with
  | zero => exact fun _ => Reaches.refl _
  | succ k ih =>
      intro hk
      have hstep := reaches_next ⟨y, m, d + k, hm, by omega, by omega⟩
      rw [next_of_lt (show d + k < daysInMonth y m by omega)] at hstep
      exact (ih ⟨by omega, by omega⟩).trans hstep

/-- The last day of the month of a date. -/
def Date.monthEnd (a : Date) : Date :=
  ⟨a.year, a.month, daysInMonth a.year a.month, a.month_mem, daysInMonth_pos _ _, le_rfl⟩

theorem reaches_of_day_le {y : Int} {m : Nat} (hm : 1 ≤ m ∧ m ≤ 12) {d d' : Nat} (hd : 1 ≤ d ∧ d ≤ daysInMonth y m)
    (hd' : 1 ≤ d' ∧ d' ≤ daysInMonth y m) (h : d ≤ d') : Reaches ⟨y, m, d, hm, hd⟩ ⟨y, m, d', hm, hd'⟩ := by
  obtain ⟨k, rfl⟩ := Nat.exists_eq_add_of_le h
  exact reaches_day hm hd k hd'

theorem reaches_monthEnd (a : Date) : Reaches a a.monthEnd := reaches_of_day_le a.month_mem a.day_mem _ a.day_mem.2

theorem reaches_next_month (h : a.month < 12) : Reaches a (monthStart a.year (a.month + 1) ⟨Nat.le_add_left 1 a.month, h⟩) := by
  have hstep := reaches_next a.monthEnd
  rw [next_of_last (a := a.monthEnd) rfl h] at hstep
  exact (reaches_monthEnd a).trans hstep

theorem reaches_month {y : Int} {m : Nat} (hm : 1 ≤ m ∧ m ≤ 12) (k : Nat) : ∀ hk : 1 ≤ m + k ∧ m + k ≤ 12,
    Reaches (monthStart y m hm) (monthStart y (m + k) hk) := by
  induction k with
  | zero => exact fun _ => Reaches.refl _
  | succ k ih =>
      intro hk
      exact (ih ⟨by omega, by omega⟩).trans
        (@reaches_next_month (monthStart y (m + k) ⟨by omega, by omega⟩) (show m + k < 12 by omega))

/-- A later month of the same year. -/
theorem reaches_of_month_lt (hy : a.year = b.year) (hm : a.month < b.month) : Reaches a b := by
  obtain ⟨y, m', d', hm', hd'⟩ := b
  cases hy
  obtain ⟨k, rfl⟩ : ∃ k, m' = a.month + 1 + k := ⟨m' - (a.month + 1), by dsimp only [] at hm; omega⟩
  have hlt : a.month < 12 := by omega
  exact (reaches_next_month hlt).trans ((reaches_month _ k hm').trans (reaches_of_day_le hm' _ hd' hd'.1))

theorem reaches_next_year (a : Date) : Reaches a (yearStart (a.year + 1)) := by
  have hend : Reaches a (⟨a.year, 12, 31, ⟨by decide, le_rfl⟩, by decide, le_rfl⟩ : Date) := by
    by_cases h : a.month = 12
    · obtain ⟨y, m, d, hm, hd⟩ := a
      cases h
      exact reaches_of_day_le hm hd _ hd.2
    · exact reaches_of_month_lt rfl (by have := a.month_mem; dsimp only []; omega)
  exact hend.trans (reaches_next _)

theorem reaches_year (y : Int) (k : Nat) : Reaches (yearStart y) (yearStart (y + k)) := by
  induction k with
  | zero =>
      rw [Nat.cast_zero, Int.add_zero]
      exact Reaches.refl _
  | succ k ih =>
      rw [Nat.cast_succ, ← Int.add_assoc]
      exact ih.trans (reaches_next_year _)

theorem reaches_of_yearStart (a : Date) : Reaches (yearStart a.year) a := by
  by_cases h : a.month = 1
  · obtain ⟨y, m, d, hm, hd⟩ := a
    cases h
    exact reaches_of_day_le hm _ hd hd.1
  · exact reaches_of_month_lt rfl (show 1 < a.month by have := a.month_mem; omega)

theorem reaches_of_year_lt (h : a.year < b.year) : Reaches a b := by
  obtain ⟨k, hk⟩ : ∃ k : Nat, b.year = a.year + 1 + k := ⟨(b.year - (a.year + 1)).toNat, by omega⟩
  have hyears := reaches_year (a.year + 1) k
  rw [← hk] at hyears
  exact (reaches_next_year a).trans (hyears.trans (reaches_of_yearStart b))

/-- Of two dates one comes to the other. -/
theorem reaches_total (a b : Date) : Reaches a b ∨ Reaches b a := by
  rcases lt_trichotomy a.year b.year with hy | hy | hy
  · exact Or.inl (reaches_of_year_lt hy)
  · rcases lt_trichotomy a.month b.month with hm | hm | hm
    · exact Or.inl (reaches_of_month_lt hy hm)
    · obtain ⟨y, m, d, hm', hd⟩ := a
      obtain ⟨y', m', d', _, hd'⟩ := b
      cases hy
      cases hm
      exact (Nat.le_total d d').imp (reaches_of_day_le hm' hd hd') (reaches_of_day_le hm' hd' hd)
    · exact Or.inr (reaches_of_month_lt hy.symm hm)
  · exact Or.inr (reaches_of_year_lt hy)

end Next

/-! ## Counting days -/

section Count

variable {number : Date → Int} (hnumber : ∀ a : Date, number a.next = number a + 1)

include hnumber

theorem number_iterate (a : Date) (k : Nat) : number (Date.next^[k] a) = number a + k := by
  induction k with
  | zero => exact (Int.add_zero _).symm
  | succ k ih => rw [Function.iterate_succ_apply', hnumber, ih, Nat.cast_succ, Int.add_assoc]

/-- A count that grows by one from day to day gives the number of days between two dates. -/
theorem daysFrom_iff (a b : Date) (n : Int) : DaysFrom a b n ↔ n = number b - number a := by
  constructor
  · rintro (⟨k, rfl, rfl⟩ | ⟨k, rfl, rfl⟩)
    · rw [number_iterate hnumber, add_sub_cancel_left]
    · rw [number_iterate hnumber]
      omega
  · rintro rfl
    rcases reaches_total a b with ⟨k, rfl⟩ | ⟨k, rfl⟩
    · exact Or.inl ⟨k, by rw [number_iterate hnumber, add_sub_cancel_left], rfl⟩
    · exact Or.inr ⟨k, by rw [number_iterate hnumber]; omega, rfl⟩

end Count

end Guppy.Calendar
