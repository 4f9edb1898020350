import Mathlib.Algebra.BigOperators.Group.Finset.Basic
import Mathlib.Tactic

set_option autoImplicit false

/-! # Canonical prefix codes

A canonical code is given by the lengths of its codewords: the codewords of a length are numbered one after the other,
and the first of them is twice the number behind the last one that is shorter by one (`firstCode`). If the lengths are not
over-subscribed, all codewords of a length fit it (`fits_iff`). A codeword is recognized by its length alone: what it
starts with lies behind the codewords of that length (`endCode_le_div`).
-/

namespace Guppy.Canonical

/-- The bits of a number, the most significant first. -/
def msbBits : Nat → Nat → List Bool
  | 0, _ => []
  | n + 1, c => c.testBit n :: msbBits n c

/-- What a number starts with, one bit longer. -/
theorem div_succ (c n : Nat) : c / 2 ^ n = 2 * (c / 2 ^ (n + 1)) + (c.testBit n).toNat := by
  have hbit : (c.testBit n).toNat = c / 2 ^ n % 2 := by
    rw [Nat.testBit_eq_decide_div_mod_eq]
    rcases Nat.mod_two_eq_zero_or_one (c / 2 ^ n) with h | h
    · simp [h]
    · simp [h]
  have hdiv : c / 2 ^ (n + 1) = c / 2 ^ n / 2 := by rw [Nat.pow_succ, Nat.div_div_eq_div_mul]
  omega

section

variable (g : Nat → Nat)

/-- How many codewords have a length; the length 0 is for symbols without a codeword. -/
def used (l : Nat) : Nat := if l = 0 then 0 else g l

/-- The first codeword of a length: `code = (code + bl_count[bits-1]) << 1` -/
def firstCode : Nat → Nat
  | 0 => 0
  | l + 1 => 2 * (firstCode l + used g l)

/-- The number behind the last codeword of a length. -/
def endCode (l : Nat) : Nat := firstCode g l + used g l

variable {g}

@[simp] theorem used_succ (l : Nat) : used g (l + 1) = g (l + 1) := rfl

theorem used_of_pos {l : Nat} (h : 0 < l) : used g l = g l := if_neg (by omega)

theorem endCode_zero : endCode g 0 = 0 := rfl

theorem firstCode_succ (l : Nat) : firstCode g (l + 1) = 2 * endCode g l := rfl

theorem endCode_succ (l : Nat) : endCode g (l + 1) = 2 * endCode g l + g (l + 1) := rfl

theorem two_pow_mul_endCode_le (l d : Nat) : 2 ^ d * endCode g l ≤ endCode g (l + d) := by
  induction d with
  | zero => exact (Nat.one_mul _).le
  | succ d ih =>
      rw [← Nat.add_assoc, endCode_succ, Nat.pow_succ]
      calc 2 ^ d * 2 * endCode g l = 2 * (2 ^ d * endCode g l) := by ring
        _ ≤ 2 * endCode g (l + d) := Nat.mul_le_mul_left 2 ih
        _ ≤ 2 * endCode g (l + d) + g (l + d + 1) := Nat.le_add_right _ _

/-- A codeword starts with a number behind the codewords of each shorter length. -/
theorem endCode_le_div {l d c : Nat} (hc : firstCode g (l + (d + 1)) ≤ c) : endCode g l ≤ c / 2 ^ (d + 1) := by
  rw [Nat.le_div_iff_mul_le (Nat.two_pow_pos _)]
  rw [← Nat.add_assoc, firstCode_succ] at hc
  calc endCode g l * 2 ^ (d + 1) = 2 * (2 ^ d * endCode g l) := by ring
    _ ≤ 2 * endCode g (l + d) := Nat.mul_le_mul_left 2 (two_pow_mul_endCode_le l d)
    _ ≤ c := hc

/-- The codewords fit their lengths if those of the last length do. -/
theorem fits_iff {m : Nat} : (∀ l ≤ m, endCode g l ≤ 2 ^ l) ↔ endCode g m ≤ 2 ^ m := by
  constructor
  · exact fun h => h m le_rfl
  · intro h l hl
    obtain ⟨d, rfl⟩ := Nat.exists_eq_add_of_le hl
    have hmul : 2 ^ d * endCode g l ≤ 2 ^ d * 2 ^ l := by
      calc 2 ^ d * endCode g l ≤ endCode g (l + d) := two_pow_mul_endCode_le l d
        _ ≤ 2 ^ (l + d) := h
        _ = 2 ^ d * 2 ^ l := by rw [Nat.pow_add, Nat.mul_comm]
    exact Nat.le_of_mul_le_mul_left hmul (Nat.two_pow_pos d)

/-- The sum of Kraft: a codeword of length `l` takes `2 ^ (m - l)` of the `2 ^ m` places. -/
theorem endCode_eq_sum (m : Nat) : endCode g m = ∑ j ∈ Finset.range m, g (j + 1) * 2 ^ (m - (j + 1)) := by
  induction m with
  | zero => rfl
  | succ m ih =>
      rw [endCode_succ, ih, Finset.sum_range_succ, Nat.sub_self, Nat.pow_zero, Nat.mul_one, Finset.mul_sum]
      congr 1
      refine Finset.sum_congr rfl fun j hj => ?_
      have hlt := Finset.mem_range.mp hj
      rw [show m + 1 - (j + 1) = m - (j + 1) + 1 by omega, Nat.pow_succ]
      ring

end

/-- The sum of Kraft over the lengths of the symbols. -/
def kraftSum (m : Nat) (ls : List Nat) : Nat := ((ls.filter (· ≠ 0)).map fun l => 2 ^ (m - l)).sum

theorem kraftSum_eq {m : Nat} {ls : List Nat} (h : ∀ l ∈ ls, l ≤ m) : kraftSum m ls = endCode (fun l => ls.count l) m := by
  rw [endCode_eq_sum]
  induction ls with
  | nil => simp [kraftSum]
  | cons a ls ih =>
      obtain ⟨ha, hls⟩ := List.forall_mem_cons.mp h
      have hrest : ∑ j ∈ Finset.range m, (a :: ls).count (j + 1) * 2 ^ (m - (j + 1)) =
          ∑ j ∈ Finset.range m, ls.count (j + 1) * 2 ^ (m - (j + 1)) +
            ∑ j ∈ Finset.range m, if j + 1 = a then 2 ^ (m - (j + 1)) else 0 := by
        rw [← Finset.sum_add_distrib]
        refine Finset.sum_congr rfl fun j _ => ?_
        rw [List.count_cons, Nat.add_mul]
        congr 1
        by_cases hj : j + 1 = a
        · simp [hj]
        · simp [hj, Ne.symm hj]
      rw [hrest, ← ih hls, kraftSum, kraftSum]
      by_cases h0 : a = 0
      · rw [List.filter_cons_of_neg (by simp [h0]), Finset.sum_eq_zero fun j _ => if_neg (by omega), Nat.add_zero]
      · rw [List.filter_cons_of_pos (by simp [h0]), List.map_cons, List.sum_cons,
          Finset.sum_eq_single_of_mem (a - 1) (Finset.mem_range.mpr (by omega)) fun j _ hj => if_neg (by omega),
          if_pos (by omega), Nat.sub_add_cancel (by omega), Nat.add_comm]

end Guppy.Canonical
