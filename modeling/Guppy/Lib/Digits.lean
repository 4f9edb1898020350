import Mathlib.Data.Nat.Log
import Mathlib.Tactic.Ring

set_option autoImplicit false

/-! # Numerals as text

Numbers written in a base of at most ten, as the ASCII digits of a text, most significant digit
first: with a fixed number of digits (`fixed`), or with as many as it takes (`numeral`). `value`
reads them back.
-/

namespace Guppy.Digits

/-- The digit `d`. -/
def digit (d : Nat) : UInt8 := UInt8.ofNat (48 + d)

/-- The last `w` digits of a number. -/
def fixed (b : Nat) : Nat → Nat → List UInt8
  | 0, _ => []
  | w + 1, v => fixed b w (v / b) ++ [digit (v % b)]

/-- The digits of a number, with no zeros before them. -/
def numeral (b v : Nat) : List UInt8 := fixed b (Nat.log b v + 1) v

def value (b : Nat) (t : List UInt8) : Nat := t.foldl (fun v c => v * b + (c.toNat - 48)) 0

theorem digit_toNat {d : Nat} (h : d < 10) : (digit d).toNat = 48 + d := by
  unfold digit
  rw [UInt8.toNat_ofNat']
  exact Nat.mod_eq_of_lt (by omega)

theorem length_fixed (b w : Nat) : ∀ v, (fixed b w v).length = w := by
  induction w with
  | zero => exact fun _ => rfl
  | succ w ih =>
      intro v
      rw [fixed, List.length_append, ih]
      rfl

section

variable {b : Nat} (h₀ : 0 < b) (h₁ : b ≤ 10)
include h₀ h₁

/-- A digit of the base. -/
theorem mem_fixed {w : Nat} : ∀ {v : Nat} {c : UInt8}, c ∈ fixed b w v → 48 ≤ c.toNat ∧ c.toNat < 48 + b := by
  induction w with
  | zero =>
      intro v c hc
      cases hc
  | succ w ih =>
      intro v c hc
      rcases List.mem_append.mp hc with hc | hc
      · exact ih hc
      · rw [List.mem_singleton.mp hc]
        have hlt : v % b < b := Nat.mod_lt v h₀
        rw [digit_toNat (by omega)]
        omega

theorem value_fixed (w : Nat) : ∀ v, value b (fixed b w v) = v % b ^ w := by
  induction w with
  | zero =>
      intro v
      rw [Nat.pow_zero, Nat.mod_one]
      rfl
  | succ w ih =>
      intro v
      have hlt : v % b < b := Nat.mod_lt v h₀
      have hih : (fixed b w (v / b)).foldl (fun v c => v * b + (c.toNat - 48)) 0 = v / b % b ^ w := ih (v / b)
      calc value b (fixed b (w + 1) v)
          = v / b % b ^ w * b + v % b := by
            rw [value, fixed, List.foldl_append, hih, List.foldl_cons, List.foldl_nil, digit_toNat (by omega)]
            omega
        _ = v % b ^ (w + 1) := by
            rw [Nat.pow_succ', Nat.mod_mul]
            ring

end

section

variable {b : Nat} (h₂ : 2 ≤ b) (h₁ : b ≤ 10)
include h₂ h₁

theorem mem_numeral {v : Nat} {c : UInt8} (hc : c ∈ numeral b v) : 48 ≤ c.toNat ∧ c.toNat < 48 + b :=
  mem_fixed (by omega) h₁ hc

theorem value_numeral (v : Nat) : value b (numeral b v) = v := by
  rw [numeral, value_fixed (by omega) h₁]
  exact Nat.mod_eq_of_lt (Nat.lt_pow_succ_log_self (by omega) v)

end

theorem length_numeral (b v : Nat) : (numeral b v).length = Nat.log b v + 1 := length_fixed ..

/-- A number has at most `w` digits if it is below `b ^ w`. -/
theorem length_numeral_le {b v w : Nat} (hw : 0 < w) (h : v < b ^ w) : (numeral b v).length ≤ w := by
  rw [length_numeral]
  exact Nat.log_lt_of_lt_pow' (by omega) h

/-! ## Bounds -/

theorem foldl_value_lt {b : Nat} (hb : 0 < b) (t : List UInt8) : ∀ v : Nat, (∀ c ∈ t, c.toNat < 48 + b) →
    t.foldl (fun v c => v * b + (c.toNat - 48)) v < (v + 1) * b ^ t.length := by
  induction t with
  | nil => exact fun v _ => by simp
  | cons c t ih =>
      intro v hd
      have hc := hd c (List.mem_cons_self ..)
      have hexpand : (v + 1) * b = v * b + b := by ring
      have hmul : (v * b + (c.toNat - 48) + 1) * b ^ t.length ≤ (v + 1) * b * b ^ t.length :=
        Nat.mul_le_mul_right _ (by omega)
      calc (c :: t).foldl (fun v c => v * b + (c.toNat - 48)) v
          < (v * b + (c.toNat - 48) + 1) * b ^ t.length := ih _ (fun c hc => hd c (List.mem_cons_of_mem _ hc))
        _ ≤ (v + 1) * b * b ^ t.length := hmul
        _ = (v + 1) * b ^ (c :: t).length := by rw [List.length_cons, Nat.pow_succ']; ring

/-- A number of `n` digits is below `b ^ n`. -/
theorem value_lt {b : Nat} {t : List UInt8} (hb : 0 < b) (h : ∀ c ∈ t, c.toNat < 48 + b) : value b t < b ^ t.length :=
  calc value b t < (0 + 1) * b ^ t.length := foldl_value_lt hb t 0 h
    _ = b ^ t.length := by rw [Nat.zero_add, Nat.one_mul]

theorem le_foldl_value {b : Nat} (t : List UInt8) : ∀ v : Nat,
    v * b ^ t.length ≤ t.foldl (fun v c => v * b + (c.toNat - 48)) v := by
  induction t with
  | nil => exact fun v => by simp
  | cons c t ih =>
      intro v
      calc v * b ^ (c :: t).length = v * b * b ^ t.length := by rw [List.length_cons, Nat.pow_succ']; ring
        _ ≤ (v * b + (c.toNat - 48)) * b ^ t.length := Nat.mul_le_mul_right _ (by omega)
        _ ≤ (c :: t).foldl (fun v c => v * b + (c.toNat - 48)) v := ih _

/-- A number whose first digit is not zero has a digit for each power below it. -/
theorem pow_le_value {b : Nat} {c : UInt8} (t : List UInt8) (hc : 48 < c.toNat) : b ^ t.length ≤ value b (c :: t) :=
  calc b ^ t.length ≤ (0 * b + (c.toNat - 48)) * b ^ t.length := Nat.le_mul_of_pos_left _ (by omega)
    _ ≤ value b (c :: t) := le_foldl_value t _

end Guppy.Digits
