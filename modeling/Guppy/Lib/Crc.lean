import Mathlib.RingTheory.AdjoinRoot
import Mathlib.Algebra.CharP.Two
import Mathlib.Algebra.Field.ZMod
import Mathlib.Data.ZMod.Basic
import Mathlib.Data.Nat.Bitwise

set_option autoImplicit false

/-! # Cyclic redundancy checks

A checksum register of `w` bits is a polynomial over the field of two elements, lowest bit first: the
lowest bit is the coefficient of the highest power (`reg`). Shifting a bit out of it multiplies by `X`,
modulo the generator (`shift_mod`). So a loop that takes a message byte by byte computes the remainder
of the message, moved up by the width of the register, after the bits that it started with
(`Holds.byte`, `Holds.isCrc`).
-/

namespace Guppy.Crc

open Polynomial

/-! ## Registers -/

/-- The polynomial of a register of `w` bits. -/
noncomputable def reg (w c : Nat) : (ZMod 2)[X] :=
  ∑ i ∈ Finset.range w, if c.testBit i = true then X ^ (w - 1 - i) else 0

/-- The polynomial that the register is reduced by. -/
noncomputable def gen (w p : Nat) : (ZMod 2)[X] := X ^ w + reg w p

/-- One bit out of the register. -/
def shift (p c : Nat) : Nat := if c.testBit 0 = true then p ^^^ (c / 2) else c / 2

variable {w p : Nat}

theorem reg_xor (w a b : Nat) : reg w (a ^^^ b) = reg w a + reg w b := by
  unfold reg
  rw [← Finset.sum_add_distrib]
  refine Finset.sum_congr rfl fun i _ => ?_
  rw [Nat.testBit_xor]
  cases a.testBit i <;> cases b.testBit i <;> simp [CharTwo.add_self_eq_zero]

theorem reg_mem (w c : Nat) : reg w c ∈ degreeLT (ZMod 2) w := by
  unfold reg
  refine Submodule.sum_mem _ fun i hi => ?_
  have hi := Finset.mem_range.mp hi
  split
  · rw [mem_degreeLT, degree_X_pow]
    exact_mod_cast (by omega : w - 1 - i < w)
  · exact Submodule.zero_mem _

theorem reg_degree (w c : Nat) : (reg w c).degree < w := mem_degreeLT.mp (reg_mem w c)

/-- The bits of a register are the coefficients of its polynomial. -/
theorem reg_coeff {c i : Nat} (hi : i < w) : (reg w c).coeff (w - 1 - i) = if c.testBit i = true then 1 else 0 := by
  unfold reg
  rw [finsetSum_coeff, Finset.sum_eq_single i]
  · split <;> simp
  · intro j hj hne
    have hj := Finset.mem_range.mp hj
    split
    · rw [coeff_X_pow, if_neg (by omega)]
    · exact coeff_zero _
  · exact fun h => absurd (Finset.mem_range.mpr hi) h

theorem reg_injective {a b : Nat} (ha : a < 2 ^ w) (hb : b < 2 ^ w) (h : reg w a = reg w b) : a = b := by
  refine Nat.eq_of_testBit_eq fun i => ?_
  by_cases hi : i < w
  · have hcoeff := congrArg (fun q => q.coeff (w - 1 - i)) h
    rw [reg_coeff hi, reg_coeff hi] at hcoeff
    cases ha : a.testBit i <;> cases hb : b.testBit i <;> simp_all
  · have hpow : 2 ^ w ≤ 2 ^ i := Nat.pow_le_pow_right (by decide) (by omega)
    rw [Nat.testBit_lt_two_pow (ha.trans_le hpow), Nat.testBit_lt_two_pow (hb.trans_le hpow)]

/-- A register in a wider one. -/
theorem reg_succ {c : Nat} (h : c < 2 ^ w) : reg (w + 1) c = X * reg w c := by
  unfold reg
  rw [Finset.sum_range_succ, Nat.testBit_lt_two_pow h, if_neg Bool.false_ne_true, add_zero, Finset.mul_sum]
  refine Finset.sum_congr rfl fun i hi => ?_
  have hi := Finset.mem_range.mp hi
  split
  · rw [← pow_succ']
    congr 1
    omega
  · rw [mul_zero]

theorem reg_wide {c : Nat} (h : c < 2 ^ w) (k : Nat) : reg (w + k) c = X ^ k * reg w c := by
  induction k with
  | zero => rw [pow_zero, one_mul, Nat.add_zero]
  | succ k ih =>
      have hk : c < 2 ^ (w + k) := h.trans_le (Nat.pow_le_pow_right (by decide) (Nat.le_add_right ..))
      rw [← Nat.add_assoc, reg_succ hk, ih, ← mul_assoc, ← pow_succ']

/-- Halving a register multiplies its polynomial by `X`, except for the bit that falls out. -/
theorem reg_half {c : Nat} (h : c < 2 ^ (w + 1)) :
    X * reg (w + 1) c = reg (w + 1) (c / 2) + if c.testBit 0 = true then X ^ (w + 1) else 0 := by
  unfold reg
  rw [Finset.sum_range_succ', mul_add, Finset.sum_range_succ, Nat.testBit_div_two, Nat.testBit_lt_two_pow h,
    if_neg Bool.false_ne_true, add_zero, Finset.mul_sum]
  congr 1
  · refine Finset.sum_congr rfl fun i hi => ?_
    have hi := Finset.mem_range.mp hi
    rw [Nat.testBit_div_two]
    split
    · rw [← pow_succ']
      congr 1
      omega
    · rw [mul_zero]
  · split
    · rw [← pow_succ']
      rfl
    · rw [mul_zero]

/-! ## Shifting -/

theorem gen_monic (w p : Nat) : (gen w p).Monic := monic_X_pow_add (reg_degree w p)

theorem gen_degree (w p : Nat) : (gen w p).degree = w := by
  unfold gen
  rw [degree_add_eq_left_of_degree_lt]
  · exact degree_X_pow w
  · rw [degree_X_pow]
    exact reg_degree w p

theorem shift_lt {c : Nat} (hp : p < 2 ^ w) (hc : c < 2 ^ w) : shift p c < 2 ^ w := by
  have hhalf : c / 2 < 2 ^ w := (Nat.div_le_self c 2).trans_lt hc
  unfold shift
  split
  · exact Nat.xor_lt_two_pow hp hhalf
  · exact hhalf

/-- Shifting a bit out multiplies by `X`, modulo the generator. -/
theorem shift_mod {c : Nat} (hw : 0 < w) (hc : c < 2 ^ w) :
    AdjoinRoot.mk (gen w p) (reg w (shift p c)) = AdjoinRoot.mk (gen w p) (X * reg w c) := by
  obtain ⟨w, rfl⟩ : ∃ n, w = n + 1 := ⟨w - 1, by omega⟩
  rw [AdjoinRoot.mk_eq_mk, reg_half hc]
  unfold shift
  split
  · -- the bit that fell out is the highest power of the generator
    rw [reg_xor]
    refine ⟨1, ?_⟩
    unfold gen
    calc reg (w + 1) p + reg (w + 1) (c / 2) - (reg (w + 1) (c / 2) + X ^ (w + 1))
        = reg (w + 1) p - X ^ (w + 1) := by ring
      _ = (X ^ (w + 1) + reg (w + 1) p) * 1 := by
          rw [CharTwo.sub_eq_add, mul_one, add_comm]
  · rw [add_zero, sub_self]
    exact dvd_zero _

theorem shift_iterate {c : Nat} (hw : 0 < w) (hp : p < 2 ^ w) (hc : c < 2 ^ w) (n : Nat) :
    (shift p)^[n] c < 2 ^ w ∧
      AdjoinRoot.mk (gen w p) (reg w ((shift p)^[n] c)) = AdjoinRoot.mk (gen w p) (X ^ n * reg w c) := by
  induction n with
  | zero =>
      rw [pow_zero, one_mul]
      exact ⟨hc, rfl⟩
  | succ n ih =>
      rw [Function.iterate_succ_apply']
      refine ⟨shift_lt hp ih.1, ?_⟩
      calc AdjoinRoot.mk (gen w p) (reg w (shift p ((shift p)^[n] c)))
          = AdjoinRoot.mk (gen w p) X * AdjoinRoot.mk (gen w p) (reg w ((shift p)^[n] c)) := by
            rw [shift_mod hw ih.1, map_mul]
        _ = AdjoinRoot.mk (gen w p) (X ^ (n + 1) * reg w c) := by
            rw [ih.2, ← map_mul, ← mul_assoc, ← pow_succ']

theorem shift_xor (a b : Nat) : shift p (a ^^^ b) = shift p a ^^^ shift p b := by
  unfold shift
  rw [Nat.testBit_xor, Nat.xor_div_two]
  cases a.testBit 0 <;> cases b.testBit 0
  · rfl
  · show p ^^^ (a / 2 ^^^ b / 2) = a / 2 ^^^ (p ^^^ b / 2)
    rw [Nat.xor_left_comm]
  · exact (Nat.xor_assoc ..).symm
  · show a / 2 ^^^ b / 2 = p ^^^ a / 2 ^^^ (p ^^^ b / 2)
    rw [Nat.xor_comm p (a / 2), Nat.xor_assoc, ← Nat.xor_assoc p p, Nat.xor_self, Nat.zero_xor]

theorem shift_iterate_xor (n a b : Nat) : (shift p)^[n] (a ^^^ b) = (shift p)^[n] a ^^^ (shift p)^[n] b := by
  induction n generalizing a b with
  | zero => rfl
  | succ n ih => rw [Function.iterate_succ_apply, shift_xor, ih, Function.iterate_succ_apply, Function.iterate_succ_apply]

/-- Zeros fall out of the register. -/
theorem shift_iterate_zeros (n a : Nat) : (shift p)^[n] (2 ^ n * a) = a := by
  induction n with
  | zero => exact Nat.one_mul a
  | succ n ih =>
      have heven : (2 ^ (n + 1) * a).testBit 0 = false := by
        rw [Nat.testBit_zero, Nat.pow_succ', Nat.mul_assoc, Nat.mul_mod_right]
        rfl
      rw [Function.iterate_succ_apply, shift, if_neg (by rw [heven]; exact Bool.false_ne_true), Nat.pow_succ', Nat.mul_assoc,
        Nat.mul_div_cancel_left _ (by decide), ih]

/-- A table with the last `n` bits worked out. -/
theorem shift_iterate_table (n x : Nat) : (shift p)^[n] x = (shift p)^[n] (x % 2 ^ n) ^^^ (x / 2 ^ n) := by
  have hsplit : x = (x % 2 ^ n) ^^^ (2 ^ n * (x / 2 ^ n)) := by
    refine Nat.eq_of_testBit_eq fun i => ?_
    rw [Nat.testBit_xor, Nat.testBit_mod_two_pow, Nat.testBit_two_pow_mul, Nat.testBit_div_two_pow]
    by_cases hi : i < n
    · simp [hi, show ¬ n ≤ i by omega]
    · simp [hi, show n ≤ i by omega]
  conv_lhs => rw [hsplit]
  rw [shift_iterate_xor, shift_iterate_zeros]
/-! ## Messages -/

/-- A message as a polynomial, from the lowest bit of its first byte to the highest bit of its last. -/
noncomputable def message (msg : List UInt8) : (ZMod 2)[X] := msg.foldl (fun m b => X ^ 8 * m + reg 8 b.toNat) 0

theorem message_concat (msg : List UInt8) (b : UInt8) : message (msg ++ [b]) = X ^ 8 * message msg + reg 8 b.toNat := by
  unfold message
  rw [List.foldl_append]
  rfl

/-- What the register stands for, before it is reduced. -/
noncomputable def whole (w init : Nat) (msg : List UInt8) : (ZMod 2)[X] :=
  X ^ (8 * msg.length) * reg w init + X ^ w * message msg

/-- The register after a message. -/
structure Holds (w p init : Nat) (msg : List UInt8) (c : Nat) : Prop where
  lt : c < 2 ^ w
  mod : AdjoinRoot.mk (gen w p) (reg w c) = AdjoinRoot.mk (gen w p) (whole w init msg)

/-- `v` is the checksum of the message. -/
structure IsCrc (w p init out : Nat) (msg : List UInt8) (v : Nat) : Prop where
  lt : v < 2 ^ w
  rem : reg w (v ^^^ out) = whole w init msg %ₘ gen w p

variable {init out c : Nat} {msg : List UInt8}

theorem Holds.start (h : init < 2 ^ w) : Holds w p init [] init := by
  refine ⟨h, ?_⟩
  unfold whole message
  rw [List.length_nil, List.foldl_nil, mul_zero, mul_zero, pow_zero, one_mul, add_zero]

/-- A byte that goes into the low end of the register and is shifted out. -/
theorem Holds.byte (h : Holds w p init msg c) (hw : 8 ≤ w) (hp : p < 2 ^ w) (b : UInt8) :
    Holds w p init (msg ++ [b]) ((shift p)^[8] (c ^^^ b.toNat)) := by
  have hb : b.toNat < 2 ^ 8 := b.toNat_lt
  have hlt : c ^^^ b.toNat < 2 ^ w := Nat.xor_lt_two_pow h.lt (hb.trans_le (Nat.pow_le_pow_right (by decide) hw))
  obtain ⟨hlt', hmod⟩ := shift_iterate (by omega) hp hlt 8
  refine ⟨hlt', hmod.trans ?_⟩
  obtain ⟨k, rfl⟩ : ∃ k, w = 8 + k := ⟨w - 8, by omega⟩
  have hwhole : whole (8 + k) init (msg ++ [b]) = X ^ 8 * whole (8 + k) init msg + X ^ (8 + k) * reg 8 b.toNat := by
    unfold whole
    rw [message_concat, List.length_append, List.length_singleton]
    ring
  rw [reg_xor, reg_wide hb, hwhole, mul_add, map_add, map_mul, h.mod, ← map_mul, ← map_add, ← mul_assoc, ← pow_add]

/-- The value that the register is given out as. -/
theorem Holds.isCrc (h : Holds w p init msg c) (hout : out < 2 ^ w) : IsCrc w p init out msg (c ^^^ out) := by
  refine ⟨Nat.xor_lt_two_pow h.lt hout, ?_⟩
  rw [Nat.xor_assoc, Nat.xor_self, Nat.xor_zero, ← modByMonic_eq_of_dvd_sub (gen_monic w p) (AdjoinRoot.mk_eq_mk.mp h.mod)]
  symm
  rw [modByMonic_eq_self_iff (gen_monic w p), gen_degree]
  exact reg_degree w c

/-- There is one checksum. -/
theorem IsCrc.unique {v v' : Nat} (h : IsCrc w p init out msg v) (h' : IsCrc w p init out msg v') (hout : out < 2 ^ w) :
    v = v' := by
  have hxor := reg_injective (Nat.xor_lt_two_pow h.lt hout) (Nat.xor_lt_two_pow h'.lt hout) (h.rem.trans h'.rem.symm)
  exact Nat.xor_left_inj.mp hxor

end Guppy.Crc
