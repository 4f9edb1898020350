import Mathlib.Tactic

set_option autoImplicit false

/-! # Little-endian numbers as lists of bytes

A number in `n` bytes, the least significant byte first (`leBytes`), and the number that bytes spell, without a sign
(`leValue`) or as a two's complement (`leSigned`).
-/

namespace Guppy

/-- The low `n` bytes of `v`. -/
def leBytes : Nat → Nat → List UInt8
  | 0, _ => []
  | n + 1, v => UInt8.ofNat v :: leBytes n (v / 256)

def leValue : List UInt8 → Nat
  | [] => 0
  | b :: t => b.toNat + 256 * leValue t

/-- The number whose two's complement the bytes are. -/
def leSigned (t : List UInt8) : Int := (leValue t : Int).bmod (256 ^ t.length)

@[simp] theorem length_leBytes (n v : Nat) : (leBytes n v).length = n := by
  induction n generalizing v with
  | zero => rfl
  | succ n ih => simp [leBytes, ih]

theorem leValue_leBytes (n v : Nat) : leValue (leBytes n v) = v % 256 ^ n := by
  induction n generalizing v with
  | zero => simp [leBytes, leValue, Nat.mod_one]
  | succ n ih =>
      have hbyte : (UInt8.ofNat v).toNat = v % 256 := by simp
      rw [leBytes, leValue, ih, hbyte, Nat.pow_succ, Nat.mul_comm (256 ^ n) 256, Nat.mod_mul]

theorem leValue_lt (t : List UInt8) : leValue t < 256 ^ t.length := by
  induction t with
  | nil => exact Nat.one_pos
  | cons b t ih =>
      have hb := b.toNat_lt
      rw [leValue, List.length_cons, Nat.pow_succ]
      omega

theorem leBytes_leValue (t : List UInt8) : leBytes t.length (leValue t) = t := by
  induction t with
  | nil => rfl
  | cons b t ih =>
      have hb := b.toNat_lt
      have hbyte : UInt8.ofNat (b.toNat + 256 * leValue t) = b := by
        apply UInt8.toNat_inj.mp
        rw [UInt8.toNat_ofNat']
        omega
      rw [List.length_cons, leBytes, leValue, hbyte, show (b.toNat + 256 * leValue t) / 256 = leValue t by omega, ih]

/-- A number reads back as a two's complement exactly when the top bit of its last byte is clear. -/
theorem leSigned_leBytes {n v : Nat} (hv : v < 256 ^ n) : leSigned (leBytes n v) = v ↔ 2 * v < 256 ^ n := by
  have hpow : ((256 ^ n : Nat) : Int) = 256 ^ n := by push_cast; rfl
  rw [leSigned, leValue_leBytes, Nat.mod_eq_of_lt hv, length_leBytes]
  constructor
  · intro h
    have hlt := @Int.bmod_lt v (256 ^ n) (by omega)
    rw [h] at hlt
    -- the modulus is a power of 256, and so even unless it is 1
    cases n with
    | zero => omega
    | succ n =>
        rw [Nat.pow_succ] at hlt ⊢
        push_cast at hlt
        have : ((256 ^ n : Nat) : Int) = 256 ^ n := by push_cast; rfl
        omega
  · intro h
    exact Int.bmod_eq_of_le (by omega) (by omega)

end Guppy
