import Guppy.Lib.Bytes

set_option autoImplicit false

/-! # Bitmaps

A bitmap is a byte store whose bit `i` is bit `i % 8` of byte `i / 8`. Setting and clearing
one bit leaves the others alone (`bit_setBit`, `bit_clearBit`). `firstFrom` is the linear
scan that allocators run over a bitmap, and `clearIn` counts what such a scan can find.
-/

namespace Guppy

namespace Mem

/-- `(p[i >> 3] >> (i & 7)) & 1` -/
def bit (p : Mem) (i : Nat) : Bool := (p (i / 8)).toNat.testBit (i % 8)

/-- `p[i >> 3] |= 1u << (i & 7)` -/
def setBit (p : Mem) (i : Nat) : Mem :=
  p.write (i / 8) 1 (fun _ => p (i / 8) ||| UInt8.ofNat (2 ^ (i % 8)))

/-- `p[i >> 3] &= ~(1u << (i & 7))` -/
def clearBit (p : Mem) (i : Nat) : Mem :=
  p.write (i / 8) 1 (fun _ => p (i / 8) &&& UInt8.ofNat (255 - 2 ^ (i % 8)))

theorem testBit_mask {k j : Nat} (hk : k < 8) (hj : j < 8) :
    (2 ^ k % 256).testBit j = decide (k = j) ∧ ((255 - 2 ^ k) % 256).testBit j = decide (k ≠ j) := by
  interval_cases k <;> interval_cases j <;> decide

theorem bit_setBit (p : Mem) (i j : Nat) :
    (p.setBit i).bit j = (decide (i = j) || p.bit j) := by
  have hmask := (testBit_mask (Nat.mod_lt i (by omega : 0 < 8)) (Nat.mod_lt j (by omega))).1
  unfold bit setBit
  by_cases hq : j / 8 = i / 8
  · rw [write_in (by omega) (by omega), UInt8.toNat_or, Nat.testBit_or, UInt8.toNat_ofNat',
      show (2 : Nat) ^ 8 = 256 from rfl, hmask, hq, Bool.or_comm]
    congr 2
    rw [eq_iff_iff]
    omega
  · rw [write_out (by omega)]
    have : i ≠ j := fun h => hq (by rw [h])
    simp [this]

theorem bit_clearBit (p : Mem) (i j : Nat) :
    (p.clearBit i).bit j = (decide (i ≠ j) && p.bit j) := by
  have hmask := (testBit_mask (Nat.mod_lt i (by omega : 0 < 8)) (Nat.mod_lt j (by omega))).2
  unfold bit clearBit
  by_cases hq : j / 8 = i / 8
  · rw [write_in (by omega) (by omega), UInt8.toNat_and, Nat.testBit_and, UInt8.toNat_ofNat',
      show (2 : Nat) ^ 8 = 256 from rfl, hmask, hq, Bool.and_comm]
    congr 2
    rw [eq_iff_iff]
    omega
  · rw [write_out (by omega)]
    have : i ≠ j := fun h => hq (by rw [h])
    simp [this]

@[simp] theorem bit_zero (i : Nat) : zero.bit i = false := by
  simp [bit]

theorem bit_congr {p q : Mem} {i : Nat} (h : p (i / 8) = q (i / 8)) : p.bit i = q.bit i := by
  unfold bit
  rw [h]

end Mem

/-! ## Scans -/

/-- The first of the `count` numbers from `start` on with the property. -/
def firstFrom (p : Nat → Bool) : (count start : Nat) → Option Nat
  | 0, _ => none
  | count + 1, start => if p start then some start else firstFrom p count (start + 1)

theorem firstFrom_some {p : Nat → Bool} {count start i : Nat}
    (h : firstFrom p count start = some i) :
    start ≤ i ∧ i < start + count ∧ p i = true ∧ ∀ j, start ≤ j → j < i → p j = false := by
  induction count generalizing start with
  | zero => cases h
  | succ count ih =>
      rw [firstFrom] at h
      split at h
      · rename_i hp
        cases h
        exact ⟨le_refl _, by omega, hp, fun j h₁ h₂ => absurd h₂ (by omega)⟩
      · rename_i hp
        obtain ⟨h₁, h₂, h₃, h₄⟩ := ih h
        refine ⟨by omega, by omega, h₃, fun j hj hji => ?_⟩
        rcases Nat.eq_or_lt_of_le hj with rfl | hlt
        · simpa using hp
        · exact h₄ j hlt hji

theorem firstFrom_none {p : Nat → Bool} {count start : Nat} :
    firstFrom p count start = none ↔ ∀ j, start ≤ j → j < start + count → p j = false := by
  induction count generalizing start with
  | zero =>
      refine ⟨fun _ j h₁ h₂ => absurd h₂ (by omega), fun _ => rfl⟩
  | succ count ih =>
      rw [firstFrom]
      split
      · rename_i hp
        refine ⟨fun h => (by cases h), fun h => ?_⟩
        rw [h start (le_refl _) (by omega)] at hp
        cases hp
      · rename_i hp
        rw [ih]
        refine ⟨fun h j hj hjc => ?_, fun h j hj hjc => h j (by omega) (by omega)⟩
        rcases Nat.eq_or_lt_of_le hj with rfl | hlt
        · simpa using hp
        · exact h j hlt (by omega)

theorem firstFrom_congr {p q : Nat → Bool} {count start : Nat}
    (h : ∀ i, start ≤ i → i < start + count → p i = q i) :
    firstFrom p count start = firstFrom q count start := by
  induction count generalizing start with
  | zero => rfl
  | succ count ih =>
      rw [firstFrom, firstFrom, h start (le_refl _) (by omega),
        ih (fun i h₁ h₂ => h i (by omega) (by omega))]

/-- How many of the `count` numbers from `start` on lack the property. -/
def clearIn (p : Nat → Bool) (start count : Nat) : Nat :=
  (List.range count).countP (fun i => !p (start + i))

theorem clearIn_congr {p q : Nat → Bool} {start count : Nat}
    (h : ∀ i, i < count → p (start + i) = q (start + i)) :
    clearIn p start count = clearIn q start count := by
  unfold clearIn
  refine List.countP_congr (fun i hi => ?_)
  rw [h i (List.mem_range.mp hi)]

theorem clearIn_le (p : Nat → Bool) (start count : Nat) : clearIn p start count ≤ count := by
  have := List.countP_le_length (p := fun i => !p (start + i)) (l := List.range count)
  rwa [List.length_range] at this

/-- Setting one clear bit of the range takes one from the count. -/
theorem clearIn_set {p : Nat → Bool} {start count i : Nat} (hi : i < count)
    (hp : p (start + i) = false) :
    clearIn (Function.update p (start + i) true) start count + 1 = clearIn p start count := by
  induction count with
  | zero => omega
  | succ count ih =>
      unfold clearIn at ih ⊢
      rw [List.range_succ, List.countP_append, List.countP_append]
      rcases Nat.lt_or_ge i count with hlt | hge
      · have hne : start + count ≠ start + i := by omega
        simp only [List.countP_cons, List.countP_nil, Function.update_of_ne hne]
        have := ih hlt
        omega
      · have heq : count = i := by omega
        subst heq
        have hrest : (List.range count).countP
            (fun j => !(Function.update p (start + count) true) (start + j))
            = (List.range count).countP (fun j => !p (start + j)) := by
          refine List.countP_congr (fun j hj => ?_)
          have := List.mem_range.mp hj
          rw [Function.update_of_ne (by omega)]
        rw [hrest]
        simp [hp]

/-- Clearing one set bit of the range adds one to the count. -/
theorem clearIn_clear {p : Nat → Bool} {start count i : Nat} (hi : i < count)
    (hp : p (start + i) = true) :
    clearIn (Function.update p (start + i) false) start count = clearIn p start count + 1 := by
  have h := clearIn_set (p := Function.update p (start + i) false) hi (Function.update_self ..)
  rw [Function.update_idem, ← hp, Function.update_eq_self] at h
  exact h.symm

theorem clearIn_pos {p : Nat → Bool} {start count : Nat} :
    0 < clearIn p start count ↔ ∃ i, i < count ∧ p (start + i) = false := by
  unfold clearIn
  rw [List.countP_pos_iff]
  simp

end Guppy
