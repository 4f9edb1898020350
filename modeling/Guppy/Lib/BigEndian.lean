import Guppy.Lib.Bytes

set_option autoImplicit false

/-! # Big-endian integers in byte stores

The counterpart of the little-endian accesses of `Guppy.Lib.Bytes`: reading (`rb16`, `rb32`,
`rb64`) and writing (`wb16`, `wb32`, `wb64`) with the most significant byte first. A number that
was written reads back, and a write leaves the numbers outside its range alone.
-/

namespace Guppy

namespace Mem

/-- The last `n` bytes of `v`, the most significant one first. -/
def be (n v : Nat) : Mem := fun i => UInt8.ofNat (v / 256 ^ (n - 1 - i))

def rb16 (p : Mem) (o : Nat) : Nat := 256 * (p o).toNat + (p (o + 1)).toNat

def rb32 (p : Mem) (o : Nat) : Nat := 65536 * p.rb16 o + p.rb16 (o + 2)

def rb64 (p : Mem) (o : Nat) : Nat := 4294967296 * p.rb32 o + p.rb32 (o + 4)

def wb16 (p : Mem) (o v : Nat) : Mem := p.write o 2 (be 2 v)

def wb32 (p : Mem) (o v : Nat) : Mem := p.write o 4 (be 4 v)

def wb64 (p : Mem) (o v : Nat) : Mem := p.write o 8 (be 8 v)

theorem be_toNat (n v i : Nat) : (be n v i).toNat = v / 256 ^ (n - 1 - i) % 256 := by
  simp [be]

theorem rb16_congr {p q : Mem} {o o' : Nat} (h : ∀ i, i < 2 → p (o + i) = q (o' + i)) :
    p.rb16 o = q.rb16 o' := by
  have h₀ := h 0 (by omega)
  have h₁ := h 1 (by omega)
  simp only [Nat.add_zero] at h₀
  simp only [rb16, h₀, h₁]

theorem rb32_congr {p q : Mem} {o o' : Nat} (h : ∀ i, i < 4 → p (o + i) = q (o' + i)) :
    p.rb32 o = q.rb32 o' := by
  have h₀ : p.rb16 o = q.rb16 o' := rb16_congr (fun i hi => h i (by omega))
  have h₁ : p.rb16 (o + 2) = q.rb16 (o' + 2) := rb16_congr (fun i hi => by
    simpa [Nat.add_assoc] using h (2 + i) (by omega))
  simp only [rb32, h₀, h₁]

theorem rb64_congr {p q : Mem} {o o' : Nat} (h : ∀ i, i < 8 → p (o + i) = q (o' + i)) :
    p.rb64 o = q.rb64 o' := by
  have h₀ : p.rb32 o = q.rb32 o' := rb32_congr (fun i hi => h i (by omega))
  have h₁ : p.rb32 (o + 4) = q.rb32 (o' + 4) := rb32_congr (fun i hi => by
    simpa [Nat.add_assoc] using h (4 + i) (by omega))
  simp only [rb64, h₀, h₁]

theorem rb16_write_out {p : Mem} {off len o : Nat} {src : Mem}
    (h : o + 2 ≤ off ∨ off + len ≤ o) : (p.write off len src).rb16 o = p.rb16 o :=
  rb16_congr (fun _ _ => write_out (by omega))

theorem rb32_write_out {p : Mem} {off len o : Nat} {src : Mem}
    (h : o + 4 ≤ off ∨ off + len ≤ o) : (p.write off len src).rb32 o = p.rb32 o :=
  rb32_congr (fun _ _ => write_out (by omega))

theorem rb64_write_out {p : Mem} {off len o : Nat} {src : Mem}
    (h : o + 8 ≤ off ∨ off + len ≤ o) : (p.write off len src).rb64 o = p.rb64 o :=
  rb64_congr (fun _ _ => write_out (by omega))

/-- The bytes of a range that was just written. -/
theorem write_self {p : Mem} {off len i : Nat} {src : Mem} (h : i < len) :
    p.write off len src (off + i) = src (0 + i) := by
  rw [write_in (by omega) (by omega)]
  congr 1
  omega

@[simp] theorem rb16_wb16_self (p : Mem) (o v : Nat) : (p.wb16 o v).rb16 o = v % 65536 := by
  have h : (p.wb16 o v).rb16 o = (be 2 v).rb16 0 := rb16_congr (fun i hi => write_self hi)
  rw [h]
  simp only [rb16, be_toNat]
  norm_num
  omega

@[simp] theorem rb32_wb32_self (p : Mem) (o v : Nat) : (p.wb32 o v).rb32 o = v % 4294967296 := by
  have h : (p.wb32 o v).rb32 o = (be 4 v).rb32 0 := rb32_congr (fun i hi => write_self hi)
  rw [h]
  simp only [rb32, rb16, be_toNat]
  norm_num
  omega

@[simp] theorem rb64_wb64_self (p : Mem) (o v : Nat) :
    (p.wb64 o v).rb64 o = v % 18446744073709551616 := by
  have h : (p.wb64 o v).rb64 o = (be 8 v).rb64 0 := rb64_congr (fun i hi => write_self hi)
  rw [h]
  simp only [rb64, rb32, rb16, be_toNat]
  norm_num
  omega

end Mem

end Guppy
