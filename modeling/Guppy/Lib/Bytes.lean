import Mathlib.Tactic

set_option autoImplicit false

/-! # Byte stores

A buffer, a disk or a file is read through its bytes: a *byte store* is a function from
offsets to bytes. A store has no length of its own; the code that owns it says how much of
it is meaningful. The operations are those of C on raw memory: copying a range (`write`,
`slice`), and reading or writing little-endian integers (`rd16`, `rd32`, `rd64`, `wr16`,
`wr32`, `wr64`).

Every lemma about reading after writing comes in two forms, one for a range that the write
misses and one for a range inside it. Their side conditions are linear, so that
`simp (disch := omega)` runs through a sequence of writes.
-/

namespace Guppy

/-- A byte store: the byte at each offset. -/
abbrev Mem := Nat → UInt8

namespace Mem

/-- The store that holds `0` everywhere (`memset(p, 0, n)`). -/
def zero : Mem := fun _ => 0

@[simp] theorem zero_apply (i : Nat) : zero i = 0 := rfl

/-- Copy the first `len` bytes of `src` to offset `off` (`memcpy(p + off, src, len)`). -/
def write (p : Mem) (off len : Nat) (src : Mem) : Mem :=
  fun i => if off ≤ i ∧ i < off + len then src (i - off) else p i

/-- The `len` bytes at offset `off`, as a buffer of their own, followed by zeros. -/
def slice (p : Mem) (off len : Nat) : Mem := fun i => if i < len then p (off + i) else 0

/-- The store that starts with the bytes of `l`, followed by zeros. -/
def ofList (l : List UInt8) : Mem := fun i => l.getD i 0

/-- The `len` bytes at offset `off`, as a list. -/
def toList (p : Mem) (off len : Nat) : List UInt8 := (List.range len).map (fun i => p (off + i))

theorem write_in {p : Mem} {off len i : Nat} {src : Mem} (h₁ : off ≤ i) (h₂ : i < off + len) :
    p.write off len src i = src (i - off) := if_pos ⟨h₁, h₂⟩

theorem write_out {p : Mem} {off len i : Nat} {src : Mem} (h : i < off ∨ off + len ≤ i) :
    p.write off len src i = p i := if_neg (by omega)

theorem slice_in {p : Mem} {off len i : Nat} (h : i < len) : p.slice off len i = p (off + i) :=
  if_pos h

theorem slice_out {p : Mem} {off len i : Nat} (h : len ≤ i) : p.slice off len i = 0 :=
  if_neg (by omega)

@[simp] theorem write_zero_len (p : Mem) (off : Nat) (src : Mem) : p.write off 0 src = p := by
  funext i
  exact write_out (by omega)

@[simp] theorem length_toList (p : Mem) (off len : Nat) : (p.toList off len).length = len := by
  simp [toList]

@[simp] theorem toList_zero (p : Mem) (off : Nat) : p.toList off 0 = [] := rfl

theorem getElem_toList {p : Mem} {off len i : Nat} (h : i < (p.toList off len).length) :
    (p.toList off len)[i] = p (off + i) := by
  simp [toList]

theorem ofList_lt {l : List UInt8} {i : Nat} (h : i < l.length) : ofList l i = l[i] := by
  simp [ofList, h]

theorem ofList_ge {l : List UInt8} {i : Nat} (h : l.length ≤ i) : ofList l i = 0 := by
  simp [ofList, h]

/-- Two ranges agree as lists when they agree byte by byte. -/
theorem toList_congr {p q : Mem} {off off' len : Nat}
    (h : ∀ i, i < len → p (off + i) = q (off' + i)) : p.toList off len = q.toList off' len := by
  refine List.map_congr_left (fun i hi => ?_)
  exact h i (List.mem_range.mp hi)

theorem toList_inj {p q : Mem} {off off' len : Nat} (h : p.toList off len = q.toList off' len)
    {i : Nat} (hi : i < len) : p (off + i) = q (off' + i) := by
  have := congrArg (fun l => l[i]?) h
  simpa [toList, hi] using this

theorem toList_append (p : Mem) (off m n : Nat) :
    p.toList off (m + n) = p.toList off m ++ p.toList (off + m) n := by
  simp only [toList, List.range_add, List.map_append, List.map_map]
  congr 1
  refine List.map_congr_left (fun i _ => ?_)
  simp [Nat.add_assoc]

theorem toList_ofList (l : List UInt8) : (ofList l).toList 0 l.length = l := by
  refine List.ext_getElem (by simp) (fun i h₁ h₂ => ?_)
  rw [getElem_toList, Nat.zero_add, ofList_lt h₂]

/-- A slice of a range that the write misses. -/
theorem slice_write_out {p : Mem} {off len o n : Nat} {src : Mem}
    (h : o + n ≤ off ∨ off + len ≤ o) : (p.write off len src).slice o n = p.slice o n := by
  funext i
  by_cases hi : i < n
  · rw [slice_in hi, slice_in hi, write_out (by omega)]
  · rw [slice_out (by omega), slice_out (by omega)]

/-- A slice of a range inside the write. -/
theorem slice_write_in {p : Mem} {off len o n : Nat} {src : Mem}
    (h₁ : off ≤ o) (h₂ : o + n ≤ off + len) :
    (p.write off len src).slice o n = src.slice (o - off) n := by
  funext i
  by_cases hi : i < n
  · rw [slice_in hi, slice_in hi, write_in (by omega) (by omega)]
    congr 1
    omega
  · rw [slice_out (by omega), slice_out (by omega)]

theorem slice_slice {p : Mem} {a m o n : Nat} (h : o + n ≤ m) :
    (p.slice a m).slice o n = p.slice (a + o) n := by
  funext i
  by_cases hi : i < n
  · rw [slice_in hi, slice_in hi, slice_in (by omega), Nat.add_assoc]
  · rw [slice_out (by omega), slice_out (by omega)]

theorem slice_zero_slice (p : Mem) (a n : Nat) : (p.slice a n).slice 0 n = p.slice a n :=
  slice_slice (by omega)

theorem zero_slice (a n : Nat) : zero.slice a n = zero := by
  funext i
  simp [slice]

/-! ## Little-endian integers -/

/-- The little-endian bytes of `v`. -/
def le (v : Nat) : Mem := fun i => UInt8.ofNat (v / 256 ^ i)

def rd16 (p : Mem) (o : Nat) : Nat := (p o).toNat + 256 * (p (o + 1)).toNat

def rd32 (p : Mem) (o : Nat) : Nat := p.rd16 o + 65536 * p.rd16 (o + 2)

def rd64 (p : Mem) (o : Nat) : Nat := p.rd32 o + 4294967296 * p.rd32 (o + 4)

def wr8 (p : Mem) (o v : Nat) : Mem := p.write o 1 (le v)

def wr16 (p : Mem) (o v : Nat) : Mem := p.write o 2 (le v)

def wr32 (p : Mem) (o v : Nat) : Mem := p.write o 4 (le v)

def wr64 (p : Mem) (o v : Nat) : Mem := p.write o 8 (le v)

theorem rd16_lt (p : Mem) (o : Nat) : p.rd16 o < 65536 := by
  have h₀ := (p o).toNat_lt
  have h₁ := (p (o + 1)).toNat_lt
  simp only [rd16]
  omega

theorem rd32_lt (p : Mem) (o : Nat) : p.rd32 o < 4294967296 := by
  have h₀ := p.rd16_lt o
  have h₁ := p.rd16_lt (o + 2)
  simp only [rd32]
  omega

theorem rd64_lt (p : Mem) (o : Nat) : p.rd64 o < 18446744073709551616 := by
  have h₀ := p.rd32_lt o
  have h₁ := p.rd32_lt (o + 4)
  simp only [rd64]
  omega

theorem le_toNat (v i : Nat) : (le v i).toNat = v / 256 ^ i % 256 := by
  simp [le]

theorem rd16_congr {p q : Mem} {o o' : Nat} (h : ∀ i, i < 2 → p (o + i) = q (o' + i)) :
    p.rd16 o = q.rd16 o' := by
  have h₀ := h 0 (by omega)
  have h₁ := h 1 (by omega)
  simp only [Nat.add_zero] at h₀
  simp only [rd16, h₀, h₁]

theorem rd32_congr {p q : Mem} {o o' : Nat} (h : ∀ i, i < 4 → p (o + i) = q (o' + i)) :
    p.rd32 o = q.rd32 o' := by
  have h₀ : p.rd16 o = q.rd16 o' := rd16_congr (fun i hi => h i (by omega))
  have h₁ : p.rd16 (o + 2) = q.rd16 (o' + 2) := rd16_congr (fun i hi => by
    simpa [Nat.add_assoc] using h (2 + i) (by omega))
  simp only [rd32, h₀, h₁]

theorem rd64_congr {p q : Mem} {o o' : Nat} (h : ∀ i, i < 8 → p (o + i) = q (o' + i)) :
    p.rd64 o = q.rd64 o' := by
  have h₀ : p.rd32 o = q.rd32 o' := rd32_congr (fun i hi => h i (by omega))
  have h₁ : p.rd32 (o + 4) = q.rd32 (o' + 4) := rd32_congr (fun i hi => by
    simpa [Nat.add_assoc] using h (4 + i) (by omega))
  simp only [rd64, h₀, h₁]

theorem rd16_write_out {p : Mem} {off len o : Nat} {src : Mem}
    (h : o + 2 ≤ off ∨ off + len ≤ o) : (p.write off len src).rd16 o = p.rd16 o :=
  rd16_congr (fun _ _ => write_out (by omega))

theorem rd32_write_out {p : Mem} {off len o : Nat} {src : Mem}
    (h : o + 4 ≤ off ∨ off + len ≤ o) : (p.write off len src).rd32 o = p.rd32 o :=
  rd32_congr (fun _ _ => write_out (by omega))

theorem rd64_write_out {p : Mem} {off len o : Nat} {src : Mem}
    (h : o + 8 ≤ off ∨ off + len ≤ o) : (p.write off len src).rd64 o = p.rd64 o :=
  rd64_congr (fun _ _ => write_out (by omega))

theorem rd16_write_in {p : Mem} {off len o : Nat} {src : Mem}
    (h₁ : off ≤ o) (h₂ : o + 2 ≤ off + len) :
    (p.write off len src).rd16 o = src.rd16 (o - off) :=
  rd16_congr (fun i hi => by rw [write_in (by omega) (by omega)]; congr 1; omega)

theorem rd32_write_in {p : Mem} {off len o : Nat} {src : Mem}
    (h₁ : off ≤ o) (h₂ : o + 4 ≤ off + len) :
    (p.write off len src).rd32 o = src.rd32 (o - off) :=
  rd32_congr (fun i hi => by rw [write_in (by omega) (by omega)]; congr 1; omega)

theorem rd64_write_in {p : Mem} {off len o : Nat} {src : Mem}
    (h₁ : off ≤ o) (h₂ : o + 8 ≤ off + len) :
    (p.write off len src).rd64 o = src.rd64 (o - off) :=
  rd64_congr (fun i hi => by rw [write_in (by omega) (by omega)]; congr 1; omega)

theorem rd16_slice {p : Mem} {a n o : Nat} (h : o + 2 ≤ n) :
    (p.slice a n).rd16 o = p.rd16 (a + o) :=
  rd16_congr (fun i hi => by rw [slice_in (by omega), Nat.add_assoc])

theorem rd32_slice {p : Mem} {a n o : Nat} (h : o + 4 ≤ n) :
    (p.slice a n).rd32 o = p.rd32 (a + o) :=
  rd32_congr (fun i hi => by rw [slice_in (by omega), Nat.add_assoc])

theorem rd64_slice {p : Mem} {a n o : Nat} (h : o + 8 ≤ n) :
    (p.slice a n).rd64 o = p.rd64 (a + o) :=
  rd64_congr (fun i hi => by rw [slice_in (by omega), Nat.add_assoc])

@[simp] theorem rd16_zero (o : Nat) : zero.rd16 o = 0 := rfl

@[simp] theorem rd32_zero (o : Nat) : zero.rd32 o = 0 := rfl

theorem rd16_le (v : Nat) : (le v).rd16 0 = v % 65536 := by
  simp only [rd16, le_toNat]
  norm_num
  omega

theorem rd32_le (v : Nat) : (le v).rd32 0 = v % 4294967296 := by
  simp only [rd32, rd16, le_toNat]
  norm_num
  omega

theorem rd64_le (v : Nat) : (le v).rd64 0 = v % 18446744073709551616 := by
  simp only [rd64, rd32, rd16, le_toNat]
  norm_num
  omega

@[simp] theorem rd16_wr16_self (p : Mem) (o v : Nat) : (p.wr16 o v).rd16 o = v % 65536 := by
  rw [wr16, rd16_write_in (by omega) (by omega), Nat.sub_self, rd16_le]

@[simp] theorem rd32_wr32_self (p : Mem) (o v : Nat) :
    (p.wr32 o v).rd32 o = v % 4294967296 := by
  rw [wr32, rd32_write_in (by omega) (by omega), Nat.sub_self, rd32_le]

@[simp] theorem rd64_wr64_self (p : Mem) (o v : Nat) :
    (p.wr64 o v).rd64 o = v % 18446744073709551616 := by
  rw [wr64, rd64_write_in (by omega) (by omega), Nat.sub_self, rd64_le]

end Mem

end Guppy
