import Guppy.Lib.Bytes
import Guppy.Lib.Prog

set_option autoImplicit false

/-! # Host files behind a virtual disk

`lib/vdisk/src/vdisk.c` reaches the image through `vdisk_host_read` and
`vdisk_host_write`, a seek followed by one `fread` or `fwrite`. A host file is its size and
its bytes. A write past the end extends the file, and the gap it leaves reads as zero. A
read succeeds only when the file holds all of the requested bytes.

A host write is atomic. The state also counts how many host writes may still happen
(`stop`): when none is left the next write fails and changes nothing. A run that crashes, or
whose host write fails, after `k` host writes is a run with `stop = some k`; `none` stands
for a host that never fails.
-/

namespace Guppy.Vdisk

open Prog

/-- `le32`/`le64` limits of the C types. -/
def uint32Max : Nat := 4294967295

def uint64Max : Nat := 18446744073709551615

/-- A host file: its size and its bytes. -/
structure HostFile where
  size : Nat
  bytes : Mem

namespace HostFile

def canRead (f : HostFile) (off len : Nat) : Bool := len = 0 || off + len ≤ f.size

def write (f : HostFile) (off len : Nat) (src : Mem) : HostFile :=
  if len = 0 then f
  else
    { size := max f.size (off + len)
      bytes := fun i =>
        if off ≤ i ∧ i < off + len then src (i - off) else if i < f.size then f.bytes i else 0 }

theorem write_size {f : HostFile} {off len : Nat} {src : Mem} (h : 0 < len) :
    (f.write off len src).size = max f.size (off + len) := by
  rw [write, if_neg (by omega)]

theorem size_le_write (f : HostFile) (off len : Nat) (src : Mem) :
    f.size ≤ (f.write off len src).size := by
  by_cases h : len = 0
  · rw [write, if_pos h]
  · rw [write_size (by omega)]
    exact le_max_left _ _

theorem write_bytes_in {f : HostFile} {off len i : Nat} {src : Mem}
    (h₁ : off ≤ i) (h₂ : i < off + len) : (f.write off len src).bytes i = src (i - off) := by
  rw [write, if_neg (by omega)]
  exact if_pos ⟨h₁, h₂⟩

theorem write_bytes_out {f : HostFile} {off len i : Nat} {src : Mem}
    (h : i < off ∨ off + len ≤ i) (hi : i < f.size) :
    (f.write off len src).bytes i = f.bytes i := by
  by_cases h0 : len = 0
  · rw [write, if_pos h0]
  · rw [write, if_neg h0]
    show (if off ≤ i ∧ i < off + len then _ else if i < f.size then f.bytes i else 0) = _
    rw [if_neg (by omega), if_pos hi]

/-- Reading back a 32-bit number. -/
theorem rd32_write_le (f : HostFile) (off v : Nat) :
    (f.write off 4 (Mem.le v)).bytes.rd32 off = v % 4294967296 := by
  rw [← Mem.rd32_le]
  refine Mem.rd32_congr (fun i hi => ?_)
  rw [write_bytes_in (by omega) (by omega), Nat.add_sub_cancel_left, Nat.zero_add]

end HostFile

/-- An open virtual disk (`struct vdisk`), without the fields that only the other backends
use. -/
structure Disk where
  sizeBytes : Nat
  dataOffset : Nat
  hostSizeBytes : Nat
  blockSize : Nat
  blocksOffset : Nat
  blocksCount : Nat
  blocksAllocated : Nat
  imageType : Nat
  writable : Bool

/-- The disk, the host file behind it, and the host writes left before the host stops. -/
structure DiskState where
  file : HostFile
  stop : Option Nat
  disk : Disk

/-- `vdisk_host_read`: seek, then read `len` bytes. -/
def vdiskHostRead (off len : Nat) : Prog DiskState Mem := do
  let s ← get
  failIf (s.file.canRead off len = false) (-1)
  pure (s.file.bytes.slice off len)

/-- `vdisk_host_write`: seek, then write `len` bytes. -/
def vdiskHostWrite (off len : Nat) (src : Mem) : Prog DiskState Unit := do
  let s ← get
  failIf (s.stop = some 0) (-1)
  set { s with file := s.file.write off len src, stop := s.stop.map (· - 1) }

/-- `vdisk_host_get_size`. -/
def vdiskHostGetSize : Prog DiskState Nat := do
  let s ← get
  pure s.file.size

theorem vdiskHostRead_of_le {s : DiskState} {off len : Nat} (h : off + len ≤ s.file.size) :
    vdiskHostRead off len s = .ok (s.file.bytes.slice off len) s := by
  have hc : ¬ s.file.canRead off len = false := by simp [HostFile.canRead, h]
  show (failIf (s.file.canRead off len = false) (-1) >>= _) s = _
  rw [bind_of_ok (failIf_of_not hc)]
  rfl

theorem vdiskHostRead_of_gt {s : DiskState} {off len : Nat} (h0 : 0 < len)
    (h : s.file.size < off + len) : vdiskHostRead off len s = .error (-1) s := by
  have hc : s.file.canRead off len = false := by
    simp only [HostFile.canRead, Bool.or_eq_false_iff, decide_eq_false_iff_not]
    omega
  show (failIf (s.file.canRead off len = false) (-1) >>= _) s = _
  rw [bind_of_error (failIf_of hc)]

theorem vdiskHostWrite_of_ne {s : DiskState} {off len : Nat} {src : Mem}
    (h : s.stop ≠ some 0) :
    vdiskHostWrite off len src s
      = .ok () { s with file := s.file.write off len src, stop := s.stop.map (· - 1) } := by
  show (failIf (s.stop = some 0) (-1) >>= _) s = _
  rw [bind_of_ok (failIf_of_not h)]
  rfl

theorem vdiskHostWrite_of_stopped {s : DiskState} {off len : Nat} {src : Mem}
    (h : s.stop = some 0) : vdiskHostWrite off len src s = .error (-1) s := by
  show (failIf (s.stop = some 0) (-1) >>= _) s = _
  rw [bind_of_error (failIf_of h)]

end Guppy.Vdisk
