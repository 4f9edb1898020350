import Guppy.Lib.Traced

set_option autoImplicit false

/-! # Formatting a FAT volume

`mkfs_fat_format` of `src/mkfs_fat_core.c` chooses the FAT type from the size of the volume, estimates the
size of a FAT, and writes a boot sector, two empty FATs and an empty root directory. Its arithmetic is
that of unsigned numbers of 32 bits; the FAT size of FAT12 and FAT16 has 16 bits.

The function is given with its steps: each arithmetic result before it is reduced, and each write. The names,
the label and the other constant fields of the boot sector are left out.
-/

namespace Guppy.Fat

inductive FatType
  | fat12
  | fat16
  | fat32
  deriving DecidableEq

/-- `mkfs_fat_opts_t` -/
structure MkfsFatOpts where
  lbaOffset : UInt32
  sizeBytes : UInt64
  bytesPerSec : UInt16
  secPerClus : UInt8
  fatType : Int

/-- `bpb_t`, with the type that its label names. -/
structure Bpb where
  bps : Nat
  spc : Nat
  rsvd : Nat
  nfats : Nat
  rootEntries : Nat
  totsec16 : Nat
  fatsz16 : Nat
  hidden : Nat
  totsec32 : Nat
  fatsz32 : Nat
  fstype : FatType
  deriving DecidableEq

/-- An arithmetic result that is kept in so many bits, or bytes that are written to the image. -/
inductive Step
  | arith (bits : Nat) (result : Int)
  | write (off len : Nat)
  deriving DecidableEq

abbrev Format := Traced Step

/-! ## The code -/

/-- An unsigned result. -/
def wrap (bits : Nat) (x : Int) : Format Nat := ⟨(x % 2 ^ bits).toNat, [.arith bits x]⟩

def write (off len : Nat) : Format Unit := Traced.tell (.write off len)

/-- `put_sector` -/
def putSector (bps lba : Nat) : Format Unit := write (lba * bps) bps

/-- `ceil_div` -/
def ceilDiv (a b : Nat) : Format Nat := do
  let sum ← wrap 32 (a + b)
  let less ← wrap 32 (sum - 1)
  pure (less / b)

/-- The size of a sector. -/
def sectorBytes (o : MkfsFatOpts) : Nat := if o.bytesPerSec = 0 then 512 else o.bytesPerSec.toNat

/-- The size of the volume, with a backing file of `backing` bytes. -/
def volumeBytes (o : MkfsFatOpts) (backing : UInt64) : Nat :=
  let base := o.lbaOffset.toNat * sectorBytes o
  if o.sizeBytes ≠ 0 then o.sizeBytes.toNat else if base < backing.toNat then backing.toNat - base else 0

def chosenType (o : MkfsFatOpts) (bytes : Nat) : FatType :=
  if o.fatType = 12 then .fat12
  else if o.fatType = 16 then .fat16
  else if o.fatType = 32 then .fat32
  else if bytes < 16 * 1024 * 1024 then .fat12
  else if bytes < 512 * 1024 * 1024 then .fat16
  else .fat32

/-- The sectors of a cluster. -/
def clusterSectors (o : MkfsFatOpts) (t : FatType) : Nat :=
  if o.secPerClus = 0 then (if t = .fat32 then 8 else 4) else o.secPerClus.toNat

/-- The size of a FAT32 FAT. -/
def fatSize32 (totsec spc bps : Nat) : Format Nat := do
  let left ← wrap 32 (totsec - 32)
  let dataGuess ← wrap 32 (left - 1)
  let fatBytes ← wrap 32 (dataGuess / spc * 4 : Nat)
  let fatsz ← ceilDiv fatBytes bps
  pure (if fatsz < 1 then 1 else fatsz)

/-- The bytes for so many clusters in a FAT12 or a FAT16 FAT. -/
def fatBytes16 (t : FatType) (clusGuess : Nat) : Format Nat :=
  if t = .fat12 then do
    let three ← wrap 32 (clusGuess * 3 : Nat)
    let more ← wrap 32 (three + 1 : Nat)
    pure (more / 2)
  else wrap 32 (clusGuess * 2 : Nat)

/-- The size of a FAT12 or a FAT16 FAT. -/
def fatSize16 (t : FatType) (totsec spc bps rootSecs : Nat) : Format Nat := do
  let left ← wrap 32 (totsec - 1)
  let dataSecs ← wrap 32 (left - rootSecs)
  let fatBytes ← fatBytes16 t (dataSecs / spc)
  let need ← ceilDiv fatBytes bps
  let fatsz ← wrap 16 need
  pure (if fatsz < 1 then 1 else fatsz)

/-- The writes of a FAT32 volume. -/
def writeFat32 (lba bps fatsz : Nat) : Format Unit := do
  putSector bps lba
  let info ← wrap 32 (lba + 1 : Nat)
  putSector bps info
  let backup ← wrap 32 (lba + 6 : Nat)
  putSector bps backup
  let fat1 ← wrap 32 (lba + 32 : Nat)
  let fat2 ← wrap 32 (fat1 + fatsz : Nat)
  write (fat1 * bps) (fatsz * bps)
  write (fat2 * bps) (fatsz * bps)
  write (fat1 * bps) 12
  write (fat2 * bps) 12

/-- The writes of a FAT12 or a FAT16 volume. -/
def writeFat16 (t : FatType) (lba bps fatsz rootSecs : Nat) : Format Unit := do
  putSector bps lba
  let fat1 ← wrap 32 (lba + 1 : Nat)
  let fat2 ← wrap 32 (fat1 + fatsz : Nat)
  let root ← wrap 32 (fat2 + fatsz : Nat)
  write (fat1 * bps) (fatsz * bps)
  write (fat2 * bps) (fatsz * bps)
  write (root * bps) (rootSecs * bps)
  let head := if t = .fat12 then 3 else 4
  write (fat1 * bps) head
  write (fat2 * bps) head

/-- The sectors before the first FAT. -/
def reserved (t : FatType) : Nat := if t = .fat32 then 32 else 1

/-- The boot sector of a volume of `totsec` sectors. -/
def bootSector (t : FatType) (lba totsec spc bps fatsz : Nat) : Bpb where
  bps := bps
  spc := spc
  rsvd := reserved t
  nfats := 2
  rootEntries := if t = .fat32 then 0 else 512
  totsec16 := if totsec < 65536 then totsec else 0
  fatsz16 := if t = .fat32 then 0 else fatsz
  hidden := lba
  totsec32 := if totsec < 65536 then 0 else totsec
  fatsz32 := if t = .fat32 then fatsz else 0
  fstype := t

/-- The size of a FAT and the writes, for a volume of `totsec` sectors. -/
def formatSectors (t : FatType) (lba totsec spc bps : Nat) : Format Bpb :=
  if t = .fat32 then do
    let fatsz ← fatSize32 totsec spc bps
    writeFat32 lba bps fatsz
    pure (bootSector t lba totsec spc bps fatsz)
  else do
    let rootSecs ← ceilDiv (512 * 32) bps
    let fatsz ← fatSize16 t totsec spc bps rootSecs
    writeFat16 t lba bps fatsz rootSecs
    pure (bootSector t lba totsec spc bps fatsz)

/-- `mkfs_fat_format`; `none` when the volume is too small. -/
def mkfsFatFormat (o : MkfsFatOpts) (backing : UInt64) : Format (Option Bpb) :=
  let bytes := volumeBytes o backing
  if bytes < 100 * 512 then pure none
  else do
    let t := chosenType o bytes
    let totsec ← wrap 32 (bytes / sectorBytes o : Nat)
    let b ← formatSectors t o.lbaOffset.toNat totsec (clusterSectors o t) (sectorBytes o)
    pure (some b)

/-- The default options for a volume of so many bytes. -/
def defaultOpts (sizeBytes : UInt64) : MkfsFatOpts := ⟨0, sizeBytes, 512, 0, -1⟩

/-! ## What a reader takes from the boot sector -/

namespace Bpb

def totalSectors (b : Bpb) : Nat := if b.totsec16 ≠ 0 then b.totsec16 else b.totsec32

def fatSectors (b : Bpb) : Nat := if b.fatsz16 ≠ 0 then b.fatsz16 else b.fatsz32

def rootSectors (b : Bpb) : Nat := (b.rootEntries * 32 + b.bps - 1) / b.bps

/-- The number of data clusters. -/
def clusters (b : Bpb) : Int :=
  ((b.totalSectors : Int) - b.rsvd - b.nfats * b.fatSectors - b.rootSectors) / b.spc

end Bpb

/-! ## Arithmetic without wrapping -/

theorem sectorBytes_bounds (o : MkfsFatOpts) : 0 < sectorBytes o ∧ sectorBytes o < 65536 := by
  unfold sectorBytes
  split
  · decide
  · rename_i h
    constructor
    · exact Nat.pos_of_ne_zero fun hzero => h (UInt16.toNat_inj.mp hzero)
    · exact UInt16.toNat_lt _

theorem clusterSectors_bounds (o : MkfsFatOpts) (t : FatType) : 0 < clusterSectors o t ∧ clusterSectors o t < 256 := by
  unfold clusterSectors
  split
  · split <;> decide
  · rename_i h
    constructor
    · exact Nat.pos_of_ne_zero fun hzero => h (UInt8.toNat_inj.mp hzero)
    · exact UInt8.toNat_lt _

@[simp] theorem every_wrap {P : Step → Prop} (bits : Nat) (x : Int) : (wrap bits x).Every P ↔ P (.arith bits x) := by
  simp [wrap, Traced.Every]

theorem wrap_value_nat (bits n : Nat) : (wrap bits n).value = n % 2 ^ bits := by
  have hcast : (n : Int) % 2 ^ bits = ((n % 2 ^ bits : Nat) : Int) := by
    push_cast
    rfl
  show ((n : Int) % 2 ^ bits).toNat = _
  rw [hcast, Int.toNat_natCast]

theorem wrap_value {bits n : Nat} (h : n < 2 ^ bits) : (wrap bits n).value = n := by
  rw [wrap_value_nat, Nat.mod_eq_of_lt h]

theorem wrap_value_sub {bits a b : Nat} (hb : b ≤ a) (ha : a < 2 ^ bits) : (wrap bits (a - b)).value = a - b := by
  rw [← Int.ofNat_sub hb]
  exact wrap_value (by omega)

theorem ceilDiv_value {a b : Nat} (hb : 0 < b) (h : a + b < 2 ^ 32) : (ceilDiv a b).value = (a + b - 1) / b := by
  have hsum : (wrap 32 ((a : Int) + b)).value = a + b := by
    rw [← Int.natCast_add]
    exact wrap_value h
  have hless : (wrap 32 (((a + b : Nat) : Int) - 1)).value = a + b - 1 :=
    @wrap_value_sub 32 (a + b) 1 (by omega) h
  unfold ceilDiv
  rw [Traced.value_bind, hsum, Traced.value_bind, hless, Traced.value_pure]

/-- A quotient rounded up is at most `c`. -/
theorem ceil_le_iff {a b c : Nat} (hb : 0 < b) : (a + b - 1) / b ≤ c ↔ a ≤ b * c := by
  rw [Nat.div_le_iff_le_mul_add_pred hb]
  omega

/-! ## Sizes without wrapping -/

/-- The sectors of the root directory. -/
def rootSecs (t : FatType) (bps : Nat) : Nat := if t = .fat32 then 0 else (512 * 32 + bps - 1) / bps

/-- The bytes of so many entries of a FAT. -/
def entryBytes (t : FatType) (n : Nat) : Nat :=
  match t with
  | .fat12 => (n * 3 + 1) / 2
  | .fat16 => n * 2
  | .fat32 => n * 4

/-- The sectors that are left for FATs and clusters. -/
def usable (t : FatType) (s bps : Nat) : Nat := s - reserved t - rootSecs t bps

/-- The estimated number of clusters. -/
def guess (t : FatType) (s spc bps : Nat) : Nat := (usable t s bps - if t = .fat32 then 1 else 0) / spc

/-- The sectors of a FAT with so many entries. -/
def sectorsFor (t : FatType) (n bps : Nat) : Nat := (entryBytes t n + bps - 1) / bps

theorem guess_fat32 (s spc bps : Nat) : guess .fat32 s spc bps = (s - 33) / spc := by
  unfold guess usable
  rw [if_pos rfl]
  show (s - 32 - 0 - 1) / spc = _
  congr 1

theorem guess_fat16 {t : FatType} {s spc bps : Nat} (ht : t ≠ .fat32) : guess t s spc bps = (s - 1 - rootSecs t bps) / spc := by
  unfold guess usable reserved
  rw [if_neg ht, if_neg ht, Nat.sub_zero]

theorem usable_fat16 {t : FatType} {s bps : Nat} (ht : t ≠ .fat32) : usable t s bps = s - 1 - rootSecs t bps := by
  unfold usable reserved
  rw [if_neg ht]

/-- The root directory has 512 entries of 32 bytes. -/
theorem rootSecs_bytes {t : FatType} {bps : Nat} (ht : t ≠ .fat32) (hb : 0 < bps) : 512 * 32 ≤ bps * rootSecs t bps := by
  unfold rootSecs
  rw [if_neg ht]
  exact (ceil_le_iff hb).mp (le_refl _)

theorem fatBytes16_value {t : FatType} {n : Nat} (ht : t ≠ .fat32) (hthrice : t = .fat12 → n * 3 + 1 < 2 ^ 32)
    (h : entryBytes t n < 2 ^ 32) : (fatBytes16 t n).value = entryBytes t n := by
  unfold fatBytes16
  cases t with
  | fat12 =>
      have hmore := hthrice rfl
      rw [if_pos rfl, Traced.value_bind, wrap_value (by omega), Traced.value_bind, wrap_value hmore]
      rfl
  | fat16 =>
      rw [if_neg (by decide)]
      exact wrap_value h
  | fat32 => exact absurd rfl ht

theorem fatSize32_value {s spc bps : Nat} (hs : 33 ≤ s) (hs' : s < 2 ^ 32) (hb : 0 < bps)
    (h : (s - 33) / spc * 4 + bps < 2 ^ 32) : (fatSize32 s spc bps).value = max 1 (sectorsFor .fat32 ((s - 33) / spc) bps) := by
  have hleft : (wrap 32 ((s : Int) - 32)).value = s - 32 := @wrap_value_sub 32 s 32 (by omega) hs'
  have hguess : (wrap 32 (((s - 32 : Nat) : Int) - 1)).value = s - 33 := by
    rw [show s - 33 = s - 32 - 1 by omega]
    exact @wrap_value_sub 32 (s - 32) 1 (by omega) (by omega)
  have hceil : (ceilDiv ((s - 33) / spc * 4) bps).value = sectorsFor .fat32 ((s - 33) / spc) bps := ceilDiv_value hb h
  unfold fatSize32
  rw [Traced.value_bind, hleft, Traced.value_bind, hguess, Traced.value_bind, wrap_value (by omega), Traced.value_bind, hceil,
    Traced.value_pure]
  split <;> omega

theorem fatSize16_value {t : FatType} {s spc bps root : Nat} (ht : t ≠ .fat32) (hs : 1 + root ≤ s) (hs' : s < 2 ^ 32)
    (hb : 0 < bps) (hthrice : t = .fat12 → (s - 1 - root) / spc * 3 + 1 < 2 ^ 32)
    (h : entryBytes t ((s - 1 - root) / spc) + bps < 2 ^ 32) :
    (fatSize16 t s spc bps root).value = max 1 (sectorsFor t ((s - 1 - root) / spc) bps % 65536) := by
  have hleft : (wrap 32 ((s : Int) - 1)).value = s - 1 := @wrap_value_sub 32 s 1 (by omega) hs'
  have hdata : (wrap 32 (((s - 1 : Nat) : Int) - root)).value = s - 1 - root :=
    @wrap_value_sub 32 (s - 1) root (by omega) (by omega)
  have hceil : (ceilDiv (entryBytes t ((s - 1 - root) / spc)) bps).value = sectorsFor t ((s - 1 - root) / spc) bps :=
    ceilDiv_value hb h
  unfold fatSize16
  rw [Traced.value_bind, hleft, Traced.value_bind, hdata, Traced.value_bind, fatBytes16_value ht hthrice (by omega),
    Traced.value_bind, hceil, Traced.value_bind, wrap_value_nat, Traced.value_pure]
  split <;> omega

/-- The size of a FAT in the boot sector. -/
def fatLength (t : FatType) (s spc bps : Nat) : Nat :=
  if t = .fat32 then (fatSize32 s spc bps).value else (fatSize16 t s spc bps (rootSecs t bps)).value

theorem fatLength_pos (t : FatType) (s spc bps : Nat) : 0 < fatLength t s spc bps := by
  have hone : ∀ n : Nat, 0 < (if n < 1 then 1 else n) := by
    intro n
    split <;> omega
  unfold fatLength
  split
  · exact hone _
  · exact hone _

theorem rootSecs_value {t : FatType} {bps : Nat} (ht : t ≠ .fat32) (hb : 0 < bps) (hb' : bps < 65536) :
    (ceilDiv (512 * 32) bps).value = rootSecs t bps := by
  unfold rootSecs
  rw [if_neg ht]
  exact ceilDiv_value hb (by omega)

theorem formatSectors_value {t : FatType} {lba s spc bps : Nat} (hb : 0 < bps) (hb' : bps < 65536) :
    (formatSectors t lba s spc bps).value = bootSector t lba s spc bps (fatLength t s spc bps) := by
  unfold formatSectors fatLength
  by_cases ht : t = .fat32
  · rw [if_pos ht, if_pos ht]
    rfl
  · rw [if_neg ht, if_neg ht, Traced.value_bind, rootSecs_value ht hb hb']
    rfl

/-- The steps of an accepted volume. -/
theorem mkfsFatFormat_every {o : MkfsFatOpts} {backing : UInt64} {P : Step → Prop} (h : 100 * 512 ≤ volumeBytes o backing) :
    let t := chosenType o (volumeBytes o backing)
    let s := volumeBytes o backing / sectorBytes o
    (mkfsFatFormat o backing).Every P ↔ (wrap 32 s).Every P ∧
      (formatSectors t o.lbaOffset.toNat (s % 2 ^ 32) (clusterSectors o t) (sectorBytes o)).Every P := by
  unfold mkfsFatFormat
  dsimp only []
  rw [if_neg (Nat.not_lt.mpr h), Traced.every_bind, wrap_value_nat, Traced.every_bind]
  exact and_congr_right fun _ => and_iff_left (Traced.every_pure _)

/-- The boot sector of an accepted volume. -/
theorem mkfsFatFormat_value {o : MkfsFatOpts} {backing : UInt64} {b : Bpb} (h : (mkfsFatFormat o backing).value = some b) :
    let t := chosenType o (volumeBytes o backing)
    let s := volumeBytes o backing / sectorBytes o % 2 ^ 32
    100 * 512 ≤ volumeBytes o backing ∧ b = bootSector t o.lbaOffset.toNat s (clusterSectors o t) (sectorBytes o)
      (fatLength t s (clusterSectors o t) (sectorBytes o)) := by
  obtain ⟨hb, hb'⟩ := sectorBytes_bounds o
  unfold mkfsFatFormat at h
  dsimp only [] at h ⊢
  by_cases hsmall : volumeBytes o backing < 100 * 512
  · rw [if_pos hsmall] at h
    exact absurd h (by simp)
  · rw [if_neg hsmall, Traced.value_bind, wrap_value_nat, Traced.value_bind, formatSectors_value hb hb', Traced.value_pure] at h
    exact ⟨Nat.not_lt.mp hsmall, (Option.some.inj h).symm⟩

/-! ## The boot sector -/

section

variable {t : FatType} {lba s spc bps fatsz : Nat}

theorem bootSector_total : (bootSector t lba s spc bps fatsz).totalSectors = s := by
  unfold Bpb.totalSectors bootSector
  dsimp only []
  by_cases h : s < 65536
  · rw [if_pos h, if_pos h]
    split <;> omega
  · rw [if_neg h, if_neg h]
    rfl

theorem bootSector_fat (h : 0 < fatsz) : (bootSector t lba s spc bps fatsz).fatSectors = fatsz := by
  unfold Bpb.fatSectors bootSector
  dsimp only []
  by_cases ht : t = .fat32
  · rw [if_pos ht, if_neg (not_not.mpr rfl), if_pos ht]
  · rw [if_neg ht, if_pos (by omega)]

theorem bootSector_root (hb : 0 < bps) : (bootSector t lba s spc bps fatsz).rootSectors = rootSecs t bps := by
  unfold Bpb.rootSectors bootSector rootSecs
  dsimp only []
  by_cases ht : t = .fat32
  · rw [if_pos ht, if_pos ht]
    exact Nat.div_eq_of_lt (by omega)
  · rw [if_neg ht, if_neg ht]

theorem bootSector_clusters (hb : 0 < bps) (h : 0 < fatsz) : (bootSector t lba s spc bps fatsz).clusters =
    ((s : Int) - reserved t - 2 * fatsz - rootSecs t bps) / spc := by
  unfold Bpb.clusters
  rw [bootSector_total, bootSector_fat h, bootSector_root hb]
  rfl

end

/-- A number of clusters fits if the metadata leave that many. -/
theorem le_clusters_iff {s r f root spc n : Nat} (hspc : 0 < spc) :
    (n : Int) ≤ ((s : Int) - r - 2 * f - root) / spc ↔ r + root + 2 * f + n * spc ≤ s := by
  rw [Int.le_ediv_iff_mul_le (by omega), ← Int.natCast_mul]
  omega

/-- The size of a FAT is at most `n` sectors. -/
theorem fat_le_iff {bytes bps n : Nat} (hb : 0 < bps) (hbytes : 0 < bytes) :
    max 1 ((bytes + bps - 1) / bps) ≤ n ↔ bytes ≤ bps * n := by
  rw [max_le_iff, ceil_le_iff hb]
  refine ⟨And.right, fun h => ⟨Nat.pos_of_ne_zero fun hn => ?_, h⟩⟩
  rw [hn, Nat.mul_zero] at h
  omega

end Guppy.Fat
