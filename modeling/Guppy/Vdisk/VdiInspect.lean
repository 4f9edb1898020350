import Guppy.Vdisk.Inspect
import Guppy.Vdisk.VdiAccept
import Mathlib.Order.Interval.Finset.Nat

set_option autoImplicit false

/-! # Inspecting a VDI image

`vdisk_vdi_inspect` checks the header of an image with code of its own and then reads the whole
block map: it counts the allocated, unallocated and invalid entries, and the entries that occur
twice. For the last count it needs a table of the entries seen so far, which it asks for only
when the image has at most `seenLimit` blocks; without the table no entry counts as a duplicate.

`header_checks_iff` and `Scanned` say what the two halves of the inspection establish. An image
that is reported valid can be opened and its map is sound (`valid_image_opens`), but in an image
with more blocks two of them may share their data (`many_blocks_share_data`).
-/

namespace Guppy.Vdisk

open Prog

/-! ## The inspector -/

/-- `16U*1024U*1024U` -/
def seenLimit : Nat := 16 * 1024 * 1024

/-- The counters of the loop over the block map, and the table of entries seen so far. -/
structure MapScan where
  allocated : Nat
  unallocated : Nat
  invalid : Nat
  duplicates : Nat
  seen : Option (Nat → Bool)

/-- The state before the loop. `calloc` says whether the host can allocate the table. -/
def scanStart (calloc : Bool) (blocks : Nat) : MapScan :=
  { allocated := 0, unallocated := 0, invalid := 0, duplicates := 0
    seen := if blocks ≤ seenLimit ∧ calloc = true then some (fun _ => false) else none }

/-- `if(seen[v]) info->map_duplicate_entries++; seen[v]=1;` -/
def MapScan.see (m : MapScan) (v : Nat) : MapScan :=
  match m.seen with
  | none => m
  | some t =>
      { m with
        duplicates := if t v = true then count32 m.duplicates else m.duplicates
        seen := some (fun w => decide (w = v) || t w) }

/-- One iteration of the loop over the block map. -/
def scanEntry (f : HostFile) (imageType offBlocks blocks allocated : Nat) (m : MapScan) (i : Nat) :
    MapScan :=
  match f.read (offBlocks + i * 4) 4 with
  | none => { m with invalid := count32 m.invalid }
  | some e =>
      let v := e.rd32 0
      if v = vdiBlockUnallocated then
        { m with
          unallocated := count32 m.unallocated
          invalid := if imageType = vdiImageTypeFixed then count32 m.invalid else m.invalid }
      else
        let m := { m with allocated := count32 m.allocated }
        if allocated ≤ v ∨ blocks ≤ v then { m with invalid := count32 m.invalid } else m.see v

/-- The loop over the first `n` entries of the block map. -/
def scanMap (calloc : Bool) (f : HostFile) (imageType offBlocks blocks allocated n : Nat) : MapScan :=
  (List.range n).foldl (scanEntry f imageType offBlocks blocks allocated) (scanStart calloc blocks)

/-- The checks that every image undergoes before its map is read. -/
def fieldChecks (h : Mem) (hostSize : Nat) : List Bool :=
  let offBlocks := h.rd32 0x154
  let offData := h.rd32 0x158
  let blockSize := h.rd32 0x178
  let blocks := h.rd32 0x180
  [ h.rd32 0x40 = vdiSignature,
    h.rd32 0x44 = vdiVersion11,
    0x180 ≤ h.rd32 0x48 ∧ h.rd32 0x48 ≤ vdiHeaderBytes,
    h.rd32 0x4c = vdiImageTypeFixed ∨ h.rd32 0x4c = vdiImageTypeDynamic,
    h.rd32 0x168 = vdiSectorSize,
    h.rd64 0x170 ≠ 0,
    blockSize ≠ 0,
    h.rd32 0x17c = 0,
    blocks ≠ 0,
    h.rd32 0x184 ≤ blocks,
    vdiHeaderBytes ≤ offBlocks,
    offBlocks < offData,
    offBlocks + blocks * 4 ≤ offData,
    offData ≤ hostSize,
    if blockSize ≠ 0 ∧ blocks ≠ 0 then decide (h.rd64 0x170 ≤ blocks * blockSize) else false ]

/-- The checks on the end of the data area; `required` is a 64-bit sum. -/
def extentChecks (h : Mem) (hostSize : Nat) : List Bool :=
  let offData := h.rd32 0x158
  let blockSize := h.rd32 0x178
  let allocated := h.rd32 0x184
  if h.rd32 0x4c = vdiImageTypeFixed ∧ blockSize ≠ 0 then
    let required := (offData + h.rd64 0x170) % (uint64Max + 1)
    [allocated = h.rd32 0x180, offData ≤ required ∧ required ≤ hostSize]
  else if h.rd32 0x4c = vdiImageTypeDynamic ∧ blockSize ≠ 0 then
    let required := (offData + allocated * blockSize) % (uint64Max + 1)
    [offData ≤ required ∧ required ≤ hostSize]
  else []

/-- The checks on what the loop over the map has counted. -/
def mapChecks (imageType blocks allocated : Nat) (m : MapScan) : List Bool :=
  [ m.invalid = 0,
    m.duplicates = 0,
    m.allocated = allocated,
    if imageType = vdiImageTypeDynamic then
      decide (m.unallocated = (blocks + (uint32Max + 1) - allocated) % (uint32Max + 1))
    else decide (m.unallocated = 0) ]

def variantOf (imageType : Nat) : String :=
  if imageType = vdiImageTypeDynamic then "dynamic/sparse"
  else if imageType = vdiImageTypeFixed then "fixed/full"
  else "unknown"

/-- The fields of the report that are copied from the header. -/
def infoOfHeader (h : Mem) (hostSize : Nat) : Info :=
  { Info.cleared with
    format := .vdi
    supported := true
    hostSizeBytes := hostSize
    logicalSizeBytes := h.rd64 0x170
    dataOffset := h.rd32 0x158
    blocksOffset := h.rd32 0x154
    imageType := h.rd32 0x4c
    sectorSize := h.rd32 0x168
    blockSize := h.rd32 0x178
    blocksCount := h.rd32 0x180
    blocksAllocated := h.rd32 0x184
    variant := variantOf (h.rd32 0x4c) }

/-- `info->map_..._entries` -/
def Info.withScan (info : Info) (m : MapScan) : Info :=
  { info with
    mapAllocatedEntries := m.allocated
    mapUnallocatedEntries := m.unallocated
    mapInvalidEntries := m.invalid
    mapDuplicateEntries := m.duplicates }

def vdiskVdiInspect (calloc : Bool) (f : HostFile) : Option Info := do
  let h ← f.read 0 vdiHeaderBytes
  let blocks := h.rd32 0x180
  let allocated := h.rd32 0x184
  let info := (infoOfHeader h f.size).checks (fieldChecks h f.size ++ extentChecks h f.size)
  if blocks ≠ 0 ∧ h.rd32 0x154 + blocks * 4 ≤ f.size then
    let m := scanMap calloc f (h.rd32 0x4c) (h.rd32 0x154) blocks allocated blocks
    some ((info.withScan m).checks (mapChecks (h.rd32 0x4c) blocks allocated m)).conclude
  else some { info with checksFailed := info.checksFailed + 4 }.conclude

/-- `vdisk_vdi_inspect` reports the image structurally valid. -/
def Valid (calloc : Bool) (f : HostFile) : Prop :=
  ∃ info, vdiskVdiInspect calloc f = some info ∧ info.structurallyValid = true

/-! ## The header -/

/-- What the checks on the header establish. -/
structure HeaderFacts (h : Mem) (hostSize : Nat) : Prop where
  signature : h.rd32 0x40 = vdiSignature
  version : h.rd32 0x44 = vdiVersion11
  headerSize : 0x180 ≤ h.rd32 0x48 ∧ h.rd32 0x48 ≤ vdiHeaderBytes
  imageType : h.rd32 0x4c = vdiImageTypeFixed ∨ h.rd32 0x4c = vdiImageTypeDynamic
  sectorSize : h.rd32 0x168 = vdiSectorSize
  size_ne : h.rd64 0x170 ≠ 0
  blockSize_ne : h.rd32 0x178 ≠ 0
  blockExtra : h.rd32 0x17c = 0
  blocks_ne : h.rd32 0x180 ≠ 0
  allocated_le : h.rd32 0x184 ≤ h.rd32 0x180
  header_map : vdiHeaderBytes ≤ h.rd32 0x154
  map_data : h.rd32 0x154 + h.rd32 0x180 * 4 ≤ h.rd32 0x158
  data_file : h.rd32 0x158 ≤ hostSize
  size_le : h.rd64 0x170 ≤ h.rd32 0x180 * h.rd32 0x178
  fixed : h.rd32 0x4c = vdiImageTypeFixed → h.rd32 0x184 = h.rd32 0x180 ∧
    h.rd32 0x158 + h.rd64 0x170 ≤ uint64Max ∧ h.rd32 0x158 + h.rd64 0x170 ≤ hostSize
  dynamic : h.rd32 0x4c = vdiImageTypeDynamic →
    h.rd32 0x158 + h.rd32 0x184 * h.rd32 0x178 ≤ hostSize

/-- The end of the allocated blocks is a 64-bit number, whatever the header says. -/
theorem dynamic_end_lt (h : Mem) : h.rd32 0x158 + h.rd32 0x184 * h.rd32 0x178 < uint64Max + 1 := by
  have h₁ := Mem.rd32_lt h 0x158
  have h₂ := Mem.rd32_lt h 0x184
  have h₃ := Mem.rd32_lt h 0x178
  calc h.rd32 0x158 + h.rd32 0x184 * h.rd32 0x178
      ≤ 4294967295 + 4294967295 * 4294967295 :=
        Nat.add_le_add (by omega) (Nat.mul_le_mul (by omega) (by omega))
    _ < uint64Max + 1 := by decide

/-- A 64-bit sum that is not below its first part has not wrapped around. -/
theorem sum_checked_iff {a b n : Nat} (ha : a < 18446744073709551616) (hb : b < 18446744073709551616) :
    (a ≤ (a + b) % (uint64Max + 1) ∧ (a + b) % (uint64Max + 1) ≤ n) ↔ a + b ≤ uint64Max ∧ a + b ≤ n := by
  simp only [uint64Max]
  omega

theorem header_checks_iff (h : Mem) (hostSize : Nat) :
    (∀ c ∈ fieldChecks h hostSize ++ extentChecks h hostSize, c = true) ↔ HeaderFacts h hostSize := by
  have hoff : h.rd32 0x158 < 18446744073709551616 := lt_trans (Mem.rd32_lt _ _) (by decide)
  have hsum := sum_checked_iff (n := hostSize) hoff (Mem.rd64_lt h 0x170)
  have hend := dynamic_end_lt h
  have hblocks : h.rd32 0x184 * h.rd32 0x178 < 18446744073709551616 :=
    lt_of_le_of_lt (Nat.le_add_left _ _) hend
  have hsum' := sum_checked_iff (n := hostSize) hoff hblocks
  rw [List.forall_mem_append]
  constructor
  · rintro ⟨hf, he⟩
    simp only [fieldChecks, List.forall_mem_cons, decide_eq_true_eq] at hf
    obtain ⟨f₁, f₂, f₃, f₄, f₅, f₆, f₇, f₈, f₉, f₁₀, f₁₁, -, f₁₃, f₁₄, f₁₅, -⟩ := hf
    rw [if_pos ⟨f₇, f₉⟩, decide_eq_true_eq] at f₁₅
    refine ⟨f₁, f₂, f₃, f₄, f₅, f₆, f₇, f₈, f₉, f₁₀, f₁₁, f₁₃, f₁₄, f₁₅, ?_, ?_⟩
    · intro ht
      simp only [extentChecks] at he
      rw [if_pos ⟨ht, f₇⟩] at he
      simp only [List.forall_mem_cons, decide_eq_true_eq] at he
      exact ⟨he.1, hsum.mp he.2.1⟩
    · intro ht
      have hnf : ¬ h.rd32 0x4c = vdiImageTypeFixed := by
        rw [ht]
        decide
      simp only [extentChecks] at he
      rw [if_neg (fun hc => hnf hc.1), if_pos ⟨ht, f₇⟩] at he
      simp only [List.forall_mem_cons, decide_eq_true_eq] at he
      exact (hsum'.mp he.1).2
  · intro hh
    constructor
    · have hlt : h.rd32 0x154 < h.rd32 0x158 := by
        have := hh.map_data
        have := hh.blocks_ne
        omega
      simp only [fieldChecks, List.forall_mem_cons, decide_eq_true_eq]
      refine ⟨hh.signature, hh.version, hh.headerSize, hh.imageType, hh.sectorSize, hh.size_ne,
        hh.blockSize_ne, hh.blockExtra, hh.blocks_ne, hh.allocated_le, hh.header_map, hlt,
        hh.map_data, hh.data_file, ?_, by simp⟩
      rw [if_pos ⟨hh.blockSize_ne, hh.blocks_ne⟩, decide_eq_true_eq]
      exact hh.size_le
    · simp only [extentChecks]
      rcases hh.imageType with ht | ht
      · rw [if_pos ⟨ht, hh.blockSize_ne⟩]
        simp only [List.forall_mem_cons, decide_eq_true_eq]
        exact ⟨(hh.fixed ht).1, hsum.mpr (hh.fixed ht).2, by simp⟩
      · have hnf : ¬ h.rd32 0x4c = vdiImageTypeFixed := by
          rw [ht]
          decide
        rw [if_neg (fun hc => hnf hc.1), if_pos ⟨ht, hh.blockSize_ne⟩]
        simp only [List.forall_mem_cons, decide_eq_true_eq]
        exact ⟨hsum'.mpr ⟨Nat.le_of_lt_succ hend, hh.dynamic ht⟩, by simp⟩

/-! ## The block map -/

section Map

variable (f : HostFile) (imageType offBlocks blocks allocated : Nat)

/-- The entry of the block `i`. -/
def mapEntry (i : Nat) : Nat := f.bytes.rd32 (offBlocks + i * 4)

/-- The entry of the block `i` is that of a data block of the image. -/
def Placed (i : Nat) : Prop :=
  mapEntry f offBlocks i ≠ vdiBlockUnallocated ∧ mapEntry f offBlocks i < allocated ∧
    mapEntry f offBlocks i < blocks

/-- The entry of the block `i` does not count as invalid. -/
def GoodEntry (i : Nat) : Prop :=
  if mapEntry f offBlocks i = vdiBlockUnallocated then imageType ≠ vdiImageTypeFixed
  else mapEntry f offBlocks i < allocated ∧ mapEntry f offBlocks i < blocks

/-- No data block belongs to two of the first `n` blocks. -/
def DistinctBelow (n : Nat) : Prop :=
  ∀ i j, i < j → j < n → Placed f offBlocks blocks allocated i →
    Placed f offBlocks blocks allocated j → mapEntry f offBlocks i ≠ mapEntry f offBlocks j

/-- What the table and the count of duplicates say once the first `n` entries are read. -/
structure Tracked (table : Bool) (n : Nat) (m : MapScan) : Prop where
  duplicates_le : m.duplicates ≤ n
  no_table : table = false → m.seen = none ∧ m.duplicates = 0
  tracked : table = true → ∃ t, m.seen = some t ∧
    (∀ v, t v = true ↔ ∃ i, i < n ∧ Placed f offBlocks blocks allocated i ∧ mapEntry f offBlocks i = v) ∧
    (m.duplicates = 0 ↔ DistinctBelow f offBlocks blocks allocated n)

/-- What all counters say once the first `n` entries are read. -/
structure Scanned (table : Bool) (n : Nat) (m : MapScan) : Prop
    extends Tracked f offBlocks blocks allocated table n m where
  unallocated_eq : m.unallocated = Nat.count (fun i => mapEntry f offBlocks i = vdiBlockUnallocated) n
  allocated_eq : m.allocated = Nat.count (fun i => mapEntry f offBlocks i ≠ vdiBlockUnallocated) n
  invalid_le : m.invalid ≤ n
  invalid_zero : m.invalid = 0 ↔ ∀ i, i < n → GoodEntry f imageType offBlocks blocks allocated i

end Map

section Scan

variable {f : HostFile} {imageType offBlocks blocks allocated : Nat}

theorem scanned_start (calloc : Bool) :
    Scanned f imageType offBlocks blocks allocated (decide (blocks ≤ seenLimit) && calloc) 0
      (scanStart calloc blocks) where
  unallocated_eq := rfl
  allocated_eq := rfl
  invalid_le := le_refl _
  invalid_zero := ⟨fun _ i hi => absurd hi (Nat.not_lt_zero i), fun _ => rfl⟩
  duplicates_le := le_refl _
  no_table := by
    intro ht
    refine ⟨if_neg ?_, rfl⟩
    simpa using ht
  tracked := by
    intro ht
    refine ⟨fun _ => false, if_pos (by simpa using ht), fun v => ?_, ?_⟩
    · simp
    · exact ⟨fun _ i j _ hj => absurd hj (Nat.not_lt_zero j), fun _ => rfl⟩

theorem forall_lt_succ {p : Nat → Prop} {n : Nat} : (∀ i, i < n + 1 → p i) ↔ (∀ i, i < n → p i) ∧ p n := by
  constructor
  · intro h
    exact ⟨fun i hi => h i (by omega), h n (Nat.lt_succ_self n)⟩
  · rintro ⟨hlt, hn⟩ i hi
    rcases Nat.lt_succ_iff_lt_or_eq.mp hi with hi | rfl
    · exact hlt i hi
    · exact hn

theorem distinctBelow_succ {n : Nat} : DistinctBelow f offBlocks blocks allocated (n + 1) ↔
    DistinctBelow f offBlocks blocks allocated n ∧
      (Placed f offBlocks blocks allocated n → ∀ i, i < n → Placed f offBlocks blocks allocated i →
        mapEntry f offBlocks i ≠ mapEntry f offBlocks n) := by
  constructor
  · intro h
    exact ⟨fun i j hij hj => h i j hij (by omega),
      fun hp i hi hpi => h i n hi (Nat.lt_succ_self n) hpi hp⟩
  · rintro ⟨hlt, hn⟩ i j hij hj hpi hpj
    rcases Nat.lt_succ_iff_lt_or_eq.mp hj with hj | rfl
    · exact hlt i j hij hj hpi hpj
    · exact hn hpj i hij hpi

/-- An entry that belongs to no data block is not entered in the table. -/
theorem Tracked.skip {table : Bool} {n : Nat} {m m' : MapScan}
    (h : Tracked f offBlocks blocks allocated table n m) (hnot : ¬ Placed f offBlocks blocks allocated n)
    (hseen : m'.seen = m.seen) (hdup : m'.duplicates = m.duplicates) :
    Tracked f offBlocks blocks allocated table (n + 1) m' where
  duplicates_le := by
    rw [hdup]
    exact le_trans h.duplicates_le (Nat.le_succ n)
  no_table := by
    rw [hseen, hdup]
    exact h.no_table
  tracked := by
    intro htab
    obtain ⟨t, ht, hmem, hzero⟩ := h.tracked htab
    refine ⟨t, hseen.trans ht, fun v => ?_, ?_⟩
    · rw [hmem]
      constructor
      · rintro ⟨i, hi, hp⟩
        exact ⟨i, by omega, hp⟩
      · rintro ⟨i, hi, hp, he⟩
        rcases Nat.lt_succ_iff_lt_or_eq.mp hi with hi | rfl
        · exact ⟨i, hi, hp, he⟩
        · exact absurd hp hnot
    · rw [hdup, distinctBelow_succ]
      exact ⟨fun hz => ⟨hzero.mp hz, fun hp => absurd hp hnot⟩, fun hd => hzero.mpr hd.1⟩

/-- An entry of a data block is a duplicate when the table has it already. -/
theorem Tracked.see {table : Bool} {n : Nat} {m : MapScan}
    (h : Tracked f offBlocks blocks allocated table n m) (hp : Placed f offBlocks blocks allocated n)
    (hn : n < uint32Max) :
    Tracked f offBlocks blocks allocated table (n + 1) (m.see (mapEntry f offBlocks n)) := by
  have hle := h.duplicates_le
  cases table with
  | false =>
      obtain ⟨hseen, hdup⟩ := h.no_table rfl
      have hsee : m.see (mapEntry f offBlocks n) = m := by
        unfold MapScan.see
        rw [hseen]
      rw [hsee]
      exact ⟨by omega, fun _ => ⟨hseen, hdup⟩, fun hc => absurd hc (by decide)⟩
  | true =>
      obtain ⟨t, hseen, hmem, hzero⟩ := h.tracked rfl
      have hsee : m.see (mapEntry f offBlocks n) =
          { m with
            duplicates := if t (mapEntry f offBlocks n) = true then count32 m.duplicates else m.duplicates
            seen := some (fun w => decide (w = mapEntry f offBlocks n) || t w) } := by
        unfold MapScan.see
        rw [hseen]
      rw [hsee]
      refine ⟨?_, fun hc => absurd hc (by decide), fun _ => ⟨_, rfl, fun v => ?_, ?_⟩⟩
      · by_cases ht : t (mapEntry f offBlocks n) = true
        · simp only [if_pos ht, count32_eq (show m.duplicates < uint32Max by omega)]
          omega
        · simp only [if_neg ht]
          omega
      · rw [Bool.or_eq_true, decide_eq_true_eq, hmem]
        constructor
        · rintro (rfl | ⟨i, hi, hpi⟩)
          · exact ⟨n, Nat.lt_succ_self n, hp, rfl⟩
          · exact ⟨i, by omega, hpi⟩
        · rintro ⟨i, hi, hpi, he⟩
          rcases Nat.lt_succ_iff_lt_or_eq.mp hi with hi | rfl
          · exact Or.inr ⟨i, hi, hpi, he⟩
          · exact Or.inl he.symm
      · rw [distinctBelow_succ]
        by_cases ht : t (mapEntry f offBlocks n) = true
        · simp only [if_pos ht, count32_eq (show m.duplicates < uint32Max by omega)]
          obtain ⟨i, hi, hpi, he⟩ := (hmem _).mp ht
          constructor
          · intro h0
            exact absurd h0 (Nat.succ_ne_zero _)
          · rintro ⟨-, hnew⟩
            exact absurd he (hnew hp i hi hpi)
        · simp only [if_neg ht]
          rw [hzero]
          constructor
          · intro hd
            exact ⟨hd, fun _ i hi hpi he => ht ((hmem _).mpr ⟨i, hi, hpi, he⟩)⟩
          · exact fun hd => hd.1

theorem see_counts (m : MapScan) (v : Nat) : (m.see v).allocated = m.allocated ∧
    (m.see v).unallocated = m.unallocated ∧ (m.see v).invalid = m.invalid := by
  unfold MapScan.see
  cases m.seen with
  | none => exact ⟨rfl, rfl, rfl⟩
  | some t => exact ⟨rfl, rfl, rfl⟩

/-- Reading the next entry keeps the account. -/
theorem Scanned.step {table : Bool} {n : Nat} {m : MapScan}
    (h : Scanned f imageType offBlocks blocks allocated table n m)
    (hfile : offBlocks + blocks * 4 ≤ f.size) (hn : n < blocks) (hmax : n < uint32Max) :
    Scanned f imageType offBlocks blocks allocated table (n + 1)
      (scanEntry f imageType offBlocks blocks allocated m n) := by
  have hread : f.read (offBlocks + n * 4) 4 = some (f.bytes.slice (offBlocks + n * 4) 4) :=
    HostFile.read_of_le (by omega)
  have hentry : (f.bytes.slice (offBlocks + n * 4) 4).rd32 0 = mapEntry f offBlocks n := by
    rw [Mem.rd32_slice (by omega)]
    rfl
  have hun : m.unallocated ≤ n := h.unallocated_eq ▸ Nat.count_le _
  have hal : m.allocated ≤ n := h.allocated_eq ▸ Nat.count_le _
  have hun' := count32_eq (show m.unallocated < uint32Max by omega)
  have hal' := count32_eq (show m.allocated < uint32Max by omega)
  have hinv := h.invalid_le
  have hinv' := count32_eq (show m.invalid < uint32Max by omega)
  simp only [scanEntry, hread, hentry]
  by_cases hv : mapEntry f offBlocks n = vdiBlockUnallocated
  · -- an unallocated entry is invalid only in a fixed image
    rw [if_pos hv]
    refine ⟨h.toTracked.skip (fun hp => hp.1 hv) rfl rfl, ?_, ?_, ?_, ?_⟩
    · rw [Nat.count_succ, if_pos hv, ← h.unallocated_eq]
      exact hun'
    · rw [Nat.count_succ, if_neg (not_not_intro hv), ← h.allocated_eq]
      rfl
    · by_cases ht : imageType = vdiImageTypeFixed
      · simp only [if_pos ht, hinv']
        omega
      · simp only [if_neg ht]
        omega
    · rw [forall_lt_succ, GoodEntry, if_pos hv, ← h.invalid_zero]
      by_cases ht : imageType = vdiImageTypeFixed
      · simp [ht, hinv']
      · simp [ht]
  rw [if_neg hv]
  by_cases hbad : allocated ≤ mapEntry f offBlocks n ∨ blocks ≤ mapEntry f offBlocks n
  · -- an entry beyond the data blocks is invalid
    have hnot : ¬ Placed f offBlocks blocks allocated n := by
      rintro ⟨-, h₁, h₂⟩
      omega
    rw [if_pos hbad]
    refine ⟨h.toTracked.skip hnot rfl rfl, ?_, ?_, ?_, ?_⟩
    · rw [Nat.count_succ, if_neg hv]
      exact h.unallocated_eq
    · rw [Nat.count_succ, if_pos hv, ← h.allocated_eq]
      exact hal'
    · show count32 m.invalid ≤ n + 1
      omega
    · rw [forall_lt_succ, GoodEntry, if_neg hv]
      show count32 m.invalid = 0 ↔ _
      constructor
      · intro h0
        omega
      · rintro ⟨-, hlt⟩
        omega
  · have hlt : mapEntry f offBlocks n < allocated ∧ mapEntry f offBlocks n < blocks := by omega
    rw [if_neg hbad]
    have htr : Tracked f offBlocks blocks allocated table n
        { m with allocated := count32 m.allocated } := ⟨h.duplicates_le, h.no_table, h.tracked⟩
    obtain ⟨hsa, hsu, hsi⟩ := see_counts { m with allocated := count32 m.allocated } (mapEntry f offBlocks n)
    refine ⟨htr.see ⟨hv, hlt⟩ hmax, ?_, ?_, ?_, ?_⟩
    · rw [hsu, Nat.count_succ, if_neg hv]
      exact h.unallocated_eq
    · rw [hsa, Nat.count_succ, if_pos hv, ← h.allocated_eq]
      exact hal'
    · rw [hsi]
      exact le_trans hinv (Nat.le_succ n)
    · rw [hsi, forall_lt_succ, GoodEntry, if_neg hv, ← h.invalid_zero]
      exact ⟨fun h0 => ⟨h0, hlt⟩, fun h0 => h0.1⟩

/-- The account of the whole loop. -/
theorem scanMap_scanned (calloc : Bool) (hfile : offBlocks + blocks * 4 ≤ f.size)
    (hblocks : blocks < uint32Max + 1) {n : Nat} (hn : n ≤ blocks) :
    Scanned f imageType offBlocks blocks allocated (decide (blocks ≤ seenLimit) && calloc) n
      (scanMap calloc f imageType offBlocks blocks allocated n) := by
  induction n with
  | zero => exact scanned_start calloc
  | succ n ih =>
      have hlast : scanMap calloc f imageType offBlocks blocks allocated (n + 1) =
          scanEntry f imageType offBlocks blocks allocated
            (scanMap calloc f imageType offBlocks blocks allocated n) n := by
        simp only [scanMap, List.range_succ, List.foldl_append, List.foldl_cons, List.foldl_nil]
      rw [hlast]
      exact (ih (by omega)).step hfile (by omega) (by omega)

/-- What the checks on the counters establish. -/
structure MapFacts (calloc : Bool) (f : HostFile) (imageType offBlocks blocks allocated : Nat) : Prop where
  good : ∀ i, i < blocks → GoodEntry f imageType offBlocks blocks allocated i
  allocated_eq : Nat.count (fun i => mapEntry f offBlocks i ≠ vdiBlockUnallocated) blocks = allocated
  distinct : blocks ≤ seenLimit → calloc = true → DistinctBelow f offBlocks blocks allocated blocks

/-- Every block counts as allocated or as unallocated. -/
theorem count_add_count_not (p : Nat → Prop) [DecidablePred p] (n : Nat) :
    Nat.count p n + Nat.count (fun i => ¬ p i) n = n := by
  induction n with
  | zero => rfl
  | succ n ih =>
      rw [Nat.count_succ, Nat.count_succ]
      by_cases hp : p n
      · rw [if_pos hp, if_neg (not_not_intro hp)]
        omega
      · rw [if_neg hp, if_pos hp]
        omega

theorem map_checks_iff {calloc : Bool} (hfile : offBlocks + blocks * 4 ≤ f.size)
    (hblocks : blocks < uint32Max + 1) (hal : allocated ≤ blocks)
    (hfixed : imageType ≠ vdiImageTypeDynamic → allocated = blocks) :
    (∀ c ∈ mapChecks imageType blocks allocated
      (scanMap calloc f imageType offBlocks blocks allocated blocks), c = true) ↔
      MapFacts calloc f imageType offBlocks blocks allocated := by
  have h : Scanned f imageType offBlocks blocks allocated (decide (blocks ≤ seenLimit) && calloc) blocks
      (scanMap calloc f imageType offBlocks blocks allocated blocks) :=
    scanMap_scanned calloc hfile hblocks (le_refl blocks)
  set m := scanMap calloc f imageType offBlocks blocks allocated blocks
  have hall := h.allocated_eq
  have hsum : m.unallocated + m.allocated = blocks := by
    rw [h.unallocated_eq, hall]
    exact count_add_count_not _ blocks
  have hdup : m.duplicates = 0 ↔
      (blocks ≤ seenLimit → calloc = true → DistinctBelow f offBlocks blocks allocated blocks) := by
    by_cases htab : blocks ≤ seenLimit ∧ calloc = true
    · obtain ⟨t, -, -, hzero⟩ := h.tracked (by simpa using htab)
      rw [hzero]
      exact ⟨fun hd _ _ => hd, fun hd => hd htab.1 htab.2⟩
    · obtain ⟨-, hzero⟩ := h.no_table (by simpa using htab)
      exact ⟨fun _ h₁ h₂ => absurd ⟨h₁, h₂⟩ htab, fun _ => hzero⟩
  simp only [mapChecks, List.forall_mem_cons, decide_eq_true_eq, hdup, h.invalid_zero]
  constructor
  · rintro ⟨hgood, hdist, heq, -⟩
    exact ⟨hgood, hall.symm.trans heq, hdist⟩
  · intro hm
    have heq : m.allocated = allocated := hall.trans hm.allocated_eq
    refine ⟨hm.good, hm.distinct, heq, ?_, by simp⟩
    by_cases ht : imageType = vdiImageTypeDynamic
    · rw [if_pos ht, decide_eq_true_eq]
      simp only [uint32Max] at hblocks ⊢
      omega
    · have := hfixed ht
      rw [if_neg ht, decide_eq_true_eq]
      omega

end Scan

/-! ## What a valid report says -/

/-- The first 512 bytes of the file. -/
def headerOf (f : HostFile) : Mem := f.bytes.slice 0 vdiHeaderBytes

/-- A failed check of either run makes the verdict. -/
theorem concluded_iff {info : Info} {cs ds : List Bool} {m : MapScan} (h₀ : info.checksFailed = 0)
    (hlen : cs.length + ds.length ≤ uint32Max) :
    (((info.checks cs).withScan m).checks ds).conclude.structurallyValid = true ↔
      (∀ c ∈ cs, c = true) ∧ ∀ c ∈ ds, c = true := by
  have hcount : ((info.checks cs).withScan m).checksFailed = cs.count false := by
    show (info.checks cs).checksFailed = _
    rw [failed_checks cs info (by omega), h₀, Nat.zero_add]
  have hle : cs.count false ≤ cs.length := List.count_le_length
  show decide _ = true ↔ _
  rw [decide_eq_true_eq, failed_checks_zero_iff (by omega)]
  show (info.checks cs).checksFailed = 0 ∧ _ ↔ _
  rw [failed_checks_zero_iff (by omega), and_iff_right h₀]

/-- Four failures more make the verdict negative. -/
theorem concluded_failed {info : Info} {cs : List Bool} :
    { info.checks cs with checksFailed := (info.checks cs).checksFailed + 4 }.conclude.structurallyValid
      = false := by
  show decide ((info.checks cs).checksFailed + 4 = 0) = false
  exact decide_eq_false (Nat.succ_ne_zero _)

theorem length_header_checks (h : Mem) (n : Nat) : (fieldChecks h n ++ extentChecks h n).length ≤ 17 := by
  rw [List.length_append]
  simp only [fieldChecks, extentChecks]
  split_ifs <;> simp

theorem valid_iff {calloc : Bool} {f : HostFile} : Valid calloc f ↔
    vdiHeaderBytes ≤ f.size ∧ HeaderFacts (headerOf f) f.size ∧
      MapFacts calloc f ((headerOf f).rd32 0x4c) ((headerOf f).rd32 0x154) ((headerOf f).rd32 0x180)
        ((headerOf f).rd32 0x184) := by
  by_cases hsize : vdiHeaderBytes ≤ f.size
  swap
  · have hread : f.read 0 vdiHeaderBytes = none :=
      HostFile.read_of_gt (by decide) (by rw [Nat.zero_add]; exact Nat.lt_of_not_le hsize)
    constructor
    · rintro ⟨info, hrun, -⟩
      unfold vdiskVdiInspect at hrun
      rw [hread] at hrun
      cases hrun
    · exact fun h => absurd h.1 hsize
  have hread : f.read 0 vdiHeaderBytes = some (headerOf f) :=
    HostFile.read_of_le (by rw [Nat.zero_add]; exact hsize)
  generalize headerOf f = h at hread ⊢
  have hlen := length_header_checks h f.size
  unfold Valid vdiskVdiInspect
  rw [hread]
  simp only [Option.bind_eq_bind, Option.bind_some]
  by_cases hmap : h.rd32 0x180 ≠ 0 ∧ h.rd32 0x154 + h.rd32 0x180 * 4 ≤ f.size
  · rw [if_pos hmap]
    simp only [Option.some.injEq, exists_eq_left']
    have hlen' := Nat.add_le_add_right hlen 4
    rw [concluded_iff rfl (le_trans hlen' (by decide)), header_checks_iff, and_iff_right hsize]
    refine and_congr_right (fun hh => ?_)
    refine map_checks_iff hmap.2 (Mem.rd32_lt _ _) hh.allocated_le (fun hnd => ?_)
    exact (hh.fixed (hh.imageType.resolve_right hnd)).1
  · -- without a map in the file four checks fail at once
    rw [if_neg hmap]
    simp only [Option.some.injEq, exists_eq_left', concluded_failed]
    constructor
    · intro hc
      exact absurd hc (by decide)
    · rintro ⟨-, hh, -⟩
      exact absurd ⟨hh.blocks_ne, le_trans hh.map_data hh.data_file⟩ hmap

/-- `vdi_open` makes no check that the inspector does not make. -/
theorem HeaderFacts.vdiOpen_ok {s : DiskState} (hsize : vdiHeaderBytes ≤ s.file.size)
    (h : HeaderFacts (headerOf s.file) s.file.size) :
    vdiOpen s = .ok () { s with disk := diskOfHeader s.disk (headerOf s.file) s.file.size } := by
  have hbad : ¬ headerBad (headerOf s.file) = true := by
    have h₁ := h.headerSize
    have h₂ := h.header_map
    have h₃ := h.map_data
    have h₄ := h.blocks_ne
    have h₅ := h.allocated_le
    have h₆ := h.size_ne
    have h₇ := h.blockSize_ne
    have h₈ := h.imageType
    simp only [vdiHeaderBytes] at h₂
    simp only [headerBad, h.signature, h.version, h.sectorSize, h.blockExtra, Bool.or_eq_true,
      Bool.and_eq_true, decide_eq_true_eq]
    omega
  show vdiOpen s = .ok ()
    { s with disk := diskOfHeader s.disk (s.file.bytes.slice 0 vdiHeaderBytes) s.file.size }
  set d := diskOfHeader s.disk (s.file.bytes.slice 0 vdiHeaderBytes) s.file.size with hd
  have hcap : ¬ d.blocksCount * d.blockSize < d.sizeBytes := Nat.not_lt.mpr h.size_le
  unfold vdiOpen
  rw [bind_of_ok (vdiskHostRead_of_le (s := s) (by rw [Nat.zero_add]; exact hsize))]
  show (failIf (headerBad (headerOf s.file) = true) (-1) >>= fun _ => _) s = _
  rw [bind_of_ok (failIf_of_not hbad)]
  simp only [← hd]
  rw [bind_of_ok (failIf_of_not hcap)]
  by_cases ht : d.imageType = vdiImageTypeFixed
  · obtain ⟨hal, hsum, hend⟩ := h.fixed ht
    have hfix : ¬ (d.blocksAllocated ≠ d.blocksCount ∨ uint64Max - d.dataOffset < d.sizeBytes) := by
      rintro (hc | hc)
      · exact hc hal
      · exact absurd hc (Nat.not_lt.mpr (Nat.le_sub_of_add_le (by rw [Nat.add_comm]; exact hsum)))
    have hfile : ¬ s.file.size < d.dataOffset + d.sizeBytes := Nat.not_lt.mpr hend
    rw [if_pos ht, bind_of_ok (failIf_of_not hfix), bind_of_ok (failIf_of_not hfile)]
    rfl
  · have hdyn := h.imageType.resolve_left ht
    have hroom : ¬ (uint64Max - d.dataOffset) / d.blockSize < d.blocksAllocated := by
      have hlt := dynamic_end_lt (headerOf s.file)
      have hmul : d.blocksAllocated * d.blockSize ≤ uint64Max - d.dataOffset :=
        Nat.le_sub_of_add_le (by rw [Nat.add_comm]; exact Nat.le_of_lt_succ hlt)
      exact Nat.not_lt.mpr ((Nat.le_div_iff_mul_le (Nat.pos_of_ne_zero h.blockSize_ne)).mpr hmul)
    have hfile : ¬ s.file.size < d.dataOffset + d.blocksAllocated * d.blockSize :=
      Nat.not_lt.mpr (h.dynamic hdyn)
    rw [if_neg ht, bind_of_ok (failIf_of_not hroom), bind_of_ok (failIf_of_not hfile)]
    rfl

/-- What an image that is reported valid looks like once it is open: the map lies between the
header and the data area, and its allocated entries are those of data blocks. -/
structure Trusted (f : HostFile) (s : DiskState) : Prop where
  file : s.file = f
  header_map : vdiHeaderBytes ≤ s.disk.blocksOffset
  map_data : s.disk.blocksOffset + s.disk.blocksCount * 4 ≤ s.disk.dataOffset
  entry_lt : ∀ g, g < s.disk.blocksCount → entryOf s g ≠ vdiBlockUnallocated →
    entryOf s g < s.disk.blocksAllocated
  block_file : s.disk.imageType = vdiImageTypeDynamic → ∀ g, g < s.disk.blocksCount →
    entryOf s g ≠ vdiBlockUnallocated →
    s.disk.dataOffset + (entryOf s g + 1) * s.disk.blockSize ≤ s.file.size

/-- An image that is reported valid opens, its map can be trusted, and no data block belongs to
two guest blocks when the table of the entries seen could be had. -/
theorem valid_image_opens {calloc : Bool} {f : HostFile} (h : Valid calloc f) (d : Disk) :
    ∃ s, vdiOpen { file := f, stop := none, disk := d } = .ok () s ∧ Trusted f s ∧
      (s.disk.blocksCount ≤ 16 * 1024 * 1024 → calloc = true →
        ∀ g g', g < s.disk.blocksCount → g' < s.disk.blocksCount →
          entryOf s g ≠ vdiBlockUnallocated → entryOf s g = entryOf s g' → g = g') := by
  obtain ⟨hsize, hh, hm⟩ := valid_iff.mp h
  refine ⟨_, hh.vdiOpen_ok (s := { file := f, stop := none, disk := d }) hsize, ?_, ?_⟩
  · have hlt : ∀ g, g < (headerOf f).rd32 0x180 →
        mapEntry f ((headerOf f).rd32 0x154) g ≠ vdiBlockUnallocated →
        mapEntry f ((headerOf f).rd32 0x154) g < (headerOf f).rd32 0x184 := by
      intro g hg hne
      have hgood := hm.good g hg
      rw [GoodEntry, if_neg hne] at hgood
      exact hgood.1
    refine ⟨rfl, hh.header_map, hh.map_data, hlt, fun ht g hg hne => ?_⟩
    exact le_trans (Nat.add_le_add_left (Nat.mul_le_mul_right _ (hlt g hg hne)) _) (hh.dynamic ht)
  · intro hcount hcalloc g g' hg hg' hne heq
    have hplaced : ∀ k, k < (headerOf f).rd32 0x180 →
        mapEntry f ((headerOf f).rd32 0x154) k ≠ vdiBlockUnallocated →
        Placed f ((headerOf f).rd32 0x154) ((headerOf f).rd32 0x180) ((headerOf f).rd32 0x184) k := by
      intro k hk hk'
      have hgood := hm.good k hk
      rw [GoodEntry, if_neg hk'] at hgood
      exact ⟨hk', hgood⟩
    have hdist := hm.distinct hcount hcalloc
    have hpg := hplaced g hg hne
    have hpg' := hplaced g' hg' (fun hc => hne (heq.trans hc))
    rcases Nat.lt_trichotomy g g' with hlt | heq' | hlt
    · exact absurd heq (hdist g g' hlt hg' hpg hpg')
    · exact heq'
    · exact absurd heq.symm (hdist g' g hlt hg hpg' hpg)

theorem valid_of_eval {calloc : Bool} {f : HostFile}
    (h : (vdiskVdiInspect calloc f).any Info.structurallyValid = true) : Valid calloc f := by
  cases hrun : vdiskVdiInspect calloc f with
  | none =>
      rw [hrun] at h
      cases h
  | some info =>
      rw [hrun] at h
      exact ⟨info, hrun, h⟩

theorem valid_image_opens_small :
    Valid true (smallImage 0 vdiBlockUnallocated) ∧
      ∃ s, vdiOpen { file := smallImage 0 vdiBlockUnallocated, stop := none, disk := blankDisk } = .ok () s
        ∧ Trusted (smallImage 0 vdiBlockUnallocated) s ∧
        (s.disk.blocksCount ≤ 16 * 1024 * 1024 → true = true →
          ∀ g g', g < s.disk.blocksCount → g' < s.disk.blocksCount →
            entryOf s g ≠ vdiBlockUnallocated → entryOf s g = entryOf s g' → g = g') := by
  have hv : Valid true (smallImage 0 vdiBlockUnallocated) := valid_of_eval (by decide +kernel)
  exact ⟨hv, valid_image_opens hv blankDisk⟩

/-! ## An image with too many blocks for the table -/

/-- A dynamic image with one block more than the table can have. Its first two blocks have the
entry 0, and no block has the entry 1. -/
def manyBlocks : HostFile :=
  { size := 69207040
    bytes := fun i =>
      if i < 512 then
        (initHeader 17592187092992 vdiImageTypeDynamic 16777217 512 67109888 Mem.zero Mem.zero).wr32 0x184 2 i
      else if i < 520 then 0
      else if i < 67109380 then 255
      else 0 }

theorem manyBlocks_header : HeaderFacts (headerOf manyBlocks) manyBlocks.size := by
  rw [← header_checks_iff]
  decide +kernel

theorem manyBlocks_entry {i : Nat} (hi : i < 16777217) :
    mapEntry manyBlocks 512 i = if i < 2 then 0 else vdiBlockUnallocated := by
  have hbyte : ∀ k, k < 4 → manyBlocks.bytes (512 + i * 4 + k) = if i < 2 then 0 else 255 := by
    intro k hk
    show (if 512 + i * 4 + k < 512 then _ else if 512 + i * 4 + k < 520 then (0 : UInt8)
      else if 512 + i * 4 + k < 67109380 then 255 else 0) = _
    rw [if_neg (by omega)]
    by_cases h2 : i < 2
    · rw [if_pos (by omega), if_pos h2]
    · rw [if_neg (by omega), if_pos (by omega), if_neg h2]
  have h₀ := hbyte 0 (by omega)
  have h₁ := hbyte 1 (by omega)
  have h₂ := hbyte 2 (by omega)
  have h₃ := hbyte 3 (by omega)
  rw [Nat.add_zero] at h₀
  simp only [mapEntry, Mem.rd32, Mem.rd16, Nat.add_assoc] at h₀ h₁ h₂ h₃ ⊢
  rw [h₀, h₁, h₂, h₃]
  by_cases h2 : i < 2
  · simp [h2]
  · simp [h2, vdiBlockUnallocated]

theorem manyBlocks_count {n : Nat} (hn : n ≤ 16777217) :
    Nat.count (fun i => mapEntry manyBlocks 512 i ≠ vdiBlockUnallocated) n = min n 2 := by
  induction n with
  | zero => rfl
  | succ n ih =>
      rw [Nat.count_succ, ih (by omega), manyBlocks_entry (by omega)]
      by_cases h2 : n < 2
      · rw [if_pos h2, if_pos (by decide)]
        omega
      · rw [if_neg h2, if_neg (not_not_intro rfl)]
        omega

/-- The image is reported valid although its first two blocks share their data. -/
theorem many_blocks_share_data :
    ¬ ∀ f, Valid true f → ∀ s, vdiOpen (newState f) = .ok () s →
      ∀ g g', g < s.disk.blocksCount → g' < s.disk.blocksCount →
        entryOf s g ≠ vdiBlockUnallocated → entryOf s g = entryOf s g' → g = g' := by
  intro hall
  have htype : (headerOf manyBlocks).rd32 0x4c = vdiImageTypeDynamic := by decide +kernel
  have hoff : (headerOf manyBlocks).rd32 0x154 = 512 := by decide +kernel
  have hblocks : (headerOf manyBlocks).rd32 0x180 = 16777217 := by decide +kernel
  have hcnt : (headerOf manyBlocks).rd32 0x184 = 2 := by decide +kernel
  have hsize : vdiHeaderBytes ≤ manyBlocks.size := by decide
  have hv : Valid true manyBlocks := by
    rw [valid_iff, htype, hoff, hblocks, hcnt]
    refine ⟨hsize, manyBlocks_header, ?_, ?_, ?_⟩
    · intro i hi
      rw [GoodEntry, manyBlocks_entry hi]
      by_cases h2 : i < 2
      · rw [if_pos h2, if_neg (by decide)]
        decide
      · rw [if_neg h2, if_pos rfl]
        decide
    · exact manyBlocks_count (le_refl _)
    · intro hle
      exact absurd hle (by decide)
  have hopen := manyBlocks_header.vdiOpen_ok (s := newState manyBlocks) hsize
  have hcount : ∀ g, g < 2 → g < (headerOf manyBlocks).rd32 0x180 := by
    intro g hg
    rw [hblocks]
    omega
  have hentry : ∀ g, g < 2 → mapEntry manyBlocks ((headerOf manyBlocks).rd32 0x154) g = 0 := by
    intro g hg
    rw [hoff, manyBlocks_entry (by omega), if_pos hg]
  have hsame := hall manyBlocks hv _ hopen 0 1 (hcount 0 (by omega)) (hcount 1 (by omega))
    (by
      show mapEntry manyBlocks ((headerOf manyBlocks).rd32 0x154) 0 ≠ vdiBlockUnallocated
      rw [hentry 0 (by omega)]
      decide)
    (by
      show mapEntry manyBlocks ((headerOf manyBlocks).rd32 0x154) 0
        = mapEntry manyBlocks ((headerOf manyBlocks).rd32 0x154) 1
      rw [hentry 0 (by omega), hentry 1 (by omega)])
  exact absurd hsame (by decide)

end Guppy.Vdisk
