import Guppy.Ext2.Readers
import Guppy.Ext2.Context

set_option autoImplicit false

/-! # The volume of a fresh filesystem

What `mkfs_ext2_core` leaves, as a volume: the metadata and the block of the root directory
are marked used, the ten reserved inodes are marked used, and the root is the only inode that
is not empty. The free counts are those of the bitmaps, so the device is good.
-/

namespace Guppy.Ext2

open Prog Vfs

/-! ## Bits and counts -/

theorem bit_setBits (p : Mem) (lo count j : Nat) :
    (setBits p lo count).bit j = (decide (lo ≤ j ∧ j < lo + count) || p.bit j) := by
  induction count generalizing p lo with
  | zero =>
      have hnone : ¬ (lo ≤ j ∧ j < lo + 0) := by omega
      rw [setBits, decide_eq_false hnone, Bool.false_or]
  | succ count ih =>
      rw [setBits, ih, Mem.bit_setBit, ← Bool.or_assoc, ← Bool.decide_or]
      congr 2
      rw [eq_iff_iff]
      omega

/-- When the first `k` bits of a range are set and no others. -/
theorem clearIn_first {p : Nat → Bool} {start count k : Nat}
    (h : ∀ i, i < count → p (start + i) = decide (i < k)) : clearIn p start count = count - k := by
  induction count with
  | zero => simp [clearIn]
  | succ count ih =>
      have hrest := ih (fun i hi => h i (by omega))
      unfold clearIn at hrest ⊢
      rw [List.range_succ, List.countP_append, hrest, List.countP_cons, List.countP_nil,
        h count (by omega)]
      by_cases hk : count < k
      · simp [hk]
        omega
      · simp [hk]
        omega

/-! ## The volume -/

section Fresh

variable {n now now' : Nat} {label : Text} {d : Vblk} {f : Nat → Mem}

/-- The blocks behind the descriptors of a group, the root inode's and the root directory's
apart. -/
theorem fresh_block_mark (h : Formattable n) {b : Nat} {p : Mem} (hg : b / 32768 < groupsOf n)
    (hr : gdtBlocksOf n < b % 32768) (hnot : b ≠ gdtBlocksOf n + 35 ∧ b ≠ 3 + gdtBlocksOf n)
    (hmark : groupMark n (gdtBlocksOf n) (b / 32768) (b % 32768) = some p) :
    (d.image (freshBlock n now now' label f)).block b = p.slice 0 4096 := by
  rw [block_image, freshBlock_mark h hg hr hnot, hmark]
  rfl

theorem fresh_used (h : Formattable n) (hle : groupsOf n ≤ 1024) {b : Nat} (hb : b < n) :
    (vol n (d.image (freshBlock n now now' label f))).used b
      = decide (b % 32768 < dataStart n ∨ b = dataStart n) := by
  have hg := h.geometry hle
  have hgr := hg.group_lt hb
  have hdiv := bbBlk_div hg (b / 32768)
  have hroom := groupBlocks_of_lt hb
  rw [used_bit hb, fresh_block_mark h (p := mkfsBlockBitmap n (gdtBlocksOf n) (b / 32768)) (by omega) (by omega)
    (by constructor <;> (intro h0; rw [h0] at hdiv; omega)) (by
      unfold groupMark
      rw [hdiv.1, hdiv.2, if_pos rfl]), bit_slice_block (by omega)]
  unfold mkfsBlockBitmap
  rw [dataRel_eq]
  dsimp only []
  have hds : dataStart n = gdtBlocksOf n + 35 := rfl
  rw [hds]
  by_cases h0 : b / 32768 = 0
  · rw [if_pos h0, Mem.bit_setBit, bit_setBits, bit_setBits, Mem.bit_zero, Bool.or_false,
      ← Bool.decide_or, ← Bool.decide_or]
    refine decide_eq_decide.mpr ?_
    omega
  · rw [if_neg h0, bit_setBits, bit_setBits, Mem.bit_zero, Bool.or_false, ← Bool.decide_or]
    refine decide_eq_decide.mpr ?_
    have := hg.room 0 hg.pos
    unfold dataStart groupBlocks blocksPerGroup at this
    omega

theorem fresh_live (h : Formattable n) (hle : groupsOf n ≤ 1024) {i : Nat} (h₁ : 1 ≤ i)
    (h₂ : i ≤ inodesOf n) :
    (vol n (d.image (freshBlock n now now' label f))).live i = decide (i ≤ 10) := by
  have hg := h.geometry hle
  have hdiv := ibBlk_div hg ((i - 1) / 1024)
  have hgr : (i - 1) / 1024 < groupsOf n := by
    unfold inodesOf at h₂
    omega
  rw [live_bit h₁ h₂, fresh_block_mark h (p := mkfsInodeBitmap ((i - 1) / 1024)) (by omega) (by omega)
    (by constructor <;> (intro h0; rw [h0] at hdiv; omega)) (by
      unfold groupMark
      rw [hdiv.1, hdiv.2, if_neg (by omega), if_pos rfl]), bit_slice_block (by omega)]
  unfold mkfsInodeBitmap reservedInodes
  by_cases h0 : (i - 1) / 1024 = 0
  · rw [if_pos h0, bit_setBits, Mem.bit_zero, Bool.or_false]
    refine decide_eq_decide.mpr ?_
    omega
  · rw [if_neg h0, Mem.bit_zero, eq_comm, decide_eq_false_iff_not]
    omega

/-- The root is the only inode that is not empty. -/
theorem fresh_inode (h : Formattable n) (hle : groupsOf n ≤ 1024) (i : Nat) :
    (vol n (d.image (freshBlock n now now' label f))).inode i
      = if i = 2 then (mkfsRootInode now' (dataStart n)).slice 0 128 else Mem.zero := by
  have hg := h.geometry hle
  have hpos := h.pos
  rw [vol_inode]
  by_cases hr : 1 ≤ i ∧ i ≤ inodesOf n
  · obtain ⟨h₁, h₂⟩ := hr
    have hdiv := inodeBlk_div hg i
    have hgr : (i - 1) / 1024 < groupsOf n := by
      unfold inodesOf at h₂
      omega
    rw [if_pos ⟨h₁, h₂⟩]
    by_cases hblk : inodeBlk n i = 3 + gdtBlocksOf n
    · -- the first block of the inode table
      rw [hblk, block_image, freshBlock_table h, Mem.slice_slice (by omega), Nat.zero_add]
      rw [hblk] at hdiv
      by_cases h2 : i = 2
      · rw [if_pos h2, h2, Mem.slice_write_in (by omega) (by omega)]
        rfl
      · rw [if_neg h2, Mem.slice_write_out (by omega), Mem.zero_slice]
    · have hgroup : ¬ (i - 1) / 1024 = 0 ∨ ¬ (i - 1) % 1024 / 32 = 0 := by
        by_contra hc
        refine hblk ?_
        unfold inodeBlk itBlk
        omega
      rw [fresh_block_mark h (p := Mem.zero) (by omega) (by omega)
        ⟨fun h0 => by rw [h0] at hdiv; omega, hblk⟩ (by
          unfold groupMark
          rw [dataRel_eq, if_neg (by omega), if_neg (by omega), if_pos (by omega)]),
        if_neg (by omega), Mem.zero_slice, Mem.zero_slice]
  · rw [if_neg hr, if_neg (by
      unfold inodesOf at hr
      omega)]

/-- The block of the root directory. -/
theorem fresh_root_blk (h : Formattable n) :
    (vol n (d.image (freshBlock n now now' label f))).blk (dataStart n)
      = (newDirBlock 4096 2 2).slice 0 4096 := by
  have hend := h.group_end h.pos
  have hds : dataStart n = gdtBlocksOf n + 35 := rfl
  rw [vol_blk_data (by omega) (isMeta_eq_false.mpr (by omega)), block_image, hds, freshBlock_root h]

/-! ## Free counts -/

theorem fresh_freeIn (h : Formattable n) (hle : groupsOf n ≤ 1024) {g : Nat} (hgr : g < groupsOf n) :
    freeIn n (vol n (d.image (freshBlock n now now' label f))).used g
      = mkfsFreeBlocks n (gdtBlocksOf n) g := by
  have hds : dataStart n = gdtBlocksOf n + 35 := rfl
  have hroom := h.room g hgr
  have hsmall : groupBlocks n g ≤ 32768 := Nat.min_le_left _ _
  unfold freeIn mkfsFreeBlocks
  rw [dataRel_eq]
  by_cases h0 : g = 0
  · rw [if_pos h0, clearIn_first (k := dataStart n + 1)]
    · omega
    · intro i hi
      rw [fresh_used h hle (groupBlocks_iff.mp hi).2]
      refine decide_eq_decide.mpr ?_
      omega
  · rw [if_neg h0, clearIn_first (k := dataStart n)]
    · omega
    · intro i hi
      rw [fresh_used h hle (groupBlocks_iff.mp hi).2]
      refine decide_eq_decide.mpr ?_
      omega

theorem fresh_ifreeIn (h : Formattable n) (hle : groupsOf n ≤ 1024) {g : Nat} (hgr : g < groupsOf n) :
    ifreeIn (vol n (d.image (freshBlock n now now' label f))).live g = mkfsFreeInodes g := by
  unfold ifreeIn mkfsFreeInodes reservedInodes inodesPerGroup
  rw [clearIn_first (k := if g = 0 then 10 else 0)]
  intro i hi
  rw [fresh_live h hle (by omega) (by unfold inodesOf; omega)]
  refine decide_eq_decide.mpr ?_
  by_cases h0 : g = 0
  · rw [if_pos h0]
    omega
  · rw [if_neg h0]
    omega

/-- The free counts in the descriptor of a group. -/
theorem mkfsGroupDesc_counts (n K g : Nat) :
    (mkfsGroupDesc n K g).bgFreeBlocksCount = mkfsFreeBlocks n K g ∧
      (mkfsGroupDesc n K g).bgFreeInodesCount = mkfsFreeInodes g := by
  have h₁ : mkfsFreeBlocks n K g ≤ 32768 := by
    unfold mkfsFreeBlocks groupBlocks blocksPerGroup
    omega
  have h₂ : mkfsFreeInodes g ≤ 1024 := Nat.sub_le _ _
  unfold mkfsGroupDesc GroupDesc.bgFreeBlocksCount GroupDesc.bgFreeInodesCount Mem.wr32 Mem.wr16
  dsimp only []
  constructor
  · simp (disch := omega) only [Mem.rd16_write_out, Mem.rd16_write_in, Nat.sub_self, Mem.rd16_le]
    omega
  · simp (disch := omega) only [Mem.rd16_write_out, Mem.rd16_write_in, Nat.sub_self, Mem.rd16_le]
    omega

/-- The free counts in the superblock. -/
theorem mkfsSb_counts (h : Formattable n) (hle : groupsOf n ≤ 1024) :
    (mkfsSb n now label).sFreeBlocksCount
        = ∑ g ∈ Finset.range (groupsOf n), mkfsFreeBlocks n (gdtBlocksOf n) g ∧
      (mkfsSb n now label).sFreeInodesCount = ∑ g ∈ Finset.range (groupsOf n), mkfsFreeInodes g := by
  have h₁ : ∑ g ∈ Finset.range (groupsOf n), mkfsFreeBlocks n (gdtBlocksOf n) g ≤ groupsOf n * 32768 :=
    sum_le_mul (fun g => by
      unfold mkfsFreeBlocks groupBlocks blocksPerGroup
      omega)
  have h₂ : ∑ g ∈ Finset.range (groupsOf n), mkfsFreeInodes g ≤ groupsOf n * 1024 :=
    sum_le_mul (fun g => Nat.sub_le _ _)
  unfold mkfsSb totalsAfter Superblock.sFreeBlocksCount Superblock.sFreeInodesCount
    Superblock.setFreeBlocksCount Superblock.setFreeInodesCount Mem.wr32
  rw [h.groups, h.gdtBlocks]
  dsimp only []
  constructor
  · simp (disch := omega) only [Mem.rd32_write_out, Mem.rd32_write_in, Nat.sub_self, Mem.rd32_le]
    omega
  · simp (disch := omega) only [Mem.rd32_write_in, Nat.sub_self, Mem.rd32_le]
    omega

/-- A device that has just been formatted over its whole size is good. -/
theorem fresh_good (h : Formattable n) (hle : groupsOf n ≤ 1024) (hlim : n * 4096 ≤ d.limit)
    (hro : d.ro = false) : Good n (d.image (freshBlock n now now' label f)) := by
  refine ⟨⟨hlim, hro, ?_⟩, fresh_fits h, ⟨fun g hgr => ?_, fun g hgr => ?_, ?_, ?_⟩⟩
  · -- the bytes behind the superblock are those of a cleared block
    have hblock : (d.image (freshBlock n now now' label f)).bytes.rd16 1230
        = ((d.image (freshBlock n now now' label f)).block 0).rd16 1230 := by
      unfold Vblk.block
      rw [Mem.rd16_slice (by omega)]
    rw [hblock, block_image, freshBlock_zero h, rd16_slice_zero (by omega),
      Mem.rd16_write_out (by omega), Mem.rd16_zero]
  · rw [gdOf_fresh h hgr, mkfsGroupDesc_slice, (mkfsGroupDesc_counts _ _ _).1,
      fresh_freeIn h hle hgr]
  · rw [gdOf_fresh h hgr, mkfsGroupDesc_slice, (mkfsGroupDesc_counts _ _ _).2,
      fresh_ifreeIn h hle hgr]
  · rw [sbOf_fresh h]
    refine (rd32_slice_zero (by omega)).trans ((mkfsSb_counts h hle).1.trans ?_)
    exact Finset.sum_congr rfl (fun g hg => (fresh_freeIn h hle (Finset.mem_range.mp hg)).symm)
  · rw [sbOf_fresh h]
    refine (rd32_slice_zero (by omega)).trans ((mkfsSb_counts h hle).2.trans ?_)
    exact Finset.sum_congr rfl (fun g hg => (fresh_ifreeIn h hle (Finset.mem_range.mp hg)).symm)

end Fresh

end Guppy.Ext2
