import Guppy.Ext2.Volume

set_option autoImplicit false

/-! # Metadata and single allocations

`ext2_load_meta` on a good device gives metadata that is *current*: it fits the geometry and
its free counts are those of the volume. `ext2_store_meta` of current metadata makes the
device good again. Allocating and freeing an inode or a block keeps both in step.
-/

namespace Guppy.Ext2

open Prog Vfs

/-- Loaded metadata whose free counts are those of the volume. -/
structure Current (n : Nat) (v : Vol) (m : Ext2Meta) : Prop extends MetaFits n m where
  counts : HeadCounts n v.used v.live m.sb m.gd

section Head

variable {n : Nat} {d : Vblk} {m : Ext2Meta}

/-! ## Loading -/

theorem gdt_cover (n : Nat) {g : Nat} (h : g < groupsOf n) : g < gdtBlocksOf n * 128 := by
  unfold gdtBlocksOf
  omega

theorem metaOf_of_fits (hlt : n + 32767 < uint32) {sb : Superblock} {gd : Nat → GroupDesc}
    (h : HeadFits n sb gd) :
    metaOf sb = ⟨sb, fun _ => Mem.zero, groupsOf n, 4096, 1, gdtBlocksOf n⟩ := by
  have hbs : 1024 * 2 ^ (2 % 32) % uint32 = 4096 := by decide
  have hper : 4096 / GroupDesc.size = 128 := by decide
  have hgc : (n + 32768 - 1) % uint32 / 32768 = groupsOf n := by
    unfold groupsOf
    rw [Nat.mod_eq_of_lt (by omega), Nat.add_sub_assoc (by decide)]
  unfold metaOf gdtBlocksOf
  dsimp only []
  rw [h.logBlockSize, h.blocksCount, h.blocksPerGroup, hbs, hper, hgc, if_neg (by decide),
    Nat.add_sub_assoc (by decide)]

/-- What `ext2_load_meta` reads where superblock and descriptors fit the geometry. -/
theorem ext2LoadMeta_of_fits (hg : Geometry n) (h : HeadFits n (sbOf d) (gdOf d))
    (hlim : (1 + gdtBlocksOf n) * 4096 ≤ d.limit) :
    ∃ gd, ext2LoadMeta d = .ok ⟨sbOf d, gd, groupsOf n, 4096, 1, gdtBlocksOf n⟩ ∧
      ∀ g, g < groupsOf n → gd g = gdOf d g := by
  have hgdt := hg.gdt_le
  have hlt := hg.lt_uint32
  have hm := metaOf_of_fits (by unfold uint32; omega) h
  have hload : loadGdt d (metaOf (sbOf d)) (gdtBlocksOf n) 0
      = .ok { metaOf (sbOf d) with gd := gdAfter d (metaOf (sbOf d)) 0 (gdtBlocksOf n) } := by
    refine @loadGdt_of_le _ _ _ _ 128 (by rw [hm]) ?_
    rw [hm]
    exact hlim
  refine ⟨gdAfter d (metaOf (sbOf d)) 0 (gdtBlocksOf n), ?_, fun g hgr => ?_⟩
  · have hread : orCode (preadBytesAt d 1024 Superblock.size) (-2) = .ok (sbOf d) :=
      orCode_of_ok (preadBytesAt_of_le (by unfold Superblock.size; omega))
    have hsb : (if (sbOf d).sInodeSize = 0 then (sbOf d).wr16 88 128 else sbOf d) = sbOf d := by
      rw [if_neg (by rw [h.inodeSize]; simp)]
    have hpos := hg.pos
    have hle := hg.le
    unfold ext2LoadMeta
    rw [except_bind_of_ok hread, except_bind_of_ok (check_of_not (by rw [h.magic]; simp)),
      except_bind_of_ok (check_of_not (by rw [hm]; simp)),
      except_bind_of_ok (check_of_not (by
        rw [h.blocksPerGroup, h.inodesPerGroup]; simp))]
    dsimp only []
    rw [hsb, except_bind_of_ok (check_of_not (by rw [hm]; unfold ext2MaxGroups; simp; omega))]
    rw [hm] at hload ⊢
    exact hload
  · have hcov := gdt_cover n hgr
    unfold gdAfter
    rw [hm]
    dsimp only []
    rw [if_pos ⟨by omega, by omega, hgr⟩]
    unfold gdOf
    rw [Nat.one_mul]

theorem ext2LoadMeta_eq (hg : Geometry n) (h : Good n d) :
    ∃ m, ext2LoadMeta d = .ok m ∧ Current n (vol n d) m := by
  have hend := hg.group_end hg.pos
  have hds : dataStart n = gdtBlocksOf n + 35 := rfl
  have hlim := h.limit
  obtain ⟨gd, hload, hgd⟩ := ext2LoadMeta_of_fits hg h.fits (by by_contra hgt; omega)
  exact ⟨_, hload, ⟨h.fits.congr hgd, rfl, rfl, rfl, rfl⟩, h.counts.congr hgd⟩

/-! ## Storing -/

theorem rd32_slice_zero {p : Mem} {len o : Nat} (h : o + 4 ≤ len) :
    (p.slice 0 len).rd32 o = p.rd32 o := by
  rw [Mem.rd32_slice h, Nat.zero_add]

theorem rd16_slice_zero {p : Mem} {len o : Nat} (h : o + 2 ≤ len) :
    (p.slice 0 len).rd16 o = p.rd16 o := by
  rw [Mem.rd16_slice h, Nat.zero_add]

theorem HeadFits.slice {sb : Superblock} {gd : Nat → GroupDesc} (h : HeadFits n sb gd) :
    HeadFits n (sb.slice 0 204) (fun g => (gd g).slice 0 32) where
  inodesCount := (rd32_slice_zero (by omega)).trans h.inodesCount
  blocksCount := (rd32_slice_zero (by omega)).trans h.blocksCount
  firstDataBlock := (rd32_slice_zero (by omega)).trans h.firstDataBlock
  logBlockSize := (rd32_slice_zero (by omega)).trans h.logBlockSize
  blocksPerGroup := (rd32_slice_zero (by omega)).trans h.blocksPerGroup
  inodesPerGroup := (rd32_slice_zero (by omega)).trans h.inodesPerGroup
  magic := (rd16_slice_zero (by omega)).trans h.magic
  revLevel := (rd32_slice_zero (by omega)).trans h.revLevel
  firstIno := (rd32_slice_zero (by omega)).trans h.firstIno
  inodeSize := (rd16_slice_zero (by omega)).trans h.inodeSize
  roCompat := (rd32_slice_zero (by omega)).trans h.roCompat
  bitmap g hg := (rd32_slice_zero (by omega)).trans (h.bitmap g hg)
  inodeBitmap g hg := (rd32_slice_zero (by omega)).trans (h.inodeBitmap g hg)
  inodeTable g hg := (rd32_slice_zero (by omega)).trans (h.inodeTable g hg)

theorem HeadCounts.slice {used live : Nat → Bool} {sb : Superblock} {gd : Nat → GroupDesc}
    (h : HeadCounts n used live sb gd) :
    HeadCounts n used live (sb.slice 0 204) (fun g => (gd g).slice 0 32) where
  blocks g hg := (rd16_slice_zero (by omega)).trans (h.blocks g hg)
  inodes g hg := (rd16_slice_zero (by omega)).trans (h.inodes g hg)
  allBlocks := (rd32_slice_zero (by omega)).trans h.allBlocks
  allInodes := (rd32_slice_zero (by omega)).trans h.allInodes

/-- The device after the superblock and `k` blocks of descriptors have been written. -/
def StoredTo (d : Vblk) (m : Ext2Meta) (k : Nat) (d' : Vblk) : Prop :=
  d'.limit = d.limit ∧ d'.ro = d.ro ∧ d'.bytes.rd16 1230 = d.bytes.rd16 1230 ∧
    sbOf d' = m.sb.slice 0 204 ∧ ∀ b, 0 < b →
      d'.block b = if b ≤ k then (gdtBuf m.gd (gdtSpan m (b - 1))).slice 0 4096 else d.block b

theorem storedTo_zero (d : Vblk) (m : Ext2Meta) : StoredTo d m 0 (d.put 1024 Superblock.size m.sb) := by
  refine ⟨rfl, rfl, ?_, ?_, fun b hb => ?_⟩
  · exact Mem.rd16_write_out (by unfold Superblock.size; omega)
  · unfold sbOf Vblk.put
    rw [Mem.slice_write_in (le_refl _) (by unfold Superblock.size; omega), Nat.sub_self]
  · rw [if_neg (by omega)]
    unfold Vblk.block Vblk.put
    rw [Mem.slice_write_out (by unfold Superblock.size; omega)]

theorem StoredTo.succ {k : Nat} {d' : Vblk} (h : StoredTo d m k d') :
    StoredTo d m (k + 1) (d'.put ((1 + k) * 4096) 4096 (gdtBuf m.gd (gdtSpan m k))) := by
  obtain ⟨h₁, h₂, h₃, h₄, h₅⟩ := h
  refine ⟨h₁, h₂, ?_, ?_, fun b hb => ?_⟩
  · rw [← h₃]
    exact Mem.rd16_write_out (by omega)
  · rw [← h₄]
    unfold sbOf Vblk.put
    rw [Mem.slice_write_out (by omega)]
  · rw [block_put, h₅ b hb]
    by_cases hbk : b = 1 + k
    · rw [if_pos hbk, if_pos (by omega), show b - 1 = k by omega]
    · rw [if_neg hbk]
      by_cases hle : b ≤ k
      · rw [if_pos hle, if_pos (by omega)]
      · rw [if_neg hle, if_neg (by omega)]

/-- One descriptor of a block of descriptors. -/
theorem slice_gdtBuf {gd : Nat → GroupDesc} {groups g : Nat} (hg : g < groups) :
    ((gdtBuf gd (g / 128 * 128, min 128 (groups - g / 128 * 128))).slice 0 4096).slice
      (g % 128 * 32) 32 = (gd g).slice 0 32 := by
  rw [Mem.slice_slice (by omega), Nat.zero_add]
  funext i
  by_cases hi : i < 32
  · rw [Mem.slice_in hi, Mem.slice_in hi]
    show (if g % 128 * 32 + i < min 128 (groups - g / 128 * 128) * 32 then
      gd (g / 128 * 128 + (g % 128 * 32 + i) / 32) ((g % 128 * 32 + i) % 32) else 0) = gd g (0 + i)
    rw [if_pos (by omega)]
    have hq : g / 128 * 128 + (g % 128 * 32 + i) / 32 = g := by omega
    have hr : (g % 128 * 32 + i) % 32 = 0 + i := by omega
    rw [hq, hr]
  · rw [Mem.slice_out (by omega), Mem.slice_out (by omega)]

theorem gdtSpan_of_fits (hm : MetaFits n m) (k : Nat) :
    gdtSpan m k = (k * 128, min 128 (groupsOf n - k * 128)) := by
  unfold gdtSpan
  rw [hm.blockSize, hm.groupCount]
  rfl

/-- Storing current metadata makes the device good and leaves the volume alone. -/
theorem ext2StoreMeta_eq (hg : Geometry n) (h : Holds n d) (hm : Current n (vol n d) m) :
    ∃ d', ext2StoreMeta m d = .ok () d' ∧ Good n d' ∧ vol n d' = vol n d := by
  have hgdt := hg.gdt_le
  have hend := hg.group_end hg.pos
  have hds : dataStart n = gdtBlocksOf n + 35 := rfl
  have hlim := h.limit
  have hfirst : orFail (pwriteBytesAt 1024 m.sb Superblock.size) (-1) d
      = .ok () (d.put 1024 Superblock.size m.sb) :=
    orFail_of_ok (pwriteBytesAt_of_le h.writable (by unfold Superblock.size; omega))
  obtain ⟨u, d', hrun, hd'⟩ := forLoop_total (f := fun k (_ : Unit) => orFail
      (pwriteBlock m.blockSize (m.gdtBlk + k) (gdtBuf m.gd (gdtSpan m k)) m.blockSize) (-2))
    (fun k _ s => StoredTo d m k s) (n := m.gdtBlocks) (a := ()) (storedTo_zero d m) (by
      intro k _ s _ hk hs
      rw [hm.gdtBlocks] at hk
      refine ⟨(), _, ?_, hs.succ⟩
      rw [hm.blockSize, hm.gdtBlk]
      refine orFail_of_ok (pwriteBlock_of_le (hs.2.1.trans h.writable) ?_)
      rw [hs.1]
      by_contra hgt
      omega)
  rw [hm.gdtBlocks, Nat.zero_add] at hd'
  obtain ⟨h₁, h₂, h₃, h₄, h₅⟩ := hd'
  have hvol : vol n d' = vol n d := by
    refine vol_congr hg (fun b hb => ?_)
    rw [h₅ b (by omega), if_neg (by omega)]
  have hgd : ∀ g, g < groupsOf n → gdOf d' g = (m.gd g).slice 0 32 := by
    intro g hgr
    have hcov := gdt_cover n hgr
    rw [gdOf_eq, h₅ _ (by omega), if_pos (by omega), Nat.add_sub_cancel_left,
      gdtSpan_of_fits hm.toMetaFits, slice_gdtBuf hgr]
  refine ⟨d', ?_, ⟨⟨by rw [h₁]; exact hlim, h₂.trans h.writable, h₃.trans h.tail⟩, ?_, ?_⟩, hvol⟩
  · unfold ext2StoreMeta
    rw [bind_of_ok hfirst]
    exact hrun
  · rw [h₄]
    exact hm.head.slice.congr hgd
  · rw [h₄, hvol]
    exact hm.counts.slice.congr hgd

end Head

end Guppy.Ext2
