import Guppy.Ext2.Fresh
import Guppy.Ext2.Records

set_option autoImplicit false

/-! # Reading a fresh filesystem

`ext2_load_meta` and `ext2_read_layout` on the device that `mkfs_ext2_core` leaves. The
second one takes every size that can be formatted. The first one takes at most 1024 groups.
-/

namespace Guppy.Ext2

open Prog Vfs

/-! ## The root directory -/

section Root

variable {n now now' : Nat} {label : Text} {d : Vblk} {f : Nat → Mem} {m : Ext2Meta}

theorem rootInode_mode (b : Nat) : Inode.iMode ((mkfsRootInode now b).slice 0 128) = 0o040755 := by
  unfold Inode.iMode
  rw [rd16_slice_zero (by omega)]
  unfold mkfsRootInode Inode.stamp Inode.setBlock Inode.setBlocks Inode.setAtime Inode.setCtime
    Inode.setMtime Inode.setSize Inode.setLinksCount Inode.setMode Mem.wr32 Mem.wr16
  simp (disch := omega) only [Mem.rd16_write_out, Mem.rd16_write_in, Nat.sub_self, Mem.rd16_le]

theorem rootInode_block {b : Nat} (hb : b < uint32) {k : Nat} (hk : k < 15) :
    Inode.iBlock ((mkfsRootInode now b).slice 0 128) k = if k = 0 then b else 0 := by
  unfold Inode.iBlock
  rw [rd32_slice_zero (by omega)]
  unfold mkfsRootInode Inode.stamp Inode.setBlock Inode.setBlocks Inode.setAtime Inode.setCtime
    Inode.setMtime Inode.setSize Inode.setLinksCount Inode.setMode Mem.wr32 Mem.wr16
  split
  · rename_i h0
    rw [h0]
    simp (disch := omega) only [Mem.rd32_write_in, Nat.sub_self, Mem.rd32_le]
    exact Nat.mod_eq_of_lt hb
  · simp (disch := omega) only [Mem.rd32_write_out, Mem.rd32_zero]

theorem rootInode_dirBlocks {b : Nat} (hb : b < uint32) (hpos : 0 < b) :
    dirBlocks ((mkfsRootInode now b).slice 0 128) = [b] := by
  have hrange : (List.range 12).map (Inode.iBlock ((mkfsRootInode now b).slice 0 128))
      = b :: List.replicate 11 0 := by
    refine List.ext_getElem (by simp) (fun k h₁ h₂ => ?_)
    have hk : k < 12 := by simpa using h₂
    rw [List.getElem_map, List.getElem_range, rootInode_block hb (by omega)]
    cases k with
    | zero => rfl
    | succ k =>
        rw [List.getElem_cons_succ, List.getElem_replicate]
        rfl
  unfold dirBlocks
  rw [hrange, List.takeWhile_cons_of_pos (by simpa using Nat.pos_iff_ne_zero.mp hpos)]
  rfl

/-- The root inode of a fresh filesystem. -/
theorem fresh_read_root (h : Formattable n) (hle : groupsOf n ≤ 1024) (hm : MetaFits n m)
    (hlim : (gdtBlocksOf n + 36) * 4096 ≤ d.limit) :
    ext2ReadInodeAt (d.image (freshBlock n now now' label f)) m 2
      = .ok ((mkfsRootInode now' (gdtBlocksOf n + 35)).slice 0 128) := by
  have hpos := h.pos
  have hblk : inodeBlk n 2 = 3 + gdtBlocksOf n := by
    unfold inodeBlk itBlk
    omega
  unfold ext2ReadInodeAt
  rw [except_bind_of_ok (inodePlace_eq (h.geometry hle) hm (by omega) (by unfold inodesOf; omega)),
    hm.blockSize, hblk]
  have hlim' : (3 + gdtBlocksOf n + 1) * 4096 ≤ d.limit :=
    le_trans (Nat.mul_le_mul_right 4096 (by omega)) hlim
  dsimp only []
  rw [except_bind_of_ok (orCode_of_ok (preadBlock_image _ hlim')), freshBlock_table h, Mem.slice_slice (by unfold Inode.size; omega), Nat.zero_add,
    Mem.slice_write_in (by omega) (by unfold Inode.size; omega)]
  rfl

/-- The block of the root directory. -/
theorem fresh_tiled (h : Formattable n) (hlim : (gdtBlocksOf n + 36) * 4096 ≤ d.limit) :
    BlocksTiled (d.image (freshBlock n now now' label f)) 4096 [gdtBlocksOf n + 35]
      [[⟨2, 12, 2, [dot]⟩, ⟨2, 4084, 2, dotdot⟩]] := by
  refine List.Forall₂.cons ⟨newDirBlock 4096 2 2 |>.slice 0 4096, ?_, ?_⟩ List.Forall₂.nil
  · rw [preadBlock_image _ (by omega), freshBlock_root h]
  · have htiles := @tiles_newDirBlock 2 2 (by decide) (by decide)
    exact htiles.congr (fun i _ hi => by rw [Mem.slice_in hi, Nat.zero_add])

theorem lookup_root (name : Text) :
    lookup [⟨2, 12, 2, [dot]⟩, ⟨2, 4084, 2, dotdot⟩] name
      = if name = [dot] ∨ name = dotdot then some (2, 2) else none := by
  rw [lookup_cons, lookup_cons]
  unfold DirRec.isNamed
  by_cases h₁ : name = [dot]
  · simp [h₁]
  · by_cases h₂ : name = dotdot
    · simp [h₂]
    · simp [h₁, h₂, Ne.symm h₁, Ne.symm h₂, lookup]

/-- What the root directory of a fresh filesystem holds. -/
theorem fresh_find_entry (h : Formattable n) (hle : groupsOf n ≤ 1024) (hm : MetaFits n m)
    (hlim : (gdtBlocksOf n + 36) * 4096 ≤ d.limit) {name : Text} (hname : name ≠ [])
    (hlen : name.length ≤ 255) :
    ext2FindEntryAt (d.image (freshBlock n now now' label f)) m 2 name
      = .ok (if name = [dot] ∨ name = dotdot then some (2, 2) else none) := by
  have hend := h.group_end h.pos
  have hmode : ifmt (Inode.iMode ((mkfsRootInode now' (gdtBlocksOf n + 35)).slice 0 128)) = sIfdir := by
    rw [rootInode_mode]
    rfl
  have htiled : BlocksTiled (d.image (freshBlock n now now' label f)) m.blockSize
      (dirBlocks ((mkfsRootInode now' (gdtBlocksOf n + 35)).slice 0 128))
      [[⟨2, 12, 2, [dot]⟩, ⟨2, 4084, 2, dotdot⟩]] := by
    rw [rootInode_dirBlocks (by unfold uint32; omega) (by omega), hm.blockSize]
    exact fresh_tiled h hlim
  rw [← lookup_root, ext2FindEntryAt_of_tiled (fresh_read_root h hle hm hlim) hmode
    (by rw [hm.blockSize]; omega) (by rw [hm.blockSize]) htiled hname hlen]
  rfl

end Root

/-! ## The two readers -/

/-- `ext2_load_meta` accepts the device and gets the geometry of the formatter, and the root
directory is inode 2 with the entries `.` and `..` only. -/
def LoadsFormat (n : Nat) (d : Vblk) : Prop :=
  ∃ m, ext2LoadMeta d = .ok m ∧ m.groupCount = mkfsGroups n ∧ m.blockSize = 4096 ∧
    (∀ g, g < mkfsGroups n → m.gd g = mkfsGroupDesc n (mkfsGdtBlocks n) g ∧
      (m.gd g).bgInodeTable = g * blocksPerGroup + 3 + mkfsGdtBlocks n) ∧
    ext2ResolvePathAt d m [slash] = .ok 2 ∧
    ∀ name, name ≠ [] → name.length ≤ 255 → ext2FindEntryAt d m 2 name
      = .ok (if name = [dot] ∨ name = dotdot then some (2, 2) else none)

/-- `ext2_read_layout` accepts the device and gets the geometry of the formatter, and the
root inode is a directory. -/
def LayoutFormat (n : Nat) (d : Vblk) : Prop :=
  ∃ lo, ext2ReadLayout d = some lo ∧ lo.groupCount = mkfsGroups n ∧ lo.blockSize = 4096 ∧
    (∀ g, g < mkfsGroups n → preadBytesAt d (lo.groupDescOffset + g * 32) 32
      = .ok (mkfsGroupDesc n (mkfsGdtBlocks n) g)) ∧
    (∀ ino, 1 ≤ ino → ino ≤ mkfsGroups n * inodesPerGroup → ext2InodeDiskOffset d lo ino
      = some (((ino - 1) / inodesPerGroup * blocksPerGroup + 3 + mkfsGdtBlocks n) * 4096
        + (ino - 1) % inodesPerGroup * 128)) ∧
    ∃ di, ext2ReadInodeDisk d lo 2 = some di ∧ ifmt di.iMode = sIfdir ∧
      dirBlocks di = [dataRel (mkfsGdtBlocks n)]

section Readers

variable {n now now' : Nat} {label : Text} {d : Vblk} {f : Nat → Mem}

theorem fresh_loads (h : Formattable n) (hle : groupsOf n ≤ 1024)
    (hlim : (gdtBlocksOf n + 36) * 4096 ≤ d.limit) :
    LoadsFormat n (d.image (freshBlock n now now' label f)) := by
  have hlim' : (1 + gdtBlocksOf n) * 4096 ≤ (d.image (freshBlock n now now' label f)).limit :=
    le_trans (Nat.mul_le_mul_right 4096 (by omega)) hlim
  have hfits := @fresh_fits n now now' label d f h
  obtain ⟨gd, hload, hgd⟩ := ext2LoadMeta_of_fits (h.geometry hle) hfits hlim'
  have hm : MetaFits n ⟨sbOf (d.image (freshBlock n now now' label f)), gd, groupsOf n, 4096, 1,
      gdtBlocksOf n⟩ := ⟨hfits.congr hgd, rfl, rfl, rfl, rfl⟩
  refine ⟨_, hload, h.groups.symm, rfl, fun g hg => ⟨?_, ?_⟩, rfl, fun name hname hlen => ?_⟩
  · rw [h.groups] at hg
    rw [h.gdtBlocks]
    show gd g = _
    rw [hgd g hg, gdOf_fresh h hg, mkfsGroupDesc_slice]
  · rw [h.groups] at hg
    rw [h.gdtBlocks]
    refine (hm.head.inodeTable g hg).trans ?_
    unfold itBlk blocksPerGroup
    omega
  · exact fresh_find_entry h hle hm hlim hname hlen

theorem fresh_not_loads (h : Formattable n) (hgt : 1024 < groupsOf n) :
    ∀ m, ext2LoadMeta (d.image (freshBlock n now now' label f)) ≠ .ok m := by
  have hfits := @fresh_fits n now now' label d f h
  have hm := metaOf_of_fits h.lt hfits
  intro m hload
  unfold ext2LoadMeta at hload
  obtain ⟨sb, hsb, hload⟩ := except_bind_ok_iff.mp hload
  obtain ⟨-, rfl⟩ := preadBytesAt_ok_iff.mp (orCode_ok_iff.mp hsb)
  obtain ⟨_, -, hload⟩ := except_bind_ok_iff.mp hload
  obtain ⟨_, -, hload⟩ := except_bind_ok_iff.mp hload
  obtain ⟨_, -, hload⟩ := except_bind_ok_iff.mp hload
  obtain ⟨_, hcheck, -⟩ := except_bind_ok_iff.mp hload
  have hsize : (sbOf (d.image (freshBlock n now now' label f))).sInodeSize ≠ 0 := by
    rw [hfits.inodeSize]
    omega
  have hnot := check_ok_iff.mp hcheck
  have hslice : (d.image (freshBlock n now now' label f)).bytes.slice 1024 Superblock.size
      = sbOf (d.image (freshBlock n now now' label f)) := rfl
  rw [hslice, if_neg hsize, hm] at hnot
  unfold ext2MaxGroups at hnot
  exact hnot (Or.inr hgt)

/-- The second kilobyte of the device has the fields of the superblock. -/
theorem rd32_second_kib (d : Vblk) {o : Nat} (ho : o + 4 ≤ 204) :
    (d.bytes.slice 1024 1024).rd32 o = (sbOf d).rd32 o := by
  unfold sbOf
  rw [Mem.rd32_slice (by omega), Mem.rd32_slice ho]

theorem rd16_second_kib (d : Vblk) {o : Nat} (ho : o + 2 ≤ 204) :
    (d.bytes.slice 1024 1024).rd16 o = (sbOf d).rd16 o := by
  unfold sbOf
  rw [Mem.rd16_slice (by omega), Mem.rd16_slice ho]

theorem layoutOf_fits {d : Vblk} (hle : groupsOf n ≤ 65535) (h : HeadFits n (sbOf d) (gdOf d)) :
    layoutOf (d.bytes.slice 1024 1024) = ⟨4096, 128, inodesOf n, 1024, groupsOf n, 4096⟩ := by
  have hlog : Superblock.sLogBlockSize (d.bytes.slice 1024 1024) = 2 :=
    (rd32_second_kib d (by omega)).trans h.logBlockSize
  have hsize : Superblock.sInodeSize (d.bytes.slice 1024 1024) = 128 :=
    (rd16_second_kib d (by omega)).trans h.inodeSize
  have hcount : Superblock.sInodesCount (d.bytes.slice 1024 1024) = inodesOf n :=
    (rd32_second_kib d (by omega)).trans h.inodesCount
  have hipg : Superblock.sInodesPerGroup (d.bytes.slice 1024 1024) = 1024 :=
    (rd32_second_kib d (by omega)).trans h.inodesPerGroup
  have hfirst : Superblock.sFirstDataBlock (d.bytes.slice 1024 1024) = 0 :=
    (rd32_second_kib d (by omega)).trans h.firstDataBlock
  have hgroups : (inodesOf n + 1024 - 1) % uint32 / 1024 = groupsOf n := by
    unfold inodesOf uint32
    omega
  unfold layoutOf
  rw [hlog, hsize, hcount, hipg, hfirst, hgroups]
  rfl

theorem fresh_read_layout (h : Formattable n) (hlim : (gdtBlocksOf n + 36) * 4096 ≤ d.limit) :
    ext2ReadLayout (d.image (freshBlock n now now' label f))
      = some ⟨4096, 128, inodesOf n, 1024, groupsOf n, 4096⟩ := by
  have hfits := @fresh_fits n now now' label d f h
  have hpos := h.pos
  have hmagic : Superblock.sMagic ((d.image (freshBlock n now now' label f)).bytes.slice 1024 1024)
      = 0xEF53 := (rd16_second_kib _ (by omega)).trans hfits.magic
  have hlog : Superblock.sLogBlockSize ((d.image (freshBlock n now now' label f)).bytes.slice 1024 1024)
      = 2 := (rd32_second_kib _ (by omega)).trans hfits.logBlockSize
  have hread : preadBytesAt (d.image (freshBlock n now now' label f)) 1024 1024
      = .ok ((d.image (freshBlock n now now' label f)).bytes.slice 1024 1024) :=
    preadBytesAt_of_le (show 1024 + 1024 ≤ d.limit by omega)
  unfold ext2ReadLayout
  rw [hread, Except.toOption, Option.bind_some]
  dsimp only []
  rw [layoutOf_fits h.le hfits, hmagic, hlog, if_neg]
  simp only []
  have : inodesOf n = groupsOf n * 1024 := rfl
  omega

/-- The descriptors where `ext2_read_layout` looks for them. -/
theorem fresh_read_desc (h : Formattable n) (hlim : (gdtBlocksOf n + 36) * 4096 ≤ d.limit) {g : Nat}
    (hg : g < groupsOf n) :
    preadBytesAt (d.image (freshBlock n now now' label f)) (4096 + g * 32) 32
      = .ok (mkfsGroupDesc n (gdtBlocksOf n) g) := by
  have hcov := gdt_cover n hg
  have hread : preadBytesAt (d.image (freshBlock n now now' label f)) (4096 + g * 32) 32
      = .ok ((d.image (freshBlock n now now' label f)).bytes.slice (4096 + g * 32) 32) :=
    preadBytesAt_of_le (show 4096 + g * 32 + 32 ≤ d.limit by omega)
  rw [hread]
  show Except.ok (gdOf (d.image (freshBlock n now now' label f)) g) = _
  rw [gdOf_fresh h hg, mkfsGroupDesc_slice]

theorem fresh_inode_offset (h : Formattable n) (hlim : (gdtBlocksOf n + 36) * 4096 ≤ d.limit)
    {ino : Nat} (h₁ : 1 ≤ ino) (h₂ : ino ≤ inodesOf n) :
    ext2InodeDiskOffset (d.image (freshBlock n now now' label f))
      ⟨4096, 128, inodesOf n, 1024, groupsOf n, 4096⟩ ino
      = some (((ino - 1) / 1024 * 32768 + 3 + gdtBlocksOf n) * 4096 + (ino - 1) % 1024 * 128) := by
  have hlt := h.lt
  have hg : (ino - 1) / 1024 < groupsOf n := by
    unfold inodesOf at h₂
    omega
  have hend := (h.group_end hg).1
  have htable := (@mkfsGroupDesc_fields n (gdtBlocksOf n) ((ino - 1) / 1024) (by
    unfold uint32 at hlt ⊢
    omega)).2.2
  unfold ext2InodeDiskOffset
  dsimp only []
  rw [if_neg (by omega), fresh_read_desc h hlim hg, Except.toOption, Option.bind_some, htable, if_neg (by omega),
    ← Nat.add_assoc]

theorem fresh_read_root_disk (h : Formattable n) (hlim : (gdtBlocksOf n + 36) * 4096 ≤ d.limit) :
    ext2ReadInodeDisk (d.image (freshBlock n now now' label f))
      ⟨4096, 128, inodesOf n, 1024, groupsOf n, 4096⟩ 2
      = some ((mkfsRootInode now' (gdtBlocksOf n + 35)).slice 0 128) := by
  have hpos := h.pos
  have hoff := @fresh_inode_offset n now now' label d f h hlim 2 (by omega) (by unfold inodesOf; omega)
  have hroot : (d.image (freshBlock n now now' label f)).bytes.slice
      ((3 + gdtBlocksOf n) * 4096 + 128) 128
      = (mkfsRootInode now' (gdtBlocksOf n + 35)).slice 0 128 := by
    have hblock : (d.image (freshBlock n now now' label f)).bytes.slice
        ((3 + gdtBlocksOf n) * 4096 + 128) 128
        = ((d.image (freshBlock n now now' label f)).block (3 + gdtBlocksOf n)).slice 128 128 := by
      unfold Vblk.block
      rw [Mem.slice_slice (by omega)]
    rw [hblock, block_image, freshBlock_table h, Mem.slice_slice (by omega), Nat.zero_add,
      Mem.slice_write_in (le_refl _) (le_refl _), Nat.sub_self]
  have hread : preadBytesAt (d.image (freshBlock n now now' label f))
      ((3 + gdtBlocksOf n) * 4096 + 128) 128
      = .ok ((mkfsRootInode now' (gdtBlocksOf n + 35)).slice 0 128) := by
    rw [← hroot]
    exact preadBytesAt_of_le (show (3 + gdtBlocksOf n) * 4096 + 128 + 128 ≤ d.limit by omega)
  have hsimp : ((2 - 1) / 1024 * 32768 + 3 + gdtBlocksOf n) * 4096 + (2 - 1) % 1024 * 128
      = (3 + gdtBlocksOf n) * 4096 + 128 := by omega
  rw [hsimp] at hoff
  unfold ext2ReadInodeDisk
  dsimp only []
  rw [if_neg (by omega), hoff, Option.bind_some, hread, Except.toOption, Option.bind_some, if_neg]
  rw [rootInode_mode]
  omega

theorem fresh_layout (h : Formattable n) (hlim : (gdtBlocksOf n + 36) * 4096 ≤ d.limit) :
    LayoutFormat n (d.image (freshBlock n now now' label f)) := by
  have hpos := h.pos
  have hend := h.group_end h.pos
  refine ⟨_, fresh_read_layout h hlim, h.groups.symm, rfl, fun g hg => ?_, fun ino h₁ h₂ => ?_,
    (mkfsRootInode now' (gdtBlocksOf n + 35)).slice 0 128, ?_, ?_, ?_⟩
  · rw [h.groups] at hg
    rw [h.gdtBlocks]
    exact fresh_read_desc h hlim hg
  · rw [h.groups] at h₂
    rw [h.gdtBlocks]
    exact fresh_inode_offset h hlim h₁ h₂
  · exact fresh_read_root_disk h hlim
  · rw [rootInode_mode]
    rfl
  · rw [rootInode_dirBlocks (by unfold uint32; omega) (by omega), h.gdtBlocks, dataRel_eq]

/-- Both readers take what `mkfs_ext2_core` has made exactly when it has at most 1024
groups; it makes up to 65535. -/
theorem fresh_readers_iff {bytes : Nat} {d' : Vblk} (h : mkfsExt2Core bytes label d = .ok () d') :
    (LoadsFormat (bytes / 4096) d' ∧ LayoutFormat (bytes / 4096) d') ↔
      mkfsGroups (bytes / 4096) ≤ 1024 := by
  have hf := formattable_of_ok h
  obtain ⟨-, hfits, rfl⟩ := mkfsExt2Core_ok_iff.mp h
  have hlim : (gdtBlocksOf (bytes / 4096) + 36) * 4096 ≤ d.tick.tick.limit := by
    have h0 := (hfits 0 (by rw [hf.groups]; exact hf.pos)).limit
    rw [hf.gdtBlocks, dataRel_eq, if_pos rfl] at h0
    refine le_trans (Nat.mul_le_mul_right 4096 ?_) h0
    omega
  rw [hf.groups]
  refine ⟨fun hread => ?_, fun hle => ⟨fresh_loads hf hle hlim, fresh_layout hf hlim⟩⟩
  by_contra hgt
  obtain ⟨m, hload, -⟩ := hread.1
  exact fresh_not_loads hf (by omega) m hload

end Readers

/-! ## A filesystem of 1025 groups -/

/-- A blank device of 1024 groups and 1000 blocks. -/
def blankDevice : Vblk := ⟨33555432 * 4096, false, Mem.zero, fun _ => 0⟩

theorem blank_formats : ∃ d', mkfsExt2Core (33555432 * 4096) [] blankDevice = .ok () d' := by
  have hgroups : mkfsGroups (33555432 * 4096 / 4096) = 1025 := by decide
  have hgdt : mkfsGdtBlocks (33555432 * 4096 / 4096) = 9 := by decide
  refine ⟨_, mkfsExt2Core_ok_iff.mpr ⟨?_, fun g hg => ?_, rfl⟩⟩
  · unfold EarlyReject
    rw [hgroups]
    decide
  · rw [hgroups] at hg
    rw [hgdt]
    refine ⟨?_, rfl, ?_⟩
    · rw [dataRel_eq]
      unfold groupBlocks blocksPerGroup
      omega
    · show (g * 32768 + dataRel 9 + if g = 0 then 1 else 0) * 4096 ≤ 33555432 * 4096
      rw [dataRel_eq]
      refine Nat.mul_le_mul_right 4096 ?_
      split <;> omega

/-- The formatter makes it, and `ext2_load_meta` does not take it. -/
theorem fresh_not_readable :
    ∃ d', mkfsExt2Core (33555432 * 4096) [] blankDevice = .ok () d' ∧
      ∀ m, ext2LoadMeta d' ≠ .ok m := by
  obtain ⟨d', h⟩ := blank_formats
  refine ⟨d', h, ?_⟩
  have hf := formattable_of_ok h
  obtain ⟨-, -, rfl⟩ := mkfsExt2Core_ok_iff.mp h
  exact fresh_not_loads hf (by decide)

/-- A filesystem of one group. -/
theorem small_formats : ∃ d', mkfsExt2Core (4096 * 4096) [] blankDevice = .ok () d' := by
  have hgroups : mkfsGroups (4096 * 4096 / 4096) = 1 := by decide
  have hgdt : mkfsGdtBlocks (4096 * 4096 / 4096) = 1 := by decide
  refine ⟨_, mkfsExt2Core_ok_iff.mpr ⟨?_, fun g hg => ?_, rfl⟩⟩
  · unfold EarlyReject
    rw [hgroups]
    decide
  · rw [hgroups] at hg
    obtain rfl : g = 0 := by omega
    rw [hgdt]
    exact ⟨by decide, rfl, by decide⟩

/-- A device of one group. -/
theorem fresh_readable_small : ∃ d', mkfsExt2Core (4096 * 4096) [] blankDevice = .ok () d' ∧
    LoadsFormat 4096 d' ∧ LayoutFormat 4096 d' := by
  have hgroups : mkfsGroups (4096 * 4096 / 4096) = 1 := by decide
  obtain ⟨d', h⟩ := small_formats
  exact ⟨d', h, (fresh_readers_iff h).mpr (by rw [hgroups]; decide)⟩

end Guppy.Ext2
