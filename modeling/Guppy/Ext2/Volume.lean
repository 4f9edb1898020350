import Guppy.Ext2.Access
import Guppy.Ext2.Mkfs
import Mathlib.Algebra.BigOperators.Group.Finset.Basic

set_option autoImplicit false

/-! # Volumes

The filesystems that `mkfs_ext2_core` makes have one geometry, fixed by the number `n` of
blocks. A *volume* is what such a device holds besides the superblock and the group
descriptors: which blocks and inodes are marked used, the inodes, and the data blocks. `vol`
reads it off the device. The lemmas of this module say of each kind of device access what it
does to the volume; what follows is about volumes and not about bytes.

`Good n d` says that the superblock and the descriptors fit the geometry and that their free
counts are those of the bitmaps.
-/

namespace Guppy.Ext2

open Prog Vfs

/-! ## Geometry -/

def groupsOf (n : Nat) : Nat := (n + 32767) / 32768

def gdtBlocksOf (n : Nat) : Nat := (groupsOf n + 127) / 128

/-- First data block of each group. -/
def dataStart (n : Nat) : Nat := gdtBlocksOf n + 35

/-- How many inodes there are. -/
def inodesOf (n : Nat) : Nat := groupsOf n * 1024

/-- The blocks of metadata. -/
def isMeta (n b : Nat) : Bool := b % 32768 < dataStart n

/-- The sizes that `mkfs_ext2_core` accepts, up to 1024 groups. -/
structure Geometry (n : Nat) : Prop where
  pos : 0 < groupsOf n
  le : groupsOf n ≤ 1024
  room : ∀ g, g < groupsOf n → dataStart n < groupBlocks n g

def bbBlk (n g : Nat) : Nat := g * 32768 + 1 + gdtBlocksOf n
def ibBlk (n g : Nat) : Nat := g * 32768 + 1 + gdtBlocksOf n + 1
def itBlk (n g : Nat) : Nat := g * 32768 + 1 + gdtBlocksOf n + 1 + 1

/-- Where inode `i` starts on the device. -/
def inodeOff (n i : Nat) : Nat := itBlk n ((i - 1) / 1024) * 4096 + (i - 1) % 1024 * 128

section Geometry

variable {n : Nat}

theorem Geometry.blocks_le (h : Geometry n) : n ≤ groupsOf n * 32768 := by
  unfold groupsOf
  omega

theorem Geometry.lt_uint32 (h : Geometry n) : n < 33554433 := by
  have h₁ := h.blocks_le
  have h₂ := h.le
  omega

theorem Geometry.gdt_le (h : Geometry n) : 0 < gdtBlocksOf n ∧ gdtBlocksOf n ≤ 8 := by
  have h₁ := h.pos
  have h₂ := h.le
  unfold gdtBlocksOf
  omega

theorem Geometry.group_end (h : Geometry n) {g : Nat} (hg : g < groupsOf n) :
    g * 32768 + dataStart n < n := by
  have hroom := h.room g hg
  unfold groupBlocks blocksPerGroup at hroom
  omega

theorem Geometry.group_lt (h : Geometry n) {b : Nat} (hb : b < n) : b / 32768 < groupsOf n := by
  have := h.blocks_le
  omega

theorem groupBlocks_of_lt {b : Nat} (hb : b < n) : b % 32768 < groupBlocks n (b / 32768) := by
  unfold groupBlocks blocksPerGroup
  omega

end Geometry

/-! ## What is on the device -/

/-- What a device holds besides the superblock and the group descriptors. -/
structure Vol where
  used : Nat → Bool
  live : Nat → Bool
  inode : Nat → Inode
  blk : Nat → Mem

theorem Vol.ext {v w : Vol} (h₁ : v.used = w.used) (h₂ : v.live = w.live)
    (h₃ : v.inode = w.inode) (h₄ : v.blk = w.blk) : v = w := by
  cases v
  cases w
  simp_all

def Vblk.block (d : Vblk) (b : Nat) : Mem := d.bytes.slice (b * 4096) 4096

/-- The volume on a device of `n` blocks. -/
def vol (n : Nat) (d : Vblk) : Vol where
  used b := decide (b < n) && (d.block (bbBlk n (b / 32768))).bit (b % 32768)
  live i := decide (1 ≤ i ∧ i ≤ inodesOf n) && (d.block (ibBlk n ((i - 1) / 1024))).bit ((i - 1) % 1024)
  inode i := if 1 ≤ i ∧ i ≤ inodesOf n then d.bytes.slice (inodeOff n i) 128 else Mem.zero
  blk b := if b < n ∧ isMeta n b = false then d.block b else Mem.zero

def sbOf (d : Vblk) : Superblock := d.bytes.slice 1024 204

def gdOf (d : Vblk) (g : Nat) : GroupDesc := d.bytes.slice (4096 + g * 32) 32

/-- The fields of the superblock and the descriptors that no operation changes. -/
structure HeadFits (n : Nat) (sb : Superblock) (gd : Nat → GroupDesc) : Prop where
  inodesCount : sb.sInodesCount = inodesOf n
  blocksCount : sb.sBlocksCount = n
  firstDataBlock : sb.sFirstDataBlock = 0
  logBlockSize : sb.sLogBlockSize = 2
  blocksPerGroup : sb.sBlocksPerGroup = 32768
  inodesPerGroup : sb.sInodesPerGroup = 1024
  magic : sb.sMagic = 0xEF53
  revLevel : sb.sRevLevel = 1
  firstIno : sb.sFirstIno = 11
  inodeSize : sb.sInodeSize = 128
  roCompat : sb.sFeatureRoCompat = 0
  bitmap : ∀ g, g < groupsOf n → (gd g).bgBlockBitmap = bbBlk n g
  inodeBitmap : ∀ g, g < groupsOf n → (gd g).bgInodeBitmap = ibBlk n g
  inodeTable : ∀ g, g < groupsOf n → (gd g).bgInodeTable = itBlk n g

/-- Free blocks of group `g`. -/
def freeIn (n : Nat) (used : Nat → Bool) (g : Nat) : Nat := clearIn used (g * 32768) (groupBlocks n g)

/-- Free inodes of group `g`. -/
def ifreeIn (live : Nat → Bool) (g : Nat) : Nat := clearIn live (g * 1024 + 1) 1024

/-- The free counts are those of the bitmaps. -/
structure HeadCounts (n : Nat) (used live : Nat → Bool) (sb : Superblock) (gd : Nat → GroupDesc) :
    Prop where
  blocks : ∀ g, g < groupsOf n → (gd g).bgFreeBlocksCount = freeIn n used g
  inodes : ∀ g, g < groupsOf n → (gd g).bgFreeInodesCount = ifreeIn live g
  allBlocks : sb.sFreeBlocksCount = ∑ g ∈ Finset.range (groupsOf n), freeIn n used g
  allInodes : sb.sFreeInodesCount = ∑ g ∈ Finset.range (groupsOf n), ifreeIn live g

/-- A device that can hold the volume. -/
structure Holds (n : Nat) (d : Vblk) : Prop where
  limit : n * 4096 ≤ d.limit
  writable : d.ro = false
  tail : d.bytes.rd16 1230 = 0

/-- A device whose superblock and descriptors fit the volume on it. -/
structure Good (n : Nat) (d : Vblk) : Prop extends Holds n d where
  fits : HeadFits n (sbOf d) (gdOf d)
  counts : HeadCounts n (vol n d).used (vol n d).live (sbOf d) (gdOf d)

/-- Loaded metadata, for a volume with these bitmaps. -/
structure MetaFits (n : Nat) (m : Ext2Meta) : Prop where
  head : HeadFits n m.sb m.gd
  groupCount : m.groupCount = groupsOf n
  blockSize : m.blockSize = 4096
  gdtBlk : m.gdtBlk = 1
  gdtBlocks : m.gdtBlocks = gdtBlocksOf n

/-! ## Blocks of the device -/

/-- The block of the inode table that holds inode `i`. -/
def inodeBlk (n i : Nat) : Nat := itBlk n ((i - 1) / 1024) + (i - 1) % 1024 / 32

section Blocks

variable {n : Nat} {d : Vblk}

theorem isMeta_eq_false {b : Nat} : isMeta n b = false ↔ dataStart n ≤ b % 32768 := by
  unfold isMeta
  rw [decide_eq_false_iff_not]
  omega

theorem block_put (d : Vblk) (c b : Nat) (src : Mem) :
    (d.put (c * 4096) 4096 src).block b = if b = c then src.slice 0 4096 else d.block b := by
  unfold Vblk.block Vblk.put
  split
  · rename_i h
    rw [h, Mem.slice_write_in (le_refl _) (le_refl _), Nat.sub_self]
  · rename_i h
    rw [Mem.slice_write_out]
    omega

theorem slice_inodeOff (d : Vblk) (n i : Nat) :
    d.bytes.slice (inodeOff n i) 128 = (d.block (inodeBlk n i)).slice ((i - 1) % 32 * 128) 128 := by
  have hoff : inodeOff n i = inodeBlk n i * 4096 + (i - 1) % 32 * 128 := by
    unfold inodeOff inodeBlk
    omega
  unfold Vblk.block
  rw [Mem.slice_slice (by omega), hoff]

theorem vol_used (n : Nat) (d : Vblk) (b : Nat) :
    (vol n d).used b = (decide (b < n) && (d.block (bbBlk n (b / 32768))).bit (b % 32768)) := rfl

theorem vol_live (n : Nat) (d : Vblk) (i : Nat) :
    (vol n d).live i = (decide (1 ≤ i ∧ i ≤ inodesOf n) &&
      (d.block (ibBlk n ((i - 1) / 1024))).bit ((i - 1) % 1024)) := rfl

theorem vol_inode (n : Nat) (d : Vblk) (i : Nat) :
    (vol n d).inode i = if 1 ≤ i ∧ i ≤ inodesOf n then
      (d.block (inodeBlk n i)).slice ((i - 1) % 32 * 128) 128 else Mem.zero := by
  rw [← slice_inodeOff]
  rfl

theorem vol_blk (n : Nat) (d : Vblk) (b : Nat) :
    (vol n d).blk b = if b < n ∧ isMeta n b = false then d.block b else Mem.zero := rfl

theorem sbOf_eq (d : Vblk) : sbOf d = (d.block 0).slice 1024 204 := by
  unfold Vblk.block sbOf
  rw [Mem.slice_slice (by omega)]

theorem gdOf_eq (d : Vblk) (g : Nat) :
    gdOf d g = (d.block (1 + g / 128)).slice (g % 128 * 32) 32 := by
  have hoff : 4096 + g * 32 = (1 + g / 128) * 4096 + g % 128 * 32 := by omega
  unfold Vblk.block gdOf
  rw [Mem.slice_slice (by omega), hoff]

theorem bbBlk_div (h : Geometry n) (g : Nat) :
    bbBlk n g / 32768 = g ∧ bbBlk n g % 32768 = 1 + gdtBlocksOf n := by
  have := h.gdt_le
  unfold bbBlk
  omega

theorem ibBlk_div (h : Geometry n) (g : Nat) :
    ibBlk n g / 32768 = g ∧ ibBlk n g % 32768 = 2 + gdtBlocksOf n := by
  have := h.gdt_le
  unfold ibBlk
  omega

theorem inodeBlk_div (h : Geometry n) (i : Nat) :
    inodeBlk n i / 32768 = (i - 1) / 1024 ∧
      inodeBlk n i % 32768 = 3 + gdtBlocksOf n + (i - 1) % 1024 / 32 := by
  have := h.gdt_le
  unfold inodeBlk itBlk
  omega

/-- Two devices whose blocks agree outside the superblock and the descriptors hold the same
volume. -/
theorem vol_congr (h : Geometry n) {d' : Vblk}
    (hb : ∀ b, 1 + gdtBlocksOf n ≤ b % 32768 → d'.block b = d.block b) : vol n d' = vol n d := by
  refine Vol.ext (funext fun b => ?_) (funext fun i => ?_) (funext fun i => ?_) (funext fun b => ?_)
  · rw [vol_used, vol_used, hb _ (by rw [(bbBlk_div h _).2])]
  · rw [vol_live, vol_live, hb _ (by rw [(ibBlk_div h _).2]; omega)]
  · rw [vol_inode, vol_inode, hb _ (by rw [(inodeBlk_div h _).2]; omega)]
  · rw [vol_blk, vol_blk]
    by_cases hc : b < n ∧ isMeta n b = false
    · have := isMeta_eq_false.mp hc.2
      unfold dataStart at this
      rw [hb b (by omega)]
    · rw [if_neg hc, if_neg hc]

/-- Two devices whose first blocks agree have the same superblock and descriptors. -/
theorem head_congr {d' : Vblk}
    (hb : ∀ b, b ≤ gdtBlocksOf n → d'.block b = d.block b) :
    sbOf d' = sbOf d ∧ (∀ g, g < groupsOf n → gdOf d' g = gdOf d g) := by
  refine ⟨?_, fun g hg => ?_⟩
  · rw [sbOf_eq, sbOf_eq, hb 0 (Nat.zero_le _)]
  · rw [gdOf_eq, gdOf_eq, hb]
    unfold gdtBlocksOf
    omega

theorem HeadFits.congr {sb : Superblock} {gd gd' : Nat → GroupDesc} (h : HeadFits n sb gd)
    (hgd : ∀ g, g < groupsOf n → gd' g = gd g) : HeadFits n sb gd' :=
  { h with
    bitmap := fun g hg => by rw [hgd g hg]; exact h.bitmap g hg
    inodeBitmap := fun g hg => by rw [hgd g hg]; exact h.inodeBitmap g hg
    inodeTable := fun g hg => by rw [hgd g hg]; exact h.inodeTable g hg }

theorem HeadCounts.congr {used live : Nat → Bool} {sb : Superblock} {gd gd' : Nat → GroupDesc}
    (h : HeadCounts n used live sb gd) (hgd : ∀ g, g < groupsOf n → gd' g = gd g) :
    HeadCounts n used live sb gd' :=
  { h with
    blocks := fun g hg => by rw [hgd g hg]; exact h.blocks g hg
    inodes := fun g hg => by rw [hgd g hg]; exact h.inodes g hg }

/-- A block other than the first keeps the bytes behind the superblock. -/
theorem Holds.put (h : Holds n d) {c : Nat} (hc : 0 < c) (src : Mem) :
    Holds n (d.put (c * 4096) 4096 src) := by
  refine ⟨h.limit, h.writable, ?_⟩
  show (d.bytes.write (c * 4096) 4096 src).rd16 1230 = 0
  rw [Mem.rd16_write_out (by omega), h.tail]

/-- A write that keeps superblock, descriptors and bitmaps keeps the device good. -/
theorem Good.of_blocks (h : Good n d) {d' : Vblk} (hd : Holds n d')
    (hb : ∀ b, b ≤ gdtBlocksOf n → d'.block b = d.block b)
    (hu : (vol n d').used = (vol n d).used) (hl : (vol n d').live = (vol n d).live) :
    Good n d' := by
  obtain ⟨hsb, hgd⟩ := head_congr hb
  refine ⟨hd, ?_, ?_⟩
  · rw [hsb]
    exact h.fits.congr hgd
  · rw [hsb, hu, hl]
    exact h.counts.congr hgd

theorem block_limit (h : Holds n d) {b : Nat} (hb : b < n) : b * 4096 + 4096 ≤ d.limit := by
  have hlim := h.limit
  by_contra hlt
  omega

/-! ### Data blocks -/

theorem vol_blk_data {b : Nat} (hb : b < n) (hm : isMeta n b = false) :
    (vol n d).blk b = d.block b := if_pos ⟨hb, hm⟩

/-- Writing a data block. -/
theorem vol_put_data (hg : Geometry n) {c : Nat} (hc : c < n) (hm : isMeta n c = false) (src : Mem) :
    vol n (d.put (c * 4096) 4096 src)
      = { vol n d with blk := Function.update (vol n d).blk c (src.slice 0 4096) } := by
  have hm' := isMeta_eq_false.mp hm
  have hds : dataStart n = gdtBlocksOf n + 35 := rfl
  refine Vol.ext (funext fun b => ?_) (funext fun i => ?_) (funext fun i => ?_) (funext fun b => ?_)
  · have := (bbBlk_div hg (b / 32768)).2
    show (vol n _).used b = (vol n d).used b
    rw [vol_used, vol_used, block_put, if_neg (fun h0 => by rw [h0] at this; omega)]
  · have := (ibBlk_div hg ((i - 1) / 1024)).2
    show (vol n _).live i = (vol n d).live i
    rw [vol_live, vol_live, block_put, if_neg (fun h0 => by rw [h0] at this; omega)]
  · have := (inodeBlk_div hg i).2
    show (vol n _).inode i = (vol n d).inode i
    have hne : inodeBlk n i ≠ c := fun h0 => by rw [h0] at this; omega
    rw [vol_inode, vol_inode, block_put, if_neg hne]
  · show (vol n _).blk b = Function.update (vol n d).blk c (src.slice 0 4096) b
    rw [vol_blk, block_put, Function.update_apply]
    by_cases hbc : b = c
    · rw [if_pos hbc, if_pos (by rw [hbc]; exact ⟨hc, hm⟩), if_pos hbc]
    · rw [if_neg hbc, if_neg hbc]
      rfl

theorem preadBlock_data (h : Holds n d) {b : Nat} (hb : b < n) (hm : isMeta n b = false) :
    preadBlock d 4096 b 4096 = .ok ((vol n d).blk b) := by
  rw [preadBlock_of_le (block_limit h hb), vol_blk_data hb hm]
  rfl

/-- The device `d'` is `d` with the volume `v` on it, and as good as `d` was. -/
structure Becomes (n : Nat) (d d' : Vblk) (v : Vol) : Prop where
  holds : Holds n d'
  good : Good n d → Good n d'
  eq : vol n d' = v

/-- `pwrite_block` of a data block. -/
theorem pwriteBlock_data (hg : Geometry n) (h : Holds n d) {c : Nat} (hc : c < n)
    (hm : isMeta n c = false) (src : Mem) :
    ∃ d', pwriteBlock 4096 c src 4096 d = .ok () d' ∧
      Becomes n d d' { vol n d with blk := Function.update (vol n d).blk c (src.slice 0 4096) } := by
  have hm' := isMeta_eq_false.mp hm
  have hds : dataStart n = gdtBlocksOf n + 35 := rfl
  have hpos : 0 < c := by
    rcases Nat.eq_zero_or_pos c with rfl | h0
    · omega
    · exact h0
  have hvol := vol_put_data (d := d) hg hc hm src
  refine ⟨_, pwriteBlock_of_le h.writable (block_limit h hc), h.put hpos src, fun hgood => ?_, hvol⟩
  refine hgood.of_blocks (h.put hpos src) (fun b hb => ?_) ?_ ?_
  · rw [block_put, if_neg]
    rintro rfl
    have := hg.gdt_le
    omega
  · rw [hvol]
  · rw [hvol]

/-! ### Inodes -/

theorem inodePlace_eq {m : Ext2Meta} (hg : Geometry n) (hm : MetaFits n m) {i : Nat}
    (h₁ : 1 ≤ i) (h₂ : i ≤ inodesOf n) :
    inodePlace m i = .ok (inodeBlk n i, (i - 1) % 32 * 128) := by
  have hgroup : (i - 1) / 1024 < groupsOf n := by
    unfold inodesOf at h₂
    omega
  have hle := hg.le
  have hgdt := hg.gdt_le
  unfold inodePlace
  simp only [hm.head.inodesCount, hm.head.inodesPerGroup, hm.groupCount, hm.blockSize,
    hm.head.inodeSize, hm.head.inodeTable _ hgroup]
  rw [check_of_not (by omega), check_of_not (by omega), check_of_not (by omega)]
  have hblk : (itBlk n ((i - 1) / 1024) + (i - 1) % 1024 / (4096 / 128)) % uint32 = inodeBlk n i := by
    unfold inodeBlk
    refine Nat.mod_eq_of_lt ?_
    unfold itBlk uint32
    omega
  have hoff : (i - 1) % 1024 % (4096 / 128) * 128 = (i - 1) % 32 * 128 := by omega
  show Except.ok (_, _) = _
  rw [hblk, hoff]

theorem inodeBlk_lt (hg : Geometry n) {i : Nat} (h₁ : 1 ≤ i) (h₂ : i ≤ inodesOf n) :
    inodeBlk n i < n := by
  have hgroup : (i - 1) / 1024 < groupsOf n := by
    unfold inodesOf at h₂
    omega
  have hend := hg.group_end hgroup
  unfold dataStart at hend
  unfold inodeBlk itBlk
  by_contra hge
  omega

theorem ext2ReadInodeAt_eq {m : Ext2Meta} (hg : Geometry n) (hm : MetaFits n m) (h : Holds n d)
    {i : Nat} (h₁ : 1 ≤ i) (h₂ : i ≤ inodesOf n) :
    ext2ReadInodeAt d m i = .ok ((vol n d).inode i) := by
  unfold ext2ReadInodeAt
  rw [except_bind_of_ok (inodePlace_eq hg hm h₁ h₂), hm.blockSize]
  dsimp only []
  rw [except_bind_of_ok (orCode_of_ok (preadBlock_of_le (block_limit h (inodeBlk_lt hg h₁ h₂)))),
    vol_inode, if_pos ⟨h₁, h₂⟩]
  rfl

/-- An inode number out of range cannot be read. -/
theorem ext2ReadInodeAt_out {m : Ext2Meta} (hm : MetaFits n m) {i : Nat}
    (hi : i = 0 ∨ inodesOf n < i) : ∃ e, ext2ReadInodeAt d m i = .error e := by
  refine ⟨-1, ?_⟩
  unfold ext2ReadInodeAt inodePlace
  rw [hm.head.inodesCount, except_bind_of_error (e := -1)]
  rw [except_bind_of_error (check_of hi)]

/-- Writing a block of the inode table with one inode replaced. -/
theorem vol_put_inode (hg : Geometry n) {i : Nat} (h₁ : 1 ≤ i) (h₂ : i ≤ inodesOf n) (p : Inode) :
    vol n (d.put (inodeBlk n i * 4096) 4096
        ((d.block (inodeBlk n i)).write ((i - 1) % 32 * 128) 128 p))
      = { vol n d with inode := Function.update (vol n d).inode i (p.slice 0 128) } := by
  have hi := inodeBlk_div hg i
  have hgdt := hg.gdt_le
  refine Vol.ext (funext fun b => ?_) (funext fun j => ?_) (funext fun j => ?_) (funext fun b => ?_)
  · have := (bbBlk_div hg (b / 32768)).2
    show (vol n _).used b = (vol n d).used b
    rw [vol_used, vol_used, block_put, if_neg (fun h0 => by rw [h0] at this; omega)]
  · have := (ibBlk_div hg ((j - 1) / 1024)).2
    show (vol n _).live j = (vol n d).live j
    rw [vol_live, vol_live, block_put, if_neg (fun h0 => by rw [h0] at this; omega)]
  · show (vol n _).inode j = Function.update (vol n d).inode i (p.slice 0 128) j
    have hj := inodeBlk_div hg j
    rw [vol_inode, Function.update_apply]
    by_cases hji : j = i
    · rw [if_pos hji, hji, if_pos ⟨h₁, h₂⟩, block_put, if_pos rfl, Mem.slice_slice (by omega),
        Nat.zero_add, Mem.slice_write_in (le_refl _) (le_refl _), Nat.sub_self]
    · rw [if_neg hji, vol_inode]
      by_cases hr : 1 ≤ j ∧ j ≤ inodesOf n
      · rw [if_pos hr, if_pos hr, block_put]
        by_cases hsame : inodeBlk n j = inodeBlk n i
        · -- another inode of the same block
          have hpos : (j - 1) % 32 ≠ (i - 1) % 32 := by
            rw [hsame] at hj
            omega
          rw [if_pos hsame, Mem.slice_slice (by omega), Nat.zero_add,
            Mem.slice_write_out (by omega), hsame]
        · rw [if_neg hsame]
      · rw [if_neg hr, if_neg hr]
  · show (vol n _).blk b = (vol n d).blk b
    rw [vol_blk, vol_blk]
    by_cases hc : b < n ∧ isMeta n b = false
    · have hm := isMeta_eq_false.mp hc.2
      have hne : b ≠ inodeBlk n i := by
        rintro rfl
        unfold dataStart at hm
        omega
      rw [block_put, if_neg hne]
    · rw [if_neg hc, if_neg hc]

theorem ext2WriteInodeAt_eq {m : Ext2Meta} (hg : Geometry n) (hm : MetaFits n m) (h : Holds n d)
    {i : Nat} (h₁ : 1 ≤ i) (h₂ : i ≤ inodesOf n) (p : Inode) :
    ∃ d', ext2WriteInodeAt m i p d = .ok () d' ∧
      Becomes n d d' { vol n d with inode := Function.update (vol n d).inode i (p.slice 0 128) } := by
  have hlt := inodeBlk_lt hg h₁ h₂
  have hi := (inodeBlk_div hg i).2
  have hgdt := hg.gdt_le
  have hpos : 0 < inodeBlk n i := by omega
  have hvol := vol_put_inode (d := d) hg h₁ h₂ p
  have hrun : ext2WriteInodeAt m i p d = .ok () (d.put (inodeBlk n i * 4096) 4096
      ((d.block (inodeBlk n i)).write ((i - 1) % 32 * 128) 128 p)) := by
    unfold ext2WriteInodeAt
    refine bind_look (inodePlace_eq hg hm h₁ h₂) ?_
    rw [hm.blockSize]
    refine bind_look (orCode_of_ok (preadBlock_of_le (block_limit h hlt))) ?_
    exact orFail_of_ok (pwriteBlock_of_le h.writable (block_limit h hlt))
  refine ⟨_, hrun, h.put hpos _, fun hgood => ?_, hvol⟩
  refine hgood.of_blocks (h.put hpos _) (fun b hb => ?_) ?_ ?_
  · rw [block_put, if_neg]
    rintro rfl
    omega
  · rw [hvol]
  · rw [hvol]

/-! ### Bitmaps -/

theorem bit_slice_block {p : Mem} {i : Nat} (hi : i < 32768) : (p.slice 0 4096).bit i = p.bit i := by
  refine Mem.bit_congr ?_
  rw [Mem.slice_in (by omega), Nat.zero_add]

/-- Writing the block bitmap of a group. -/
theorem vol_put_bb (hg : Geometry n) (g : Nat) (src : Mem) :
    vol n (d.put (bbBlk n g * 4096) 4096 src)
      = { vol n d with used := fun b =>
          if b / 32768 = g then decide (b < n) && src.bit (b % 32768) else (vol n d).used b } := by
  have hi := bbBlk_div hg g
  have hgdt := hg.gdt_le
  refine Vol.ext (funext fun b => ?_) (funext fun j => ?_) (funext fun j => ?_) (funext fun b => ?_)
  · show (vol n _).used b = if b / 32768 = g then decide (b < n) && src.bit (b % 32768)
      else (vol n d).used b
    have hb := bbBlk_div hg (b / 32768)
    rw [vol_used, vol_used, block_put]
    by_cases hbg : b / 32768 = g
    · rw [if_pos (by rw [hbg]), if_pos hbg, bit_slice_block (by omega)]
    · rw [if_neg (fun h0 => hbg (by rw [h0] at hb; omega)), if_neg hbg]
  · have := (ibBlk_div hg ((j - 1) / 1024)).2
    show (vol n _).live j = (vol n d).live j
    rw [vol_live, vol_live, block_put, if_neg (fun h0 => by rw [h0] at this; omega)]
  · have := (inodeBlk_div hg j).2
    show (vol n _).inode j = (vol n d).inode j
    have hne : inodeBlk n j ≠ bbBlk n g := fun h0 => by rw [h0] at this; omega
    rw [vol_inode, vol_inode, block_put, if_neg hne]
  · show (vol n _).blk b = (vol n d).blk b
    rw [vol_blk, vol_blk]
    by_cases hc : b < n ∧ isMeta n b = false
    · have hm := isMeta_eq_false.mp hc.2
      have hne : b ≠ bbBlk n g := by
        rintro rfl
        unfold dataStart at hm
        omega
      rw [block_put, if_neg hne]
    · rw [if_neg hc, if_neg hc]

/-- Writing the inode bitmap of a group. -/
theorem vol_put_ib (hg : Geometry n) (g : Nat) (src : Mem) :
    vol n (d.put (ibBlk n g * 4096) 4096 src)
      = { vol n d with live := fun i =>
          if (i - 1) / 1024 = g then decide (1 ≤ i ∧ i ≤ inodesOf n) && src.bit ((i - 1) % 1024)
          else (vol n d).live i } := by
  have hi := ibBlk_div hg g
  have hgdt := hg.gdt_le
  refine Vol.ext (funext fun b => ?_) (funext fun j => ?_) (funext fun j => ?_) (funext fun b => ?_)
  · have := (bbBlk_div hg (b / 32768)).2
    show (vol n _).used b = (vol n d).used b
    rw [vol_used, vol_used, block_put, if_neg (fun h0 => by rw [h0] at this; omega)]
  · show (vol n _).live j = if (j - 1) / 1024 = g then
      decide (1 ≤ j ∧ j ≤ inodesOf n) && src.bit ((j - 1) % 1024) else (vol n d).live j
    have hj := ibBlk_div hg ((j - 1) / 1024)
    rw [vol_live, vol_live, block_put]
    by_cases hjg : (j - 1) / 1024 = g
    · rw [if_pos (by rw [hjg]), if_pos hjg, bit_slice_block (by omega)]
    · rw [if_neg (fun h0 => hjg (by rw [h0] at hj; omega)), if_neg hjg]
  · have := (inodeBlk_div hg j).2
    show (vol n _).inode j = (vol n d).inode j
    have hne : inodeBlk n j ≠ ibBlk n g := fun h0 => by rw [h0] at this; omega
    rw [vol_inode, vol_inode, block_put, if_neg hne]
  · show (vol n _).blk b = (vol n d).blk b
    rw [vol_blk, vol_blk]
    by_cases hc : b < n ∧ isMeta n b = false
    · have hm := isMeta_eq_false.mp hc.2
      have hne : b ≠ ibBlk n g := by
        rintro rfl
        unfold dataStart at hm
        omega
      rw [block_put, if_neg hne]
    · rw [if_neg hc, if_neg hc]

theorem bbBlk_lt (hg : Geometry n) {g : Nat} (h : g < groupsOf n) : bbBlk n g < n := by
  have := hg.group_end h
  unfold dataStart at this
  unfold bbBlk
  by_contra hge
  omega

theorem ibBlk_lt (hg : Geometry n) {g : Nat} (h : g < groupsOf n) : ibBlk n g < n := by
  have := hg.group_end h
  unfold dataStart at this
  unfold ibBlk
  by_contra hge
  omega

end Blocks

end Guppy.Ext2
