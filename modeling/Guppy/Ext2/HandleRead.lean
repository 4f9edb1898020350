import Guppy.Ext2.Access
import Guppy.Ext2.Handle
import Guppy.Ext2.Mkfs

set_option autoImplicit false

/-! # What the read-only handle reads

`ext2_read_file_at` and `f_read` agree on the superblock, on the inode and on the first
twelve blocks of a file. `f_read` stops there, and it has a buffer of 256 bytes for the
inode. So it reads the file to its end exactly when the file has at most twelve blocks and
inodes have at most 256 bytes (`handle_reads_file_iff`).
-/

namespace Guppy.Ext2

open Prog Vfs

/-! ## Two views of the superblock -/

/-- What the ext2 format says about a superblock and its group descriptors, as far as the two
readers rely on it: block and inode sizes, the place of the descriptors, and inode tables
that exist. -/
structure Standard (m : Ext2Meta) : Prop where
  log : m.sb.sLogBlockSize ≤ 2
  inodeSize : ∃ k, m.sb.sInodeSize = 128 * 2 ^ k
  inodeSize_le : m.sb.sInodeSize ≤ m.blockSize
  first : m.sb.sFirstDataBlock = if m.sb.sLogBlockSize = 0 then 1 else 0
  inodes : m.sb.sInodesCount + m.sb.sInodesPerGroup ≤ uint32
  tables : ∀ g, g < m.groupCount → 0 < (m.gd g).bgInodeTable ∧
    (m.gd g).bgInodeTable + m.sb.sInodesPerGroup ≤ uint32

/-- The superblock on the device, with the default inode size filled in. -/
def loadedSb (d : Vblk) : Superblock :=
  let sb : Superblock := d.bytes.slice 1024 204
  if sb.sInodeSize = 0 then sb.wr16 88 128 else sb

/-- What a successful `ext2_load_meta` says, for block sizes of the format. -/
structure Loaded (d : Vblk) (m : Ext2Meta) : Prop where
  sb : m.sb = loadedSb d
  magic : m.sb.sMagic = 0xEF53
  blockSize : m.blockSize = 1024 * 2 ^ m.sb.sLogBlockSize
  ipg : m.sb.sInodesPerGroup ≠ 0
  gdtBlk : m.gdtBlk = (if m.blockSize = 1024 then 1 else 0) + 1
  limit : (m.gdtBlk + 1) * m.blockSize ≤ d.limit
  gd : ∀ g, g < m.groupCount →
    m.gd g = d.bytes.slice (m.gdtBlk * m.blockSize + g * 32) 32 ∧
      m.gdtBlk * m.blockSize + g * 32 + 32 ≤ d.limit

theorem loadedSb_rd32 (d : Vblk) {o : Nat} (ho : o + 4 ≤ 88 ∨ 90 ≤ o) (h : o + 4 ≤ 204) :
    (loadedSb d).rd32 o = d.bytes.rd32 (1024 + o) := by
  unfold loadedSb
  simp only []
  split
  · rw [Mem.wr16, Mem.rd32_write_out (by omega), Mem.rd32_slice h]
  · rw [Mem.rd32_slice h]

theorem loadedSb_rd16 (d : Vblk) {o : Nat} (ho : o + 2 ≤ 88 ∨ 90 ≤ o) (h : o + 2 ≤ 204) :
    (loadedSb d).rd16 o = d.bytes.rd16 (1024 + o) := by
  unfold loadedSb
  simp only []
  split
  · rw [Mem.wr16, Mem.rd16_write_out (by omega), Mem.rd16_slice h]
  · rw [Mem.rd16_slice h]

theorem loadedSb_inodeSize (d : Vblk) :
    (loadedSb d).sInodeSize = if d.bytes.rd16 1112 = 0 then 128 else d.bytes.rd16 1112 := by
  have hslice : Superblock.sInodeSize (d.bytes.slice 1024 204) = d.bytes.rd16 1112 :=
    Mem.rd16_slice (by omega)
  unfold loadedSb
  simp only [hslice]
  split
  · rename_i h
    rw [Superblock.sInodeSize, Mem.rd16_wr16_self]
  · exact hslice

/-- What `ext2_load_meta` gives follows from the superblock, apart from the descriptors. -/
theorem meta_of_load {d : Vblk} {m : Ext2Meta} (h : ext2LoadMeta d = .ok m) :
    m = { metaOf (loadedSb d) with gd := m.gd } := by
  unfold ext2LoadMeta at h
  obtain ⟨sb, hsb, h⟩ := except_bind_ok_iff.mp h
  obtain ⟨_, -, h⟩ := except_bind_ok_iff.mp h
  obtain ⟨_, -, h⟩ := except_bind_ok_iff.mp h
  obtain ⟨_, -, h⟩ := except_bind_ok_iff.mp h
  obtain ⟨_, -, h⟩ := except_bind_ok_iff.mp h
  have hsb : sb = d.bytes.slice 1024 204 := (preadBytesAt_ok_iff.mp (orCode_ok_iff.mp hsb)).2
  rw [hsb] at h
  exact loadGdt_keeps h

theorem sb_of_load {d : Vblk} {m : Ext2Meta} (h : ext2LoadMeta d = .ok m) : m.sb = loadedSb d := by
  rw [meta_of_load h]
  rfl

theorem loaded_of_ok {d : Vblk} {m : Ext2Meta} (h : ext2LoadMeta d = .ok m)
    (hlog : m.sb.sLogBlockSize ≤ 2) : Loaded d m := by
  have hm := sb_of_load h
  unfold ext2LoadMeta at h
  obtain ⟨sb, hsb, h⟩ := except_bind_ok_iff.mp h
  obtain ⟨_, hsb⟩ := preadBytesAt_ok_iff.mp (orCode_ok_iff.mp hsb)
  obtain ⟨_, hmagic, h⟩ := except_bind_ok_iff.mp h
  obtain ⟨_, hbs, h⟩ := except_bind_ok_iff.mp h
  obtain ⟨_, hpg, h⟩ := except_bind_ok_iff.mp h
  obtain ⟨_, hgc, h⟩ := except_bind_ok_iff.mp h
  have hmagic := check_ok_iff.mp hmagic
  have hpg := check_ok_iff.mp hpg
  have hgc := check_ok_iff.mp hgc
  have hsb : sb = d.bytes.slice 1024 204 := hsb
  have hsb' : (if sb.sInodeSize = 0 then sb.wr16 88 128 else sb) = loadedSb d := by
    rw [hsb]
    rfl
  rw [hsb'] at h hgc
  have hlog' : (loadedSb d).sLogBlockSize ≤ 2 := by rwa [← hm]
  have hblk : (metaOf (loadedSb d)).blockSize = 1024 * 2 ^ (loadedSb d).sLogBlockSize := by
    unfold metaOf uint32
    simp only []
    generalize (loadedSb d).sLogBlockSize = l at hlog'
    interval_cases l <;> rfl
  have hper : ∃ per, (metaOf (loadedSb d)).blockSize = 32 * per ∧ 0 < per := by
    rw [hblk]
    refine ⟨32 * 2 ^ (loadedSb d).sLogBlockSize, by ring, by positivity⟩
  obtain ⟨per, hper, hper0⟩ := hper
  have hblocks : (metaOf (loadedSb d)).gdtBlocks
      = ((metaOf (loadedSb d)).groupCount + per - 1) / per := by
    have : (metaOf (loadedSb d)).blockSize / 32 = per := by omega
    rw [← this]
    rfl
  have hcover : (metaOf (loadedSb d)).groupCount ≤ (metaOf (loadedSb d)).gdtBlocks * per := by
    rw [hblocks]
    have h₁ := Nat.div_add_mod ((metaOf (loadedSb d)).groupCount + per - 1) per
    have h₂ := Nat.mod_lt ((metaOf (loadedSb d)).groupCount + per - 1) hper0
    rw [Nat.mul_comm] at h₁
    omega
  have hpos : 0 < (metaOf (loadedSb d)).gdtBlocks := by
    by_contra h0
    have : (metaOf (loadedSb d)).gdtBlocks = 0 := by omega
    rw [this] at hcover
    omega
  have hlim := loadGdt_limit hpos h
  rw [loadGdt_of_le hper hlim] at h
  cases h
  rw [Nat.add_zero] at hlim
  have hsucc : ((metaOf (loadedSb d)).gdtBlk + (metaOf (loadedSb d)).gdtBlocks)
      * (metaOf (loadedSb d)).blockSize
      = (metaOf (loadedSb d)).gdtBlk * (metaOf (loadedSb d)).blockSize
        + (metaOf (loadedSb d)).gdtBlocks * per * 32 := by
    rw [hper]
    ring
  refine ⟨rfl, ?_, hblk, ?_, rfl, ?_, ?_⟩
  · show (loadedSb d).sMagic = 0xEF53
    have : (loadedSb d).sMagic = sb.sMagic := by
      rw [hsb]
      exact (loadedSb_rd16 d (by omega) (by omega)).trans (Mem.rd16_slice (by omega)).symm
    rw [this]
    exact not_not.mp hmagic
  · show (loadedSb d).sInodesPerGroup ≠ 0
    have : (loadedSb d).sInodesPerGroup = sb.sInodesPerGroup := by
      rw [hsb]
      exact (loadedSb_rd32 d (by omega) (by omega)).trans (Mem.rd32_slice (by omega)).symm
    rw [this]
    exact fun h0 => hpg (Or.inr h0)
  · show ((metaOf (loadedSb d)).gdtBlk + 1) * (metaOf (loadedSb d)).blockSize ≤ d.limit
    refine le_trans (Nat.mul_le_mul_right _ ?_) hlim
    omega
  · intro g hg
    have hg : g < (metaOf (loadedSb d)).groupCount := hg
    have hdiv : (metaOf (loadedSb d)).blockSize / 32 = per := by omega
    refine ⟨?_, ?_⟩
    · show gdAfter d (metaOf (loadedSb d)) 0 _ g = _
      unfold gdAfter
      rw [if_pos]
      rw [hdiv, Nat.zero_add]
      refine ⟨by omega, by omega, hg⟩
    · show (metaOf (loadedSb d)).gdtBlk * (metaOf (loadedSb d)).blockSize + g * 32 + 32 ≤ d.limit
      omega

/-- The layout that `f_read` works with. -/
def Ext2Meta.layout (m : Ext2Meta) : DiskLayout :=
  { blockSize := m.blockSize
    inodeSize := m.sb.sInodeSize
    inodesCount := m.sb.sInodesCount
    inodesPerGroup := m.sb.sInodesPerGroup
    groupCount := (m.sb.sInodesCount + m.sb.sInodesPerGroup - 1) / m.sb.sInodesPerGroup
    groupDescOffset := m.gdtBlk * m.blockSize }

theorem Loaded.blockSize_ge {d : Vblk} {m : Ext2Meta} (h : Loaded d m) : 1024 ≤ m.blockSize := by
  rw [h.blockSize]
  exact Nat.le_mul_of_pos_right _ (by positivity)

theorem Standard.inodeSize_ge {m : Ext2Meta} (h : Standard m) : 128 ≤ m.sb.sInodeSize := by
  obtain ⟨k, hk⟩ := h.inodeSize
  rw [hk]
  exact Nat.le_mul_of_pos_right _ (by positivity)

/-- Both readers see the same layout. -/
theorem ext2ReadLayout_of_loaded {d : Vblk} {m : Ext2Meta} (h : Loaded d m) (hs : Standard m)
    (hpos : 0 < m.sb.sInodesCount) : ext2ReadLayout d = some m.layout := by
  have hbs := h.blockSize_ge
  have hlim : 1024 + 1024 ≤ d.limit := by
    refine le_trans ?_ h.limit
    have h₁ := h.gdtBlk
    calc 1024 + 1024 ≤ 2 * m.blockSize := by omega
      _ ≤ (m.gdtBlk + 1) * m.blockSize := Nat.mul_le_mul_right _ (by rw [h₁]; omega)
  have hfld : ∀ o, (o + 4 ≤ 88 ∨ 90 ≤ o) → o + 4 ≤ 204 →
      (d.bytes.slice 1024 1024).rd32 o = m.sb.rd32 o := by
    intro o ho h'
    rw [Mem.rd32_slice (by omega), h.sb, loadedSb_rd32 d ho h']
  have hmagic : Superblock.sMagic (d.bytes.slice 1024 1024) = 0xEF53 := by
    rw [← h.magic, h.sb]
    exact (Mem.rd16_slice (by omega)).trans (loadedSb_rd16 d (by omega) (by omega)).symm
  have hlog : Superblock.sLogBlockSize (d.bytes.slice 1024 1024) = m.sb.sLogBlockSize :=
    hfld 24 (by omega) (by omega)
  have hfirst : Superblock.sFirstDataBlock (d.bytes.slice 1024 1024) = m.sb.sFirstDataBlock :=
    hfld 20 (by omega) (by omega)
  have hcount : Superblock.sInodesCount (d.bytes.slice 1024 1024) = m.sb.sInodesCount :=
    hfld 0 (by omega) (by omega)
  have hipg : Superblock.sInodesPerGroup (d.bytes.slice 1024 1024) = m.sb.sInodesPerGroup :=
    hfld 40 (by omega) (by omega)
  have hisz : (if Superblock.sInodeSize (d.bytes.slice 1024 1024) = 0 then 128
      else Superblock.sInodeSize (d.bytes.slice 1024 1024)) = m.sb.sInodeSize := by
    rw [h.sb, loadedSb_inodeSize]
    have : Superblock.sInodeSize (d.bytes.slice 1024 1024) = d.bytes.rd16 1112 :=
      Mem.rd16_slice (by omega)
    rw [this]
  have hoff : (m.sb.sFirstDataBlock + 1) % uint32 = m.gdtBlk := by
    rw [hs.first, h.gdtBlk, h.blockSize]
    have hl := hs.log
    generalize m.sb.sLogBlockSize = l at hl
    interval_cases l <;> rfl
  have hgroups : (m.sb.sInodesCount + m.sb.sInodesPerGroup - 1) % uint32
      = m.sb.sInodesCount + m.sb.sInodesPerGroup - 1 := by
    refine Nat.mod_eq_of_lt ?_
    have := hs.inodes
    omega
  have hlayout : layoutOf (d.bytes.slice 1024 1024) = m.layout := by
    unfold layoutOf Ext2Meta.layout
    rw [hlog, hfirst, hcount, hipg, hisz, hoff, hgroups, ← h.blockSize]
  have hgc : 0 < m.layout.groupCount := by
    refine Nat.div_pos ?_ (Nat.pos_of_ne_zero h.ipg)
    omega
  unfold ext2ReadLayout
  rw [preadBytesAt_of_le hlim]
  show (if _ then none else some (layoutOf (d.bytes.slice 1024 1024))) = _
  rw [hlayout, if_neg]
  have hge := hs.inodeSize_ge
  have hle := hs.inodeSize_le
  have hipg0 := h.ipg
  have hl := hs.log
  rw [hmagic, hlog]
  unfold Ext2Meta.layout at hgc ⊢
  simp only [] at hgc ⊢
  omega

theorem Standard.inodeSize_dvd {d : Vblk} {m : Ext2Meta} (hs : Standard m) (h : Loaded d m) :
    m.blockSize / m.sb.sInodeSize * m.sb.sInodeSize = m.blockSize := by
  obtain ⟨k, hk⟩ := hs.inodeSize
  refine Nat.div_mul_cancel ?_
  have hle := hs.inodeSize_le
  have hbs : m.blockSize = 2 ^ (10 + m.sb.sLogBlockSize) := by
    rw [h.blockSize, pow_add]
    rfl
  have hisz : m.sb.sInodeSize = 2 ^ (7 + k) := by
    rw [hk, pow_add]
    rfl
  rw [hbs, hisz] at hle ⊢
  exact Nat.pow_dvd_pow 2 ((Nat.pow_le_pow_iff_right (by omega)).mp hle)

/-- Both readers find the inode at the same place. -/
theorem inodeDisk_of_loaded {d : Vblk} {m : Ext2Meta} {ino : Nat} {file : Inode} (h : Loaded d m)
    (hs : Standard m) (hfile : ext2ReadInodeAt d m ino = .ok file) :
    ∃ (off : Nat) (raw : Mem), ext2InodeDiskOffset d m.layout ino = some off ∧
      preadBytesAt d off m.sb.sInodeSize = .ok raw ∧ (∀ o, o + 2 ≤ 128 → raw.rd16 o = file.rd16 o) ∧
      ∀ o, o + 4 ≤ 128 → raw.rd32 o = file.rd32 o := by
  obtain ⟨⟨blk, off⟩, hplace, hfile⟩ := except_bind_ok_iff.mp hfile
  obtain ⟨buf, hbuf, hfile⟩ := except_bind_ok_iff.mp hfile
  obtain ⟨hlim, hbuf⟩ := preadBytesAt_ok_iff.mp (orCode_ok_iff.mp hbuf)
  cases hfile
  obtain ⟨_, hino, hplace⟩ := except_bind_ok_iff.mp hplace
  obtain ⟨_, hgroup, hplace⟩ := except_bind_ok_iff.mp hplace
  obtain ⟨_, hipb, hplace⟩ := except_bind_ok_iff.mp hplace
  have hino := check_ok_iff.mp hino
  have hgroup := check_ok_iff.mp hgroup
  have hipb := check_ok_iff.mp hipb
  cases hplace
  have hipg := Nat.pos_of_ne_zero h.ipg
  set g := (ino - 1) / m.sb.sInodesPerGroup with hg
  set l := (ino - 1) % m.sb.sInodesPerGroup with hl
  set ipb := m.blockSize / m.sb.sInodeSize with hipbdef
  have hll : l < m.sb.sInodesPerGroup := Nat.mod_lt _ hipg
  have hge := hs.inodeSize_ge
  have hbs : ipb * m.sb.sInodeSize = m.blockSize := hs.inodeSize_dvd h
  obtain ⟨htab, htab'⟩ := hs.tables g (by omega)
  have hrel : l / ipb ≤ l := Nat.div_le_self _ _
  have hmod : ((m.gd g).bgInodeTable + l / ipb) % uint32 = (m.gd g).bgInodeTable + l / ipb :=
    Nat.mod_eq_of_lt (by omega)
  rw [hmod] at hlim hbuf
  -- the offset inside the block is the rest of the offset inside the table
  have hplace : ((m.gd g).bgInodeTable + l / ipb) * m.blockSize + l % ipb * m.sb.sInodeSize
      = (m.gd g).bgInodeTable * m.blockSize + l * m.sb.sInodeSize := by
    have hdm := Nat.div_add_mod l ipb
    calc ((m.gd g).bgInodeTable + l / ipb) * m.blockSize + l % ipb * m.sb.sInodeSize
        = (m.gd g).bgInodeTable * m.blockSize
          + (ipb * (l / ipb) + l % ipb) * m.sb.sInodeSize := by
          rw [← hbs]
          ring
      _ = _ := by rw [hdm]
  have hroom : l % ipb * m.sb.sInodeSize + m.sb.sInodeSize ≤ m.blockSize := by
    have hlt : l % ipb + 1 ≤ ipb := Nat.mod_lt _ (Nat.pos_of_ne_zero hipb)
    have := Nat.mul_le_mul_right m.sb.sInodeSize hlt
    rw [Nat.add_mul, Nat.one_mul, hbs] at this
    exact this
  obtain ⟨hgd, hgdlim⟩ := h.gd g (by omega)
  have hgc : g < m.layout.groupCount := by
    show g < (m.sb.sInodesCount + m.sb.sInodesPerGroup - 1) / m.sb.sInodesPerGroup
    rw [Nat.lt_div_iff_mul_lt hipg]
    have := Nat.div_mul_le_self (ino - 1) m.sb.sInodesPerGroup
    rw [← hg] at this
    omega
  have hoff : ext2InodeDiskOffset d m.layout ino
      = some ((m.gd g).bgInodeTable * m.blockSize + l * m.sb.sInodeSize) := by
    unfold ext2InodeDiskOffset
    show (if ino = 0 ∨ m.sb.sInodesCount < ino ∨ m.layout.groupCount ≤ g then none else _) = _
    rw [if_neg (by omega)]
    have hread : preadBytesAt d (m.gdtBlk * m.blockSize + g * 32) 32 = .ok (m.gd g) :=
      preadBytesAt_ok_iff.mpr ⟨hgdlim, hgd⟩
    show (preadBytesAt d (m.gdtBlk * m.blockSize + g * 32) 32).toOption.bind _ = _
    rw [hread]
    show (if (m.gd g).bgInodeTable = 0 then none else _) = _
    rw [if_neg (by omega)]
    rfl
  have hread : preadBytesAt d ((m.gd g).bgInodeTable * m.blockSize + l * m.sb.sInodeSize)
      m.sb.sInodeSize = .ok (d.bytes.slice
        ((m.gd g).bgInodeTable * m.blockSize + l * m.sb.sInodeSize) m.sb.sInodeSize) := by
    refine preadBytesAt_of_le ?_
    omega
  have hfile : buf.slice (l % ipb * m.sb.sInodeSize) Inode.size
      = d.bytes.slice ((m.gd g).bgInodeTable * m.blockSize + l * m.sb.sInodeSize) 128 := by
    rw [hbuf, Mem.slice_slice (by unfold Inode.size; omega), hplace]
    rfl
  rw [hfile]
  refine ⟨_, _, hoff, hread, ?_, ?_⟩
  · intro o ho
    rw [Mem.rd16_slice (by omega), Mem.rd16_slice (by omega)]
  · intro o ho
    rw [Mem.rd32_slice (by omega), Mem.rd32_slice (by omega)]

/-- An inode of at most 256 bytes is read by both, unless its mode is zero. -/
theorem ext2ReadInodeDisk_of_loaded {d : Vblk} {m : Ext2Meta} {ino : Nat} {file : Inode}
    (h : Loaded d m) (hs : Standard m) (hfile : ext2ReadInodeAt d m ino = .ok file)
    (hmode : file.iMode ≠ 0) (hisz : m.sb.sInodeSize ≤ 256) :
    ∃ di : Inode, ext2ReadInodeDisk d m.layout ino = some di ∧ di.iMode = file.iMode ∧
      di.iSize = file.iSize ∧ ∀ k, k < 15 → di.iBlock k = file.iBlock k := by
  obtain ⟨off, raw, hoff, hread, h16, h32⟩ := inodeDisk_of_loaded h hs hfile
  have hraw : Inode.iMode raw = file.iMode := h16 0 (by omega)
  refine ⟨raw, ?_, hraw, h32 4 (by omega), fun k hk => h32 (40 + 4 * k) (by omega)⟩
  unfold ext2ReadInodeDisk
  show (if 256 < m.sb.sInodeSize then none else _) = _
  rw [if_neg (by omega), hoff]
  show (preadBytesAt d _ m.sb.sInodeSize).toOption.bind _ = _
  rw [hread]
  show (if Inode.iMode _ = 0 then none else _) = _
  rw [if_neg (by rw [hraw]; exact hmode)]

theorem ext2ReadInodeDisk_mode_zero {d : Vblk} {m : Ext2Meta} {ino : Nat} {file : Inode}
    (h : Loaded d m) (hs : Standard m) (hfile : ext2ReadInodeAt d m ino = .ok file)
    (hmode : file.iMode = 0) : ext2ReadInodeDisk d m.layout ino = none := by
  obtain ⟨off, raw, hoff, hread, h16, -⟩ := inodeDisk_of_loaded h hs hfile
  have hraw : Inode.iMode raw = 0 := (h16 0 (by omega)).trans hmode
  unfold ext2ReadInodeDisk
  show (if 256 < m.sb.sInodeSize then none else _) = _
  split
  · rfl
  · rw [hoff]
    show (preadBytesAt d _ m.sb.sInodeSize).toOption.bind _ = _
    rw [hread]
    exact if_pos hraw

/-! ## The first twelve blocks -/

/-- The bytes of a file as its direct pointers give them. -/
def directByte (d : Vblk) (bs : Nat) (file : Inode) : Mem := fun k =>
  if file.iBlock (k / bs) = 0 then 0 else d.bytes (file.iBlock (k / bs) * bs + k % bs)

/-- Byte `k` of a file is a hole or on the device. -/
def DirectOn (d : Vblk) (bs : Nat) (file : Inode) (k : Nat) : Prop :=
  file.iBlock (k / bs) ≠ 0 → file.iBlock (k / bs) * bs + k % bs < d.limit

/-- A position `i` bytes further in the same block. -/
theorem div_mod_add {bs off i : Nat} (hi : off % bs + i < bs) :
    (off + i) / bs = off / bs ∧ (off + i) % bs = off % bs + i := by
  have hdm := Nat.div_add_mod off bs
  have hoff : off + i = off % bs + i + bs * (off / bs) := by omega
  refine ⟨?_, ?_⟩
  · rw [hoff, Nat.add_mul_div_left _ _ (by omega), Nat.div_eq_of_lt hi, Nat.zero_add]
  · rw [hoff, Nat.add_mul_mod_self_left, Nat.mod_eq_of_lt hi]

/-- `ext2_read_file_at` reads the whole file, and the direct blocks as they are. -/
theorem readLoop_direct {d : Vblk} {m : Ext2Meta} {file : Inode} {single droot : Mem}
    {len : Nat} (hbs : 0 < m.blockSize) {fuel : Nat} :
    ∀ {done : Nat} {l : List UInt8}, readLoop d m file single droot len fuel done = .ok l →
      len ≤ done + fuel → (done % m.blockSize = 0 ∨ len ≤ done) →
      l.length = len - done ∧ ∀ i, done + i < len → done + i < 12 * m.blockSize →
        l[i]? = some (directByte d m.blockSize file (done + i)) ∧
          DirectOn d m.blockSize file (done + i) := by
  induction fuel with
  | zero =>
      intro done l h hfuel _
      cases h
      exact ⟨by simp; omega, fun i hi _ => by omega⟩
  | succ fuel ih =>
      intro done l h hfuel hmod
      rw [readLoop] at h
      by_cases hlt : done < len
      swap
      · rw [if_neg hlt] at h
        cases h
        exact ⟨by simp; omega, fun i hi _ => by omega⟩
      rw [if_pos hlt] at h
      obtain ⟨b, hb, h⟩ := except_bind_ok_iff.mp h
      obtain ⟨buf, hbuf, h⟩ := except_bind_ok_iff.mp h
      obtain ⟨rest, hrest, h⟩ := except_bind_ok_iff.mp h
      cases h
      have hmod0 : done % m.blockSize = 0 := by omega
      set chunk := min m.blockSize (len - done) with hchunk
      have hnext : (done + chunk) % m.blockSize = 0 ∨ len ≤ done + chunk := by
        rcases Nat.le_total m.blockSize (len - done) with hle | hle
        · left
          rw [hchunk, min_eq_left hle, Nat.add_mod_right, hmod0]
        · right
          omega
      obtain ⟨hlen, hbytes⟩ := ih hrest (by omega) hnext
      refine ⟨by rw [List.length_append, Mem.length_toList, hlen]; omega, ?_⟩
      intro i hi h12
      rcases Nat.lt_or_ge i chunk with hic | hic
      · -- inside this block, which the direct pointers reach
        obtain ⟨hq, hr⟩ := @div_mod_add m.blockSize done i (by omega)
        have hl12 : done / m.blockSize < 12 := by
          rw [← hq]
          exact (Nat.div_lt_iff_lt_mul hbs).mpr h12
        have hbeq : b = file.iBlock (done / m.blockSize) := by
          unfold readLbn at hb
          rw [if_pos hl12] at hb
          cases hb
          rfl
        rw [List.getElem?_append_left (by simpa using hic)]
        rw [List.getElem?_eq_getElem (by simpa using hic), Mem.getElem_toList]
        unfold directByte DirectOn
        rw [hq, hr, ← hbeq, hmod0, Nat.zero_add]
        unfold readChunk at hbuf
        by_cases hb0 : b = 0
        · rw [if_pos hb0] at hbuf ⊢
          cases hbuf
          exact ⟨rfl, fun h => absurd hb0 h⟩
        · rw [if_neg hb0] at hbuf ⊢
          obtain ⟨hlim, hbuf⟩ := preadBytesAt_ok_iff.mp (orCode_ok_iff.mp hbuf)
          rw [hbuf, Mem.slice_in hic]
          exact ⟨rfl, fun _ => by omega⟩
      · obtain ⟨j, rfl⟩ : ∃ j, i = chunk + j := ⟨i - chunk, by omega⟩
        rw [List.getElem?_append_right (by simp), Mem.length_toList, Nat.add_sub_cancel_left,
          ← Nat.add_assoc]
        exact hbytes j (by omega) (by omega)

/-- One call of `f_read` reads up to the end of the request or of the twelfth block. -/
theorem fReadLoop_eq {d : Vblk} {bs : Nat} {di file : Inode} {pos n : Nat} (hbs : 0 < bs)
    (hblock : ∀ k, k < 15 → di.iBlock k = file.iBlock k)
    (hon : ∀ k, k < pos + n → k < 12 * bs → DirectOn d bs file k) {fuel : Nat} :
    ∀ {done : Nat}, n ≤ done + fuel → done ≤ n →
      fReadLoop d bs di pos n fuel done
        = ((directByte d bs file).toList (pos + done) (min (pos + n) (12 * bs) - (pos + done)),
          true) := by
  induction fuel with
  | zero =>
      intro done h₁ h₂
      rw [fReadLoop, show min (pos + n) (12 * bs) - (pos + done) = 0 by omega]
      rfl
  | succ fuel ih =>
      intro done h₁ h₂
      rw [fReadLoop]
      by_cases hlt : done < n
      swap
      · rw [if_neg hlt, show min (pos + n) (12 * bs) - (pos + done) = 0 by omega]
        rfl
      rw [if_pos hlt]
      simp only []
      by_cases h12 : 12 ≤ (pos + done) / bs
      · rw [if_pos h12]
        have hge : 12 * bs ≤ pos + done := (Nat.le_div_iff_mul_le hbs).mp h12
        rw [show min (pos + n) (12 * bs) - (pos + done) = 0 by omega]
        rfl
      rw [if_neg h12]
      have hmod := Nat.mod_lt (pos + done) hbs
      have hend : pos + done + (bs - (pos + done) % bs) ≤ 12 * bs := by
        have hdm := Nat.div_add_mod (pos + done) bs
        have hle : bs * ((pos + done) / bs) ≤ bs * 11 := Nat.mul_le_mul_left _ (by omega)
        omega
      set chunk := min (bs - (pos + done) % bs) (n - done) with hchunk
      have hpos : 0 < chunk := by omega
      have hin : ∀ i, i < chunk → (pos + done + i) / bs = (pos + done) / bs ∧
          (pos + done + i) % bs = (pos + done) % bs + i :=
        fun i hi => div_mod_add (by omega)
      rw [hblock _ (by omega)]
      have hbuf : ∃ buf, (if file.iBlock ((pos + done) / bs) = 0 then some Mem.zero
          else (preadBytesAt d (file.iBlock ((pos + done) / bs) * bs + (pos + done) % bs)
            chunk).toOption) = some buf ∧
          buf.toList 0 chunk = (directByte d bs file).toList (pos + done) chunk := by
        by_cases hb0 : file.iBlock ((pos + done) / bs) = 0
        · refine ⟨Mem.zero, if_pos hb0, Mem.toList_congr (fun i hi => ?_)⟩
          unfold directByte
          rw [(hin i hi).1, if_pos hb0]
          rfl
        · have hlast := hon (pos + done + (chunk - 1)) (by omega) (by omega)
          unfold DirectOn at hlast
          rw [(hin _ (by omega)).1, (hin _ (by omega)).2] at hlast
          have := hlast hb0
          rw [if_neg hb0, preadBytesAt_of_le (by omega)]
          refine ⟨_, rfl, Mem.toList_congr (fun i hi => ?_)⟩
          unfold directByte
          rw [(hin i hi).1, (hin i hi).2, if_neg hb0, Nat.zero_add, Mem.slice_in hi, Nat.add_assoc]
      obtain ⟨buf, hbuf, hlist⟩ := hbuf
      rw [hbuf]
      simp only []
      rw [ih (by omega) (by omega), hlist, ← Nat.add_assoc, ← Mem.toList_append]
      congr 2
      omega

section Calls

variable {d : Vblk} {m : Ext2Meta} {ino : Nat} {file di : Inode}

/-- One call, before the end of the file. -/
theorem fRead_eq (hlay : ext2ReadLayout d = some m.layout)
    (hdi : ext2ReadInodeDisk d m.layout ino = some di) (hsize : di.iSize = file.iSize)
    (hblock : ∀ k, k < 15 → di.iBlock k = file.iBlock k) (hbs : 0 < m.blockSize)
    (hon : ∀ k, k < file.iSize → k < 12 * m.blockSize → DirectOn d m.blockSize file k)
    {n pos : Nat} (hn : 0 < n) (hpos : pos < file.iSize) :
    fRead d ino n pos = some ((directByte d m.blockSize file).toList pos
        (min (pos + min n (file.iSize - pos)) (12 * m.blockSize) - pos),
      pos + (min (pos + min n (file.iSize - pos)) (12 * m.blockSize) - pos)) := by
  have hloop := @fReadLoop_eq d m.blockSize di file pos
    (min n (file.iSize - pos)) hbs hblock (fun k hk h12 => hon k (by omega) h12)
    (min n (file.iSize - pos)) 0 (by omega) (by omega)
  rw [Nat.add_zero] at hloop
  unfold fRead
  rw [hlay]
  show (ext2ReadInodeDisk d m.layout ino).bind _ = _
  rw [hdi]
  show (if di.iSize ≤ pos ∨ n = 0 then some ([], pos) else _) = _
  rw [if_neg (by omega)]
  rw [show fReadLoop d m.layout.blockSize di pos = fReadLoop d m.blockSize di pos from rfl, hsize, hloop]
  simp only [Mem.length_toList]

/-- At the end of the file. -/
theorem fRead_end (hlay : ext2ReadLayout d = some m.layout)
    (hdi : ext2ReadInodeDisk d m.layout ino = some di) {n pos : Nat} (hpos : di.iSize ≤ pos) :
    fRead d ino n pos = some ([], pos) := by
  unfold fRead
  rw [hlay]
  show (ext2ReadInodeDisk d m.layout ino).bind _ = _
  rw [hdi]
  show (if di.iSize ≤ pos ∨ n = 0 then some ([], pos) else _) = _
  rw [if_pos (Or.inl hpos)]

/-- All calls together read the first twelve blocks, whatever the buffer sizes. -/
theorem fReadAll_eq (hlay : ext2ReadLayout d = some m.layout)
    (hdi : ext2ReadInodeDisk d m.layout ino = some di) (hsize : di.iSize = file.iSize)
    (hblock : ∀ k, k < 15 → di.iBlock k = file.iBlock k) (hbs : 0 < m.blockSize)
    (hon : ∀ k, k < file.iSize → k < 12 * m.blockSize → DirectOn d m.blockSize file k)
    {fuel : Nat} : ∀ {sizes : Nat → Nat} {pos : Nat}, (∀ i, 0 < sizes i) →
      pos ≤ min file.iSize (12 * m.blockSize) →
      (fReadAll d ino fuel sizes pos = none ∨ fReadAll d ino fuel sizes pos
        = some ((directByte d m.blockSize file).toList pos
          (min file.iSize (12 * m.blockSize) - pos))) ∧
      (min file.iSize (12 * m.blockSize) - pos < fuel → fReadAll d ino fuel sizes pos ≠ none) := by
  induction fuel with
  | zero =>
      intro sizes pos _ _
      exact ⟨Or.inl rfl, fun h => by omega⟩
  | succ fuel ih =>
      intro sizes pos hsizes hle
      rw [fReadAll]
      rcases Nat.lt_or_ge pos file.iSize with hpos | hpos
      · rw [fRead_eq hlay hdi hsize hblock hbs hon (hsizes 0) hpos]
        have h0 := hsizes 0
        simp only []
        set stop := min (pos + min (sizes 0) (file.iSize - pos)) (12 * m.blockSize) with hstop
        rcases Nat.lt_or_ge pos (12 * m.blockSize) with h12 | h12
        · -- some bytes, and then the rest
          have hpre : pos + 1 ≤ stop := by omega
          rw [if_neg (fun h => by
            have := congrArg List.length h
            rw [Mem.length_toList, List.length_nil] at this
            omega)]
          obtain ⟨hres, hne⟩ := @ih (fun i => sizes (i + 1)) (pos + (stop - pos))
            (fun i => hsizes (i + 1)) (by omega)
          refine ⟨?_, fun hfuel h => hne (by omega) (Option.map_eq_none_iff.mp h)⟩
          rcases hres with hres | hres
          · left
            rw [hres]
            rfl
          · right
            rw [hres, Option.map_some, ← Mem.toList_append]
            congr 2
            omega
        · have h0 : stop - pos = 0 := by omega
          have h1 : min file.iSize (12 * m.blockSize) - pos = 0 := by omega
          rw [h0, h1, Mem.toList_zero, if_pos rfl]
          exact ⟨Or.inr rfl, fun _ h => by cases h⟩
      · rw [fRead_end hlay hdi (by omega)]
        simp only []
        have h1 : min file.iSize (12 * m.blockSize) - pos = 0 := by omega
        rw [h1, Mem.toList_zero, if_pos trivial]
        exact ⟨Or.inr rfl, fun _ h => by cases h⟩

end Calls

/-- What a successful `ext2_read_file_at` says about the data and the direct blocks. -/
theorem ext2ReadFileAt_direct {d : Vblk} {m : Ext2Meta} {path : Text} {ino : Nat} {file : Inode}
    {data : List UInt8} (hm : ext2LoadMeta d = .ok m) (hbs : 0 < m.blockSize)
    (hino : ext2ResolvePathAt d m path = .ok ino) (hfile : ext2ReadInodeAt d m ino = .ok file)
    (h : ext2ReadFileAt d path = .ok data) :
    data.length = file.iSize ∧ ∀ i, i < file.iSize → i < 12 * m.blockSize →
      data[i]? = some (directByte d m.blockSize file i) ∧ DirectOn d m.blockSize file i := by
  unfold ext2ReadFileAt at h
  rw [except_bind_of_ok (orCode_of_ok hm), except_bind_of_ok (orCode_of_ok hino)] at h
  obtain ⟨_, _, h⟩ := except_bind_ok_iff.mp h
  rw [except_bind_of_ok (orCode_of_ok hfile)] at h
  obtain ⟨_, _, h⟩ := except_bind_ok_iff.mp h
  obtain ⟨_, _, h⟩ := except_bind_ok_iff.mp h
  by_cases h0 : file.iSize = 0
  · rw [if_pos h0] at h
    cases h
    exact ⟨h0.symm, fun i hi => by omega⟩
  · rw [if_neg h0] at h
    obtain ⟨single, _, h⟩ := except_bind_ok_iff.mp h
    obtain ⟨droot, _, h⟩ := except_bind_ok_iff.mp h
    obtain ⟨hlen, hbytes⟩ := readLoop_direct hbs h (by omega) (Or.inl (Nat.zero_mod _))
    refine ⟨hlen, fun i hi h12 => ?_⟩
    have := hbytes i (by omega) (by omega)
    rwa [Nat.zero_add] at this

section Reads

variable {d : Vblk} {m : Ext2Meta} {path : Text} {ino : Nat} {file : Inode} {data : List UInt8}

/-- The handle reads the first twelve blocks of the file, if the inode fits its buffer. -/
theorem fReadAll_of_read (hm : ext2LoadMeta d = .ok m) (hs : Standard m)
    (hino : ext2ResolvePathAt d m path = .ok ino) (hfile : ext2ReadInodeAt d m ino = .ok file)
    (hreg : ifmt file.iMode = sIfreg) (h : ext2ReadFileAt d path = .ok data)
    (h256 : m.sb.sInodeSize ≤ 256) (fuel : Nat) {sizes : Nat → Nat} (hsizes : ∀ i, 0 < sizes i) :
    (fReadAll d ino fuel sizes 0 = none ∨
      fReadAll d ino fuel sizes 0 = some (data.take (12 * m.blockSize))) ∧
    (data.length < fuel → fReadAll d ino fuel sizes 0 ≠ none) := by
  have hl := loaded_of_ok hm hs.log
  have hbs : 0 < m.blockSize := by
    have := hl.blockSize_ge
    omega
  obtain ⟨hlen, hbytes⟩ := ext2ReadFileAt_direct hm hbs hino hfile h
  have hcount : 0 < m.sb.sInodesCount := by
    obtain ⟨_, hplace, _⟩ := except_bind_ok_iff.mp hfile
    obtain ⟨_, hc, _⟩ := except_bind_ok_iff.mp hplace
    have := check_ok_iff.mp hc
    omega
  have hmode : file.iMode ≠ 0 := by
    intro h0
    rw [h0] at hreg
    cases hreg
  obtain ⟨di, hdi, -, hsize, hblock⟩ := ext2ReadInodeDisk_of_loaded hl hs hfile hmode h256
  have hdata : (directByte d m.blockSize file).toList 0 (min file.iSize (12 * m.blockSize))
      = data.take (12 * m.blockSize) := by
    refine List.ext_getElem ?_ (fun i h₁ h₂ => ?_)
    · rw [Mem.length_toList, List.length_take, hlen]
      omega
    · rw [Mem.length_toList] at h₁
      have hi := (hbytes i (by omega) (by omega)).1
      rw [List.getElem?_eq_getElem (by omega)] at hi
      rw [Mem.getElem_toList, Nat.zero_add, List.getElem_take]
      exact (Option.some.inj hi).symm
  obtain ⟨hres, hne⟩ := fReadAll_eq (ext2ReadLayout_of_loaded hl hs hcount) hdi hsize hblock hbs
    (fun k hk h12 => (hbytes k hk h12).2) hsizes (Nat.zero_le _)
  rw [Nat.sub_zero] at hres hne
  rw [hdata] at hres
  exact ⟨hres, fun hfuel => hne (by omega)⟩

/-- An inode that does not fit the buffer cannot be read at all. -/
theorem fReadAll_large_inode (hm : ext2LoadMeta d = .ok m) (hs : Standard m)
    (hfile : ext2ReadInodeAt d m ino = .ok file) (h256 : 256 < m.sb.sInodeSize) (fuel : Nat)
    (sizes : Nat → Nat) : fReadAll d ino fuel sizes 0 = none := by
  have hcount : 0 < m.sb.sInodesCount := by
    obtain ⟨_, hplace, _⟩ := except_bind_ok_iff.mp hfile
    obtain ⟨_, hc, _⟩ := except_bind_ok_iff.mp hplace
    have := check_ok_iff.mp hc
    omega
  have hnone : fRead d ino (sizes 0) 0 = none := by
    unfold fRead
    rw [ext2ReadLayout_of_loaded (loaded_of_ok hm hs.log) hs hcount]
    show (ext2ReadInodeDisk d m.layout ino).bind _ = none
    have : ext2ReadInodeDisk d m.layout ino = none := if_pos h256
    rw [this]
    rfl
  cases fuel with
  | zero => rfl
  | succ fuel => rw [fReadAll, hnone]

/-- The handle reads a regular file to its end, with any buffer sizes, exactly when the file
has at most twelve blocks and the inodes at most 256 bytes. -/
theorem handle_reads_file_iff (hm : ext2LoadMeta d = .ok m) (hs : Standard m)
    (hino : ext2ResolvePathAt d m path = .ok ino) (hfile : ext2ReadInodeAt d m ino = .ok file)
    (hreg : ifmt file.iMode = sIfreg) (h : ext2ReadFileAt d path = .ok data) :
    data.length = file.iSize ∧
      ((∀ sizes : Nat → Nat, (∀ i, 0 < sizes i) → ∃ fuel, fReadAll d ino fuel sizes 0 = some data) ↔
        file.iSize ≤ 12 * m.blockSize ∧ m.sb.sInodeSize ≤ 256) := by
  have hbs : 0 < m.blockSize := by
    have := (loaded_of_ok hm hs.log).blockSize_ge
    omega
  have hlen := (ext2ReadFileAt_direct hm hbs hino hfile h).1
  refine ⟨hlen, ?_⟩
  rcases Nat.lt_or_ge 256 m.sb.sInodeSize with h256 | h256
  · refine ⟨fun hall => ?_, fun h' => by omega⟩
    obtain ⟨fuel, hfuel⟩ := hall (fun _ => 1) (fun _ => Nat.one_pos)
    rw [fReadAll_large_inode hm hs hfile h256] at hfuel
    cases hfuel
  · refine ⟨fun hread => ⟨?_, h256⟩, fun ⟨h12, _⟩ sizes hsizes => ?_⟩
    · obtain ⟨fuel, hfuel⟩ := hread (fun _ => 1) (fun _ => Nat.one_pos)
      rcases (fReadAll_of_read hm hs hino hfile hreg h h256 fuel (fun _ => Nat.one_pos)).1 with
        hres | hres
      · rw [hres] at hfuel
        cases hfuel
      · rw [hres] at hfuel
        have := congrArg List.length (Option.some.inj hfuel)
        rw [List.length_take] at this
        omega
    · obtain ⟨hres, hne⟩ := fReadAll_of_read hm hs hino hfile hreg h h256 (data.length + 1) hsizes
      refine ⟨data.length + 1, ?_⟩
      rw [List.take_of_length_le (by omega)] at hres
      exact hres.resolve_left (hne (Nat.lt_succ_self _))

end Reads

/-! ## A short file and a long one -/

/-- A device of 128 MiB. -/
def blankDisk : Vblk := ⟨134217728, false, Mem.zero, fun _ => 0⟩

/-- A fresh filesystem with the file `f`. -/
def diskWith (data : List UInt8) : Vblk := left ((do
  mkfsExt2Core 134217728 []
  ext2CreateAndWrite [102] data : Prog Vblk Unit) blankDisk)

/-- The metadata is standard, and `f` is inode 11, a regular file of that many bytes. -/
def standardFile (d : Vblk) (size : Nat) (m : Ext2Meta) : Bool :=
  m.sb.sLogBlockSize = 2 ∧ m.sb.sInodeSize = 128 ∧ m.blockSize = 4096 ∧ m.sb.sFirstDataBlock = 0 ∧
    m.sb.sInodesCount = 1024 ∧ m.sb.sInodesPerGroup = 1024 ∧ m.groupCount = 1 ∧
    (m.gd 0).bgInodeTable = 4 ∧ (ext2ResolvePathAt d m [102]).toOption = some 11 ∧
    ((ext2ReadInodeAt d m 11).toOption.map (fun file => (ifmt file.iMode, file.iSize)))
      = some (sIfreg, size)

theorem standard_of_standardFile {d : Vblk} {size : Nat} {m : Ext2Meta}
    (h : standardFile d size m = true) :
    Standard m ∧ ext2ResolvePathAt d m [102] = .ok 11 ∧ m.blockSize = 4096 ∧
      m.sb.sInodeSize ≤ 256 ∧ ∃ file : Inode, ext2ReadInodeAt d m 11 = .ok file ∧
        ifmt file.iMode = sIfreg ∧ file.iSize = size := by
  unfold standardFile at h
  simp only [decide_eq_true_eq] at h
  obtain ⟨hlog, hisz, hbs, hfirst, hcount, hipg, hgc, htab, hino, hfile⟩ := h
  refine ⟨⟨by omega, ⟨0, hisz⟩, by omega, ?_, ?_, ?_⟩, ?_, hbs, by omega, ?_⟩
  · rw [hfirst, hlog]
    rfl
  · rw [hcount, hipg]
    decide
  · intro g hg
    obtain rfl : g = 0 := by omega
    rw [htab, hipg]
    decide
  · cases hr : ext2ResolvePathAt d m [102] with
    | ok ino =>
        rw [hr] at hino
        cases hino
        rfl
    | error e =>
        rw [hr] at hino
        cases hino
  · cases hr : ext2ReadInodeAt d m 11 with
    | ok file =>
        rw [hr] at hfile
        have := Option.some.inj hfile
        exact ⟨file, rfl, congrArg Prod.fst this, congrArg Prod.snd this⟩
    | error e =>
        rw [hr] at hfile
        cases hfile

/-- A file of three bytes, read byte by byte. -/
theorem handle_reads_file_small : ∃ fuel, fReadAll (diskWith [1, 2, 3]) 11 fuel (fun _ => 1) 0 = some [1, 2, 3] := by
  obtain ⟨m, hm, hcheck⟩ := exists_ok_of_eval (x := ext2LoadMeta (diskWith [1, 2, 3]))
    (p := standardFile (diskWith [1, 2, 3]) 3) (by decide +kernel)
  obtain ⟨data, hdata, hbytes⟩ := exists_ok_of_eval (x := ext2ReadFileAt (diskWith [1, 2, 3]) [102])
    (p := fun data => data = [1, 2, 3]) (by decide +kernel)
  obtain rfl := of_decide_eq_true hbytes
  obtain ⟨hs, hino, hbs, hisz, file, hfile, hreg, hsize⟩ := standard_of_standardFile hcheck
  refine (handle_reads_file_iff hm hs hino hfile hreg hdata).2.mpr ⟨?_, hisz⟩ (fun _ => 1) (fun _ => Nat.one_pos)
  rw [hsize, hbs]
  omega

/-- A file of twelve blocks and one byte, as `ext2_create_and_write` makes it: the handle
misses its last byte. -/
theorem long_file_truncated :
    ¬ ∀ (d : Vblk) (m : Ext2Meta) (path : Text) (ino : Nat) (file : Inode) (data : List UInt8),
        ext2LoadMeta d = .ok m → Standard m → ext2ResolvePathAt d m path = .ok ino →
        ext2ReadInodeAt d m ino = .ok file → ifmt file.iMode = sIfreg →
        ext2ReadFileAt d path = .ok data →
        ∀ sizes : Nat → Nat, (∀ i, 0 < sizes i) → ∃ fuel, fReadAll d ino fuel sizes 0 = some data := by
  intro hall
  obtain ⟨m, hm, hcheck⟩ := exists_ok_of_eval
    (x := ext2LoadMeta (diskWith (List.replicate 49153 7)))
    (p := standardFile (diskWith (List.replicate 49153 7)) 49153) (by decide +kernel)
  obtain ⟨data, hdata, _⟩ := exists_ok_of_eval
    (x := ext2ReadFileAt (diskWith (List.replicate 49153 7)) [102]) (p := fun _ => true)
    (by decide +kernel)
  obtain ⟨hs, hino, hbs, hisz, file, hfile, hreg, hsize⟩ := standard_of_standardFile hcheck
  obtain ⟨fuel, hfuel⟩ := hall _ m [102] 11 file data hm hs hino hfile hreg hdata (fun _ => 1)
    (fun _ => Nat.one_pos)
  have hlen := (ext2ReadFileAt_direct hm (by omega) hino hfile hdata).1
  rcases (fReadAll_of_read hm hs hino hfile hreg hdata hisz fuel (fun _ => Nat.one_pos)).1 with
    hres | hres
  · rw [hres] at hfuel
    cases hfuel
  · rw [hres] at hfuel
    have := congrArg List.length (Option.some.inj hfuel)
    rw [List.length_take] at this
    omega

end Guppy.Ext2
