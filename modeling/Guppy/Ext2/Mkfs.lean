import Guppy.Ext2.Ops

set_option autoImplicit false

/-! # `mkfs_ext2_core`

Every group holds a copy of the superblock and the group descriptors, its two bitmaps and
its inode table, and then data blocks. The root directory is inode 2; its block is the first
data block of group 0.
-/

namespace Guppy.Ext2

open Prog Vfs

def blocksPerGroup : Nat := 32768
def inodesPerGroup : Nat := 1024
def inodeTblBlocks : Nat := 32
def reservedInodes : Nat := 10

/-- `set_bit` for the `count` bits from `lo` on. -/
def setBits (p : Mem) : (lo count : Nat) → Mem
  | _, 0 => p
  | lo, count + 1 => setBits (p.setBit lo) (lo + 1) count

/-- The superblock without its free counts. -/
def mkfsSuperblock (totalBlocks groups now : Nat) (label : Text) : Superblock :=
  let sb := Mem.zero.wr32 0 (groups * inodesPerGroup)
  let sb := sb.wr32 4 totalBlocks
  let sb := sb.wr32 24 2
  let sb := sb.wr32 28 2
  let sb := sb.wr32 32 blocksPerGroup
  let sb := sb.wr32 36 blocksPerGroup
  let sb := sb.wr32 40 inodesPerGroup
  let sb := sb.wr32 44 now
  let sb := sb.wr32 48 now
  let sb := sb.wr16 54 20
  let sb := sb.wr16 56 0xEF53
  let sb := sb.wr16 58 1
  let sb := sb.wr16 60 1
  let sb := sb.wr32 64 now
  let sb := sb.wr32 76 1
  let sb := sb.wr32 84 11
  let sb := sb.wr16 88 Inode.size
  sb.write 120 (min 15 label.length) (Mem.ofList label)

/-- First data block of a group, relative to the group. -/
def dataRel (gdtBlocks : Nat) : Nat := 1 + gdtBlocks + 1 + 1 + inodeTblBlocks

def groupBlocks (totalBlocks g : Nat) : Nat := min blocksPerGroup (totalBlocks - g * blocksPerGroup)

/-- The block bitmap of a group: metadata, the blocks past the end of the device, and the
block of the root directory. -/
def mkfsBlockBitmap (totalBlocks gdtBlocks g : Nat) : Mem :=
  let n := groupBlocks totalBlocks g
  let bb := setBits (setBits Mem.zero 0 (dataRel gdtBlocks)) n (blocksPerGroup - n)
  if g = 0 then bb.setBit (dataRel gdtBlocks) else bb

def mkfsInodeBitmap (g : Nat) : Mem := if g = 0 then setBits Mem.zero 0 reservedInodes else Mem.zero

def mkfsFreeBlocks (totalBlocks gdtBlocks g : Nat) : Nat :=
  groupBlocks totalBlocks g - dataRel gdtBlocks - (if g = 0 then 1 else 0)

def mkfsFreeInodes (g : Nat) : Nat := inodesPerGroup - (if g = 0 then reservedInodes else 0)

def mkfsGroupDesc (totalBlocks gdtBlocks g : Nat) : GroupDesc :=
  let start := g * blocksPerGroup
  let gd := Mem.zero.wr32 0 (start + 1 + gdtBlocks)
  let gd := gd.wr32 4 (start + 1 + gdtBlocks + 1)
  let gd := gd.wr32 8 (start + 1 + gdtBlocks + 1 + 1)
  let gd := gd.wr16 12 (mkfsFreeBlocks totalBlocks gdtBlocks g)
  let gd := gd.wr16 14 (mkfsFreeInodes g)
  gd.wr16 16 (if g = 0 then 1 else 0)

/-- The descriptors, and the free blocks and inodes, of the groups so far. -/
structure MkfsTotals where
  gdt : Nat → GroupDesc
  freeBlocks : Nat
  freeInodes : Nat

/-- One group: clear its metadata, then write its bitmaps. -/
def mkfsGroup (totalBlocks gdtBlocks g : Nat) (t : MkfsTotals) : Prog Vblk MkfsTotals := do
  failIf (groupBlocks totalBlocks g ≤ dataRel gdtBlocks) (-1)
  let gd := mkfsGroupDesc totalBlocks gdtBlocks g
  forLoop (fun r _ => orFail (pwriteBlock 4096 (g * blocksPerGroup + r) Mem.zero 4096) (-1)) 0
    (dataRel gdtBlocks + (if g = 0 then 1 else 0)) ()
  orFail (pwriteBlock 4096 gd.bgBlockBitmap (mkfsBlockBitmap totalBlocks gdtBlocks g) 4096) (-1)
  orFail (pwriteBlock 4096 gd.bgInodeBitmap (mkfsInodeBitmap g) 4096) (-1)
  pure
    { gdt := Function.update t.gdt g gd
      freeBlocks := t.freeBlocks + mkfsFreeBlocks totalBlocks gdtBlocks g
      freeInodes := t.freeInodes + mkfsFreeInodes g }

/-- The copies of the superblock and the descriptors in group `g`. -/
def mkfsCopies (groups gdtBlocks : Nat) (sb : Superblock) (gdt : Nat → GroupDesc) (g : Nat) :
    Prog Vblk Unit := do
  skipIf (g = 0)
    (orFail (pwriteBlock 4096 (g * blocksPerGroup) (sb.wr16 90 g) Superblock.size) (-1))
  forLoop (fun k _ => orFail (pwriteBlock 4096 (g * blocksPerGroup + 1 + k)
    (gdtBuf gdt (k * 128, min 128 (groups - k * 128))) 4096) (-1)) 0 gdtBlocks ()

def mkfsRootInode (now rootDataBlock : Nat) : Inode :=
  (((((Inode.setMode Mem.zero 0o040755).setLinksCount 2).setSize 4096).stamp now).setBlocks
    8).setBlock 0 rootDataBlock

/-- `mkfs_ext2_core`. -/
def mkfsExt2Core (bytes : Nat) (label : Text) : Prog Vblk Unit := do
  failIf (bytes < 65536) (-1)
  failIf (uint32 ≤ bytes / 4096) (-1)
  let totalBlocks := bytes / 4096
  let groups := (totalBlocks + blocksPerGroup - 1) % uint32 / blocksPerGroup
  let gdtBlocks := (groups + 127) / 128
  failIf (groups = 0 ∨ 65535 < groups) (-1)
  let now ← timeNull
  let t ← forLoop (mkfsGroup totalBlocks gdtBlocks) 0 groups ⟨fun _ => Mem.zero, 0, 0⟩
  let sb := ((mkfsSuperblock totalBlocks groups now label).setFreeBlocksCount
    t.freeBlocks).setFreeInodesCount t.freeInodes
  orFail (pwriteBytesAt 1024 sb Superblock.size) (-1)
  forLoop (fun g _ => mkfsCopies groups gdtBlocks sb t.gdt g) 0 groups ()
  let rootDataBlock := (t.gdt 0).bgInodeTable + inodeTblBlocks
  let now ← timeNull
  orFail (pwriteBlock 4096 (t.gdt 0).bgInodeTable
    (Mem.zero.write Inode.size Inode.size (mkfsRootInode now rootDataBlock)) 4096) (-1)
  orFail (pwriteBlock 4096 rootDataBlock (newDirBlock 4096 2 2) 4096) (-1)

end Guppy.Ext2
