import Guppy.Lib.Bitmap
import Guppy.Lib.Prog
import Guppy.Vfs.Path

set_option autoImplicit false

/-! # The device and the structures on it

`src/ext2.c` keeps the superblock, the group descriptors and the inodes as packed C
structures and copies them to and from the device. Here such a structure is the bytes it
consists of, and a field is a little-endian number at its offset.

A device read fails past the end of the device, and so does a write; a write also fails on a
read-only device. Nothing else makes them fail.
-/

namespace Guppy.Ext2

open Prog

def uint32 : Nat := 4294967296

/-- A block device: its size, its bytes, and what `time(NULL)` is going to return. -/
structure Vblk where
  limit : Nat
  ro : Bool
  bytes : Mem
  clock : Nat → Nat

/-- `pread_bytes_at`, through `vblk_read_bytes`. -/
def preadBytesAt (d : Vblk) (off len : Nat) : Except Int Mem :=
  if d.limit < off ∨ d.limit - off < len then .error (-1) else .ok (d.bytes.slice off len)

/-- `pread_block`. -/
def preadBlock (d : Vblk) (blockSize index len : Nat) : Except Int Mem :=
  preadBytesAt d (index * blockSize) len

/-- `pwrite_bytes_at`, through `vblk_write_bytes`. -/
def pwriteBytesAt (off : Nat) (src : Mem) (len : Nat) : Prog Vblk Unit := do
  let d ← get
  failIf (d.ro = true ∨ d.limit < off ∨ d.limit - off < len) (-1)
  set { d with bytes := d.bytes.write off len src }

/-- `pwrite_block`. -/
def pwriteBlock (blockSize index : Nat) (src : Mem) (len : Nat) : Prog Vblk Unit :=
  pwriteBytesAt (index * blockSize) src len

/-- `(uint32_t)time(NULL)`. -/
def timeNull : Prog Vblk Nat := do
  let d ← get
  set { d with clock := fun i => d.clock (i + 1) }
  pure (d.clock 0 % uint32)

/-! ## Packed structures -/

/-- `ext2_superblock`. -/
abbrev Superblock := Mem

namespace Superblock

def size : Nat := 204

def sInodesCount (sb : Superblock) : Nat := sb.rd32 0
def sBlocksCount (sb : Superblock) : Nat := sb.rd32 4
def sFreeBlocksCount (sb : Superblock) : Nat := sb.rd32 12
def sFreeInodesCount (sb : Superblock) : Nat := sb.rd32 16
def sFirstDataBlock (sb : Superblock) : Nat := sb.rd32 20
def sLogBlockSize (sb : Superblock) : Nat := sb.rd32 24
def sBlocksPerGroup (sb : Superblock) : Nat := sb.rd32 32
def sInodesPerGroup (sb : Superblock) : Nat := sb.rd32 40
def sMagic (sb : Superblock) : Nat := sb.rd16 56
def sRevLevel (sb : Superblock) : Nat := sb.rd32 76
def sFirstIno (sb : Superblock) : Nat := sb.rd32 84
def sInodeSize (sb : Superblock) : Nat := sb.rd16 88
def sFeatureRoCompat (sb : Superblock) : Nat := sb.rd32 100

def setFreeBlocksCount (sb : Superblock) (v : Nat) : Superblock := sb.wr32 12 v
def setFreeInodesCount (sb : Superblock) (v : Nat) : Superblock := sb.wr32 16 v

end Superblock

/-- `ext2_group_desc`. -/
abbrev GroupDesc := Mem

namespace GroupDesc

def size : Nat := 32

def bgBlockBitmap (gd : GroupDesc) : Nat := gd.rd32 0
def bgInodeBitmap (gd : GroupDesc) : Nat := gd.rd32 4
def bgInodeTable (gd : GroupDesc) : Nat := gd.rd32 8
def bgFreeBlocksCount (gd : GroupDesc) : Nat := gd.rd16 12
def bgFreeInodesCount (gd : GroupDesc) : Nat := gd.rd16 14
def bgUsedDirsCount (gd : GroupDesc) : Nat := gd.rd16 16

def setFreeBlocksCount (gd : GroupDesc) (v : Nat) : GroupDesc := gd.wr16 12 v
def setFreeInodesCount (gd : GroupDesc) (v : Nat) : GroupDesc := gd.wr16 14 v
def setUsedDirsCount (gd : GroupDesc) (v : Nat) : GroupDesc := gd.wr16 16 v

end GroupDesc

/-- `ext2_inode`. -/
abbrev Inode := Mem

namespace Inode

def size : Nat := 128

def iMode (p : Inode) : Nat := p.rd16 0
def iSize (p : Inode) : Nat := p.rd32 4
def iDtime (p : Inode) : Nat := p.rd32 20
def iLinksCount (p : Inode) : Nat := p.rd16 26
def iBlocks (p : Inode) : Nat := p.rd32 28
def iBlock (p : Inode) (k : Nat) : Nat := p.rd32 (40 + 4 * k)

def setMode (p : Inode) (v : Nat) : Inode := p.wr16 0 v
def setSize (p : Inode) (v : Nat) : Inode := p.wr32 4 v
def setAtime (p : Inode) (v : Nat) : Inode := p.wr32 8 v
def setCtime (p : Inode) (v : Nat) : Inode := p.wr32 12 v
def setMtime (p : Inode) (v : Nat) : Inode := p.wr32 16 v
def setDtime (p : Inode) (v : Nat) : Inode := p.wr32 20 v
def setLinksCount (p : Inode) (v : Nat) : Inode := p.wr16 26 v
def setBlocks (p : Inode) (v : Nat) : Inode := p.wr32 28 v
def setBlock (p : Inode) (k v : Nat) : Inode := p.wr32 (40 + 4 * k) v

/-- `memset(file.i_block, 0, sizeof file.i_block)` -/
def clearBlock (p : Inode) : Inode := p.write 40 60 Mem.zero

/-- `dir.i_mtime = dir.i_ctime = now` -/
def touch (p : Inode) (now : Nat) : Inode := (p.setCtime now).setMtime now

/-- `file.i_atime = file.i_ctime = file.i_mtime = now` -/
def stamp (p : Inode) (now : Nat) : Inode := ((p.setMtime now).setCtime now).setAtime now

end Inode

/-- `mode & 0170000`, of a 16-bit mode. -/
def ifmt (mode : Nat) : Nat := mode - mode % 4096

def sIfdir : Nat := 0o040000
def sIfreg : Nat := 0o100000
def sIflnk : Nat := 0o120000
def sIfchr : Nat := 0o020000
def sIfblk : Nat := 0o060000
def sIffifo : Nat := 0o010000
def sIfsock : Nat := 0o140000

/-! ## Superblock and group descriptors -/

/-- `ext2_meta`. -/
structure Ext2Meta where
  sb : Superblock
  gd : Nat → GroupDesc
  groupCount : Nat
  blockSize : Nat
  gdtBlk : Nat
  gdtBlocks : Nat

/-- `ext2_group_block_count`. -/
def ext2GroupBlockCount (m : Ext2Meta) (g : Nat) : Nat :=
  min m.sb.sBlocksPerGroup (m.sb.sBlocksCount - g * m.sb.sBlocksPerGroup)

def ext2MaxGroups : Nat := 1024

/-- The descriptors in group descriptor block `k`: the first one and how many. -/
def gdtSpan (m : Ext2Meta) (k : Nat) : Nat × Nat :=
  let per := m.blockSize / GroupDesc.size
  (k * per, min per (m.groupCount - k * per))

/-- `memcpy(buf, &m->gd[first], count * sizeof(ext2_group_desc))` into a zeroed buffer. -/
def gdtBuf (gd : Nat → GroupDesc) (span : Nat × Nat) : Mem := fun i =>
  if i < span.2 * GroupDesc.size then gd (span.1 + i / GroupDesc.size) (i % GroupDesc.size) else 0

/-- `ext2_store_meta`. -/
def ext2StoreMeta (m : Ext2Meta) : Prog Vblk Unit := do
  orFail (pwriteBytesAt 1024 m.sb Superblock.size) (-1)
  forLoop (fun k _ =>
    orFail (pwriteBlock m.blockSize (m.gdtBlk + k) (gdtBuf m.gd (gdtSpan m k)) m.blockSize) (-2))
    0 m.gdtBlocks ()

/-- `memcpy(&m->gd[first], buf, count * sizeof(ext2_group_desc))` -/
def putGd (gd : Nat → GroupDesc) (span : Nat × Nat) (buf : Mem) : Nat → GroupDesc := fun g =>
  if span.1 ≤ g ∧ g < span.1 + span.2 then
    buf.slice ((g - span.1) * GroupDesc.size) GroupDesc.size
  else gd g

/-- The group descriptor blocks `k`, `k + 1`, ... of `ext2_load_meta`. -/
def loadGdt (d : Vblk) (m : Ext2Meta) : (count k : Nat) → Except Int Ext2Meta
  | 0, _ => .ok m
  | count + 1, k => do
      let buf ← orCode (preadBlock d m.blockSize (m.gdtBlk + k) m.blockSize) (-7)
      loadGdt d { m with gd := putGd m.gd (gdtSpan m k) buf } count (k + 1)

/-- The fields of `ext2_meta` that follow from the superblock. The shift count is taken
modulo 32, as the machine does. -/
def metaOf (sb : Superblock) : Ext2Meta :=
  let blockSize := 1024 * 2 ^ (sb.sLogBlockSize % 32) % uint32
  let groupCount := (sb.sBlocksCount + sb.sBlocksPerGroup - 1) % uint32 / sb.sBlocksPerGroup
  let per := blockSize / GroupDesc.size
  { sb := sb
    gd := fun _ => Mem.zero
    groupCount := groupCount
    blockSize := blockSize
    gdtBlk := (if blockSize = 1024 then 1 else 0) + 1
    gdtBlocks := (groupCount + per - 1) / per }

/-- `ext2_load_meta`. -/
def ext2LoadMeta (d : Vblk) : Except Int Ext2Meta := do
  let sb : Superblock ← orCode (preadBytesAt d 1024 Superblock.size) (-2)
  check (sb.sMagic ≠ 0xEF53) (-3)
  check ((metaOf sb).blockSize = 0 ∨ 4096 < (metaOf sb).blockSize) (-4)
  check (sb.sBlocksPerGroup = 0 ∨ sb.sInodesPerGroup = 0) (-5)
  let sb' : Superblock := if sb.sInodeSize = 0 then sb.wr16 88 128 else sb
  let m := metaOf sb'
  check (m.groupCount = 0 ∨ ext2MaxGroups < m.groupCount) (-6)
  loadGdt d m m.gdtBlocks 0

/-! ## Inodes -/

/-- Where inode `ino` is: the block of the inode table that holds it, and its offset there. -/
def inodePlace (m : Ext2Meta) (ino : Nat) : Except Int (Nat × Nat) := do
  check (ino = 0 ∨ m.sb.sInodesCount < ino) (-1)
  let group := (ino - 1) / m.sb.sInodesPerGroup
  let local' := (ino - 1) % m.sb.sInodesPerGroup
  check (m.groupCount ≤ group) (-2)
  let inodesPerBlock := m.blockSize / m.sb.sInodeSize
  check (inodesPerBlock = 0) (-3)
  .ok (((m.gd group).bgInodeTable + local' / inodesPerBlock) % uint32,
    local' % inodesPerBlock * m.sb.sInodeSize)

/-- `ext2_read_inode_at`. -/
def ext2ReadInodeAt (d : Vblk) (m : Ext2Meta) (ino : Nat) : Except Int Inode := do
  let (blk, off) ← inodePlace m ino
  let buf ← orCode (preadBlock d m.blockSize blk m.blockSize) (-4)
  .ok (buf.slice off Inode.size)

/-- `ext2_write_inode_at`. -/
def ext2WriteInodeAt (m : Ext2Meta) (ino : Nat) (inode : Inode) : Prog Vblk Unit := do
  let (blk, off) ← look (fun _ => inodePlace m ino)
  let buf ← look (fun d => orCode (preadBlock d m.blockSize blk m.blockSize) (-4))
  orFail (pwriteBlock m.blockSize blk (buf.write off Inode.size inode) m.blockSize) (-5)

end Guppy.Ext2
