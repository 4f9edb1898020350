import Guppy.Ext2.Dir

set_option autoImplicit false

/-! # Allocation

Inodes and single blocks are allocated one at a time: read the bitmap, set a bit, write the
bitmap, then the counters. A file write works on copies of the bitmaps instead
(`ext2_alloc_ctx`) and writes them once, at the commit.
-/

namespace Guppy.Ext2

open Prog Vfs

/-- The group descriptor of group `g` replaced. -/
def Ext2Meta.setGd (m : Ext2Meta) (g : Nat) (gd : GroupDesc) : Ext2Meta :=
  { m with gd := Function.update m.gd g gd }

/-- `if (count) count--;` for the free blocks of a group and of the filesystem. -/
def Ext2Meta.takeBlock (m : Ext2Meta) (g : Nat) : Ext2Meta :=
  { m.setGd g ((m.gd g).setFreeBlocksCount ((m.gd g).bgFreeBlocksCount - 1)) with
    sb := m.sb.setFreeBlocksCount (m.sb.sFreeBlocksCount - 1) }

/-- `count++;` for the free blocks of a group and of the filesystem. -/
def Ext2Meta.giveBlock (m : Ext2Meta) (g : Nat) : Ext2Meta :=
  { m.setGd g ((m.gd g).setFreeBlocksCount ((m.gd g).bgFreeBlocksCount + 1)) with
    sb := m.sb.setFreeBlocksCount (m.sb.sFreeBlocksCount + 1) }

/-- `if (count) count--;` for the free inodes of a group and of the filesystem. -/
def Ext2Meta.takeInode (m : Ext2Meta) (g : Nat) : Ext2Meta :=
  { m.setGd g ((m.gd g).setFreeInodesCount ((m.gd g).bgFreeInodesCount - 1)) with
    sb := m.sb.setFreeInodesCount (m.sb.sFreeInodesCount - 1) }

/-- `count++;` for the free inodes of a group and of the filesystem. -/
def Ext2Meta.giveInode (m : Ext2Meta) (g : Nat) : Ext2Meta :=
  { m.setGd g ((m.gd g).setFreeInodesCount ((m.gd g).bgFreeInodesCount + 1)) with
    sb := m.sb.setFreeInodesCount (m.sb.sFreeInodesCount + 1) }

/-! ## Inodes -/

/-- Bit `local'` of group `g` stands for an inode that may be allocated and is free. -/
def inodeFree (m : Ext2Meta) (g : Nat) (ib : Mem) (local' : Nat) : Bool :=
  let ino := g * m.sb.sInodesPerGroup + local' + 1
  ino ≤ m.sb.sInodesCount ∧ ¬ (ino < m.sb.sFirstIno ∧ ino ≠ 2) ∧ ib.bit local' = false

/-- The groups `g`, `g + 1`, ... of `ext2_alloc_inode`. -/
def allocInodeFrom (m : Ext2Meta) : (count g : Nat) → Prog Vblk (Nat × Ext2Meta)
  | 0, _ => throw 0
  | count + 1, g =>
      if (m.gd g).bgFreeInodesCount = 0 then allocInodeFrom m count (g + 1)
      else do
        let ib ← look (fun d => preadBlock d m.blockSize (m.gd g).bgInodeBitmap m.blockSize)
        match firstFrom (inodeFree m g ib) m.sb.sInodesPerGroup 0 with
        | none => allocInodeFrom m count (g + 1)
        | some local' => do
            pwriteBlock m.blockSize (m.gd g).bgInodeBitmap (ib.setBit local') m.blockSize
            ext2StoreMeta (m.takeInode g)
            pure (g * m.sb.sInodesPerGroup + local' + 1, m.takeInode g)

/-- `ext2_alloc_inode`; it fails where the source returns 0. -/
def ext2AllocInode (m : Ext2Meta) : Prog Vblk (Nat × Ext2Meta) := allocInodeFrom m m.groupCount 0

/-- `ext2_free_inode_num`. -/
def ext2FreeInodeNum (m : Ext2Meta) (ino : Nat) : Prog Vblk Ext2Meta := do
  failIf (ino = 0 ∨ m.sb.sInodesCount < ino) (-1)
  let g := (ino - 1) / m.sb.sInodesPerGroup
  let local' := (ino - 1) % m.sb.sInodesPerGroup
  let ib ← look (fun d => orCode (preadBlock d m.blockSize (m.gd g).bgInodeBitmap m.blockSize) (-2))
  if ib.bit local' then do
    orFail (pwriteBlock m.blockSize (m.gd g).bgInodeBitmap (ib.clearBit local') m.blockSize) (-3)
    orFail (ext2StoreMeta (m.giveInode g)) (-4)
    pure (m.giveInode g)
  else pure m

/-! ## Single blocks -/

/-- The groups `g`, `g + 1`, ... of `ext2_alloc_block`. -/
def allocBlockFrom (m : Ext2Meta) : (count g : Nat) → Prog Vblk (Nat × Ext2Meta)
  | 0, _ => throw 0
  | count + 1, g =>
      if (m.gd g).bgFreeBlocksCount = 0 then allocBlockFrom m count (g + 1)
      else do
        let bb ← look (fun d => preadBlock d m.blockSize (m.gd g).bgBlockBitmap m.blockSize)
        match firstFrom (fun i => !bb.bit i) (ext2GroupBlockCount m g) 0 with
        | none => allocBlockFrom m count (g + 1)
        | some local' => do
            pwriteBlock m.blockSize (m.gd g).bgBlockBitmap (bb.setBit local') m.blockSize
            ext2StoreMeta (m.takeBlock g)
            failIf (g * m.sb.sBlocksPerGroup + local' = 0) 0
            pure (g * m.sb.sBlocksPerGroup + local', m.takeBlock g)

/-- `ext2_alloc_block`; it fails where the source returns 0. -/
def ext2AllocBlock (m : Ext2Meta) : Prog Vblk (Nat × Ext2Meta) := allocBlockFrom m m.groupCount 0

/-! ## Allocation contexts -/

/-- `ext2_alloc_ctx`. -/
structure AllocCtx where
  bitmaps : Nat → Mem
  cursor : Nat → Nat
  loaded : Nat → Bool
  dirty : Nat → Bool

/-- `ext2_alloc_ctx_init`. -/
def AllocCtx.init : AllocCtx := ⟨fun _ => Mem.zero, fun _ => 0, fun _ => false, fun _ => false⟩

/-- Read the bitmap of group `g` unless it is loaded. -/
def AllocCtx.load (d : Vblk) (m : Ext2Meta) (ctx : AllocCtx) (g : Nat) : Except Int AllocCtx :=
  if ctx.loaded g then .ok ctx
  else do
    let bb ← preadBlock d m.blockSize (m.gd g).bgBlockBitmap m.blockSize
    .ok { ctx with
      bitmaps := Function.update ctx.bitmaps g bb
      loaded := Function.update ctx.loaded g true }

/-- The groups `g`, `g + 1`, ... of `ext2_alloc_block_ctx`. -/
def allocBlockCtxFrom (d : Vblk) (m : Ext2Meta) :
    (count g : Nat) → AllocCtx → Except Int (Nat × Ext2Meta × AllocCtx)
  | 0, _, _ => .error 0
  | count + 1, g, ctx =>
      if (m.gd g).bgFreeBlocksCount = 0 then allocBlockCtxFrom d m count (g + 1) ctx
      else do
        let ctx ← ctx.load d m g
        let groupBlocks := ext2GroupBlockCount m g
        let start := min (ctx.cursor g) groupBlocks
        match firstFrom (fun i => !(ctx.bitmaps g).bit i) (groupBlocks - start) start with
        | none =>
            allocBlockCtxFrom d m count (g + 1)
              { ctx with cursor := Function.update ctx.cursor g groupBlocks }
        | some local' => do
            check (g * m.sb.sBlocksPerGroup + local' = 0) 0
            .ok (g * m.sb.sBlocksPerGroup + local', m.takeBlock g,
              { ctx with
                bitmaps := Function.update ctx.bitmaps g ((ctx.bitmaps g).setBit local')
                cursor := Function.update ctx.cursor g (local' + 1)
                dirty := Function.update ctx.dirty g true })

/-- `ext2_alloc_block_ctx`; it fails where the source returns 0. -/
def ext2AllocBlockCtx (d : Vblk) (m : Ext2Meta) (ctx : AllocCtx) :
    Except Int (Nat × Ext2Meta × AllocCtx) := allocBlockCtxFrom d m m.groupCount 0 ctx

/-- `ext2_free_block_ctx`. -/
def ext2FreeBlockCtx (d : Vblk) (m : Ext2Meta) (ctx : AllocCtx) (block : Nat) :
    Except Int (Ext2Meta × AllocCtx) := do
  check (block = 0 ∨ m.sb.sBlocksCount ≤ block) (-1)
  let g := block / m.sb.sBlocksPerGroup
  let local' := block % m.sb.sBlocksPerGroup
  check (m.groupCount ≤ g) (-2)
  let ctx ← orCode (ctx.load d m g) (-3)
  if (ctx.bitmaps g).bit local' then
    .ok (m.giveBlock g,
      { ctx with
        bitmaps := Function.update ctx.bitmaps g ((ctx.bitmaps g).clearBit local')
        dirty := Function.update ctx.dirty g true })
  else .ok (m, ctx)

/-- `ext2_alloc_ctx_commit`. -/
def ext2AllocCtxCommit (m : Ext2Meta) (ctx : AllocCtx) : Prog Vblk Unit := do
  forLoop (fun g _ =>
    if ctx.dirty g then
      orFail (pwriteBlock m.blockSize (m.gd g).bgBlockBitmap (ctx.bitmaps g) m.blockSize) (-2)
    else pure ()) 0 m.groupCount ()
  ext2StoreMeta m

/-! ## Directory entries -/

/-- `de->rec_len >= min + need` -/
def deSlack (need : Nat) (blk : Mem) (pos : Nat) : Bool :=
  direntMinRecLen (deNameLen blk pos) + need ≤ deRecLen blk pos

/-- Cut the record at `pos` to its minimum and put a new one behind it. -/
def splitDirent (blk : Mem) (pos ino fileType : Nat) (name : Text) : Mem :=
  let oldrec := deRecLen blk pos
  let min' := direntMinRecLen (deNameLen blk pos)
  putDirent ((blk.wr16 (pos + 4) min').write (pos + min') (oldrec - min') Mem.zero)
    (pos + min') ino (oldrec - min') fileType name

/-- The end of `ext2_append_dirent_at`: another block for the directory. -/
def appendBlock (m : Ext2Meta) (dirIno : Nat) (dir : Inode) (childIno fileType : Nat)
    (name : Text) : Prog Vblk Ext2Meta := do
  match firstFrom (fun i => dir.iBlock i = 0) 12 0 with
  | none => throw (-6)
  | some slot => do
      let (extra, m) ← orFail (ext2AllocBlock m) (-7)
      orFail (pwriteBlock m.blockSize extra
        (putDirent Mem.zero 0 childIno m.blockSize fileType name) m.blockSize) (-8)
      let now ← timeNull
      let dir := (((dir.setBlock slot extra).setSize (dir.iSize + m.blockSize)).setBlocks
        (dir.iBlocks + m.blockSize / 512)).touch now
      orFail (ext2WriteInodeAt m dirIno dir) (-9)
      pure m

/-- `ext2_append_dirent_at`. -/
def ext2AppendDirentAt (m : Ext2Meta) (dirIno childIno fileType : Nat) (name : Text) :
    Prog Vblk Ext2Meta := do
  let dir : Inode ← look (fun d => orCode (ext2ReadInodeAt d m dirIno) (-1))
  failIf (ifmt dir.iMode ≠ sIfdir) (-2)
  let need := direntMinRecLen name.length
  let found ← look (fun d => findBlock d m.blockSize (-4)
    (fun blk => (positions m.blockSize blk).find? (deSlack need blk)) (dirBlocks dir))
  match found with
  | some (b, blk, pos) => do
      orFail (pwriteBlock m.blockSize b (splitDirent blk pos childIno fileType name) m.blockSize) (-5)
      let now ← timeNull
      ext2WriteInodeAt m dirIno (dir.touch now)
      pure m
  | none => appendBlock m dirIno dir childIno fileType name

end Guppy.Ext2
