import Guppy.Ext2.Alloc

set_option autoImplicit false

/-! # The operations of `src/ext2.c`

Each operation loads the superblock and the group descriptors, finds its inode by path, and
then changes the device step by step. Nothing is undone when a later step fails, except where
the source does it (`ext2_mknod_at`).

Memory allocation does not fail here, and pointers that the source checks against `NULL` are
there.
-/

namespace Guppy.Ext2

open Prog Vfs

/-- The twelve-, one- and two-level numbering: pointers in a block. -/
def Ext2Meta.ptrs (m : Ext2Meta) : Nat := m.blockSize / 4

/-- The pointers in a pointer block. -/
def ptrList (ptrs : Nat) (blk : Mem) : List Nat := (List.range ptrs).map (fun i => blk.rd32 (4 * i))

/-! ## New directories, devices and links -/

/-- The block of a new directory: `.` and `..`. -/
def newDirBlock (bs ino parentIno : Nat) : Mem :=
  putDirent (putDirent Mem.zero 0 ino 12 2 [dot]) 12 parentIno (bs - 12) 2 dotdot

/-- `ext2_mkdir_at` when there is no entry of that name. -/
def mkdirNew (m : Ext2Meta) (parentIno : Nat) (name : Text) (mode : Nat) : Prog Vblk Unit := do
  let (ino, m) ← orFail (ext2AllocInode m) (-24)
  let (dataBlk, m) ← orFail (ext2AllocBlock m) (-25)
  let now ← timeNull
  let child := (((((Inode.setMode Mem.zero
    (sIfdir + (if mode ≠ 0 then mode % 512 else 0o755))).setSize m.blockSize).stamp now).setLinksCount
    2).setBlocks (m.blockSize / 512)).setBlock 0 dataBlk
  orFail (ext2WriteInodeAt m ino child) (-26)
  orFail (pwriteBlock m.blockSize dataBlk (newDirBlock m.blockSize ino parentIno) m.blockSize) (-27)
  let m ← orFail (ext2AppendDirentAt m parentIno ino 2 name) (-28)
  let parent : Inode ← look (fun d => orCode (ext2ReadInodeAt d m parentIno) (-29))
  let now ← timeNull
  orFail (ext2WriteInodeAt m parentIno
    ((parent.setLinksCount (parent.iLinksCount + 1)).touch now)) (-30)
  let ig := (ino - 1) / m.sb.sInodesPerGroup
  ext2StoreMeta (m.setGd ig ((m.gd ig).setUsedDirsCount ((m.gd ig).bgUsedDirsCount + 1)))

/-- `ext2_mkdir_at`. -/
def ext2MkdirAt (path : Text) (mode : Nat) : Prog Vblk Unit := do
  let m ← look (fun d => (ext2LoadMeta d).mapError (fun rc => -10 + rc))
  let (parent, name) ← look (fun _ => orCode (splitParentName path) (-20))
  let parentIno ← look (fun d => orCode (ext2ResolvePathAt d m parent) (-21))
  let exists' ← look (fun d => orCode (ext2FindEntryAt d m parentIno name) (-23))
  match exists' with
  | some (existing, _) => do
      let ei : Inode ← look (fun d => orCode (ext2ReadInodeAt d m existing) (-22))
      failIf (ifmt ei.iMode ≠ sIfdir) (-22)
  | none => mkdirNew m parentIno name mode

/-- `ext2_old_encode_dev` when both numbers are below 256, else `ext2_new_encode_dev`, in
`i_block[0]` or `i_block[1]`. -/
def encodeDev (node : Inode) (major minor : Nat) : Inode :=
  if major < 256 ∧ minor < 256 then node.setBlock 0 (major * 256 + minor)
  else node.setBlock 1 (minor % 256 + major * 256 + minor / 256 * 256 * 4096)

/-- `ext2_mknod_at` when there is no entry of that name. -/
def mknodNew (m : Ext2Meta) (parentIno : Nat) (name : Text) (mode major minor : Nat) :
    Prog Vblk Unit := do
  let (ino, m) ← orFail (ext2AllocInode m) (-24)
  let now ← timeNull
  let node := encodeDev ((((Inode.setMode Mem.zero mode).setLinksCount 1).stamp now)) major minor
  orRun (ext2WriteInodeAt m ino node) (do
    ignore (ext2FreeInodeNum m ino)
    throw (-25))
  orRun (do
    let _ ← ext2AppendDirentAt m parentIno ino (if ifmt mode = sIfchr then 3 else 4) name
    pure ()) (do
    ignore (ext2FreeInodeNum m ino)
    throw (-26))

/-- `ext2_mknod_at`. -/
def ext2MknodAt (path : Text) (mode major minor : Nat) : Prog Vblk Unit := do
  failIf (path = []) (-1)
  failIf (ifmt mode ≠ sIfchr ∧ ifmt mode ≠ sIfblk) (-2)
  failIf (0xfff < major ∨ 0xfffff < minor) (-3)
  let m ← look (fun d => (ext2LoadMeta d).mapError (fun rc => -10 + rc))
  let (parent, name) ← look (fun _ => orCode (splitParentName path) (-20))
  let parentIno ← look (fun d => orCode (ext2ResolvePathAt d m parent) (-21))
  let exists' ← look (fun d => orCode (ext2FindEntryAt d m parentIno name) (-23))
  failIf (exists' ≠ none) (-22)
  mknodNew m parentIno name mode major minor

/-- `ext2_symlink_at` when there is no entry of that name. -/
def symlinkNew (m : Ext2Meta) (parentIno : Nat) (name target : Text) : Prog Vblk Unit := do
  let (ino, m) ← orFail (ext2AllocInode m) (-8)
  let now ← timeNull
  let link := ((((Inode.setMode Mem.zero (sIflnk + 0o777)).setLinksCount 1).setSize
    target.length).stamp now).write 40 target.length (Mem.ofList target)
  orFail (ext2WriteInodeAt m ino link) (-9)
  let _ ← orFail (ext2AppendDirentAt m parentIno ino 7 name) (-10)
  pure ()

/-- `ext2_symlink_at`. -/
def ext2SymlinkAt (path target : Text) : Prog Vblk Unit := do
  failIf (target.length = 0 ∨ 60 < target.length) (-2)
  let m ← look (fun d => orCode (ext2LoadMeta d) (-3))
  let (parent, name) ← look (fun _ => orCode (splitParentName path) (-4))
  let parentIno ← look (fun d => orCode (ext2ResolvePathAt d m parent) (-5))
  let exists' ← look (fun d => orCode (ext2FindEntryAt d m parentIno name) (-7))
  failIf (exists' ≠ none) (-6)
  symlinkNew m parentIno name target

/-! ## Freeing -/

/-- `FREE_CTX_BLOCK` for each of the blocks that is not zero. -/
def freeCtxBlocks (d : Vblk) (code : Int) :
    List Nat → Ext2Meta × AllocCtx → Except Int (Ext2Meta × AllocCtx)
  | [], s => .ok s
  | b :: blocks, s =>
      if b = 0 then freeCtxBlocks d code blocks s
      else do
        let s ← orCode (ext2FreeBlockCtx d s.1 s.2 b) code
        freeCtxBlocks d code blocks s

/-- The leaves of the double-indirect block, each after the blocks it points to. -/
def freeLeaves (d : Vblk) (ptrs : Nat) :
    List Nat → Ext2Meta × AllocCtx → Except Int (Ext2Meta × AllocCtx)
  | [], s => .ok s
  | leaf :: leaves, s =>
      if leaf = 0 then freeLeaves d ptrs leaves s
      else do
        let leafblk ← orCode (preadBlock d s.1.blockSize leaf s.1.blockSize) (-8)
        let s ← freeCtxBlocks d (-9) (ptrList ptrs leafblk) s
        let s ← freeCtxBlocks d (-10) [leaf] s
        freeLeaves d ptrs leaves s

/-- The blocks under `i_block[12]`, then that block. -/
def freeSingle (d : Vblk) (file : Inode) (s : Ext2Meta × AllocCtx) :
    Except Int (Ext2Meta × AllocCtx) :=
  if file.iBlock 12 = 0 then .ok s
  else do
    let ptrblk ← orCode (preadBlock d s.1.blockSize (file.iBlock 12) s.1.blockSize) (-4)
    let s ← freeCtxBlocks d (-5) (ptrList s.1.ptrs ptrblk) s
    freeCtxBlocks d (-6) [file.iBlock 12] s

/-- The blocks under `i_block[13]`, then that block. -/
def freeDouble (d : Vblk) (file : Inode) (s : Ext2Meta × AllocCtx) :
    Except Int (Ext2Meta × AllocCtx) :=
  if file.iBlock 13 = 0 then .ok s
  else do
    let ptrblk ← orCode (preadBlock d s.1.blockSize (file.iBlock 13) s.1.blockSize) (-7)
    let s ← freeLeaves d s.1.ptrs (ptrList s.1.ptrs ptrblk) s
    freeCtxBlocks d (-11) [file.iBlock 13] s

/-- Everything that `ext2_free_inode_data_blocks` does before the commit. -/
def freeTree (d : Vblk) (m : Ext2Meta) (file : Inode) : Except Int (Ext2Meta × AllocCtx) := do
  let s ← freeCtxBlocks d (-3) ((List.range 12).map file.iBlock) (m, AllocCtx.init)
  let s ← freeSingle d file s
  freeDouble d file s

/-- `ext2_free_inode_data_blocks`. -/
def ext2FreeInodeDataBlocks (m : Ext2Meta) (file : Inode) : Prog Vblk Ext2Meta := do
  failIf (file.iBlock 14 ≠ 0) (-1)
  let s ← look (fun d => freeTree d m file)
  orFail (ext2AllocCtxCommit s.1 s.2) (-12)
  pure s.1

/-- The first record of that name and the record before it, if any. -/
def findWithPrev (p : Nat → Bool) : Option Nat → List Nat → Option (Option Nat × Nat)
  | _, [] => none
  | prev, pos :: rest => if p pos then some (prev, pos) else findWithPrev p (some pos) rest

/-- Take the record at `pos` out of the chain: the record before it grows over it; the first
record of a block only loses its inode. -/
def removeDirent (blk : Mem) : Option Nat → Nat → Mem
  | some prev, pos => blk.wr16 (prev + 4) (deRecLen blk prev + deRecLen blk pos)
  | none, pos => blk.wr32 pos 0

/-- `ext2_unlink_at` once the record and the inode are known to be there. -/
def unlinkEntry (m : Ext2Meta) (parentIno ino : Nat) (name : Text) (victim : Inode) :
    Prog Vblk Unit := do
  let pdir : Inode ← look (fun d => orCode (ext2ReadInodeAt d m parentIno) (-10))
  let found ← look (fun d => findBlock d m.blockSize (-11)
    (fun blk => findWithPrev (deMatches name blk) none (positions m.blockSize blk)) (dirBlocks pdir))
  match found with
  | none => throw (-13)
  | some (b, blk, prev, pos) => do
      orFail (pwriteBlock m.blockSize b (removeDirent blk prev pos) m.blockSize) (-12)
      let m ← orFail (ext2FreeInodeDataBlocks m victim) (-14)
      let now ← timeNull
      orFail (ext2WriteInodeAt m ino (Inode.setDtime Mem.zero now)) (-15)
      let m ← orFail (ext2FreeInodeNum m ino) (-16)
      let now ← timeNull
      orFail (ext2WriteInodeAt m parentIno (pdir.touch now)) (-17)

/-- `ext2_unlink_at`. -/
def ext2UnlinkAt (path : Text) : Prog Vblk Unit := do
  let m ← look (fun d => orCode (ext2LoadMeta d) (-2))
  let (parent, name) ← look (fun _ => orCode (splitParentName path) (-3))
  failIf (name = [dot] ∨ name = dotdot) (-4)
  let parentIno ← look (fun d => orCode (ext2ResolvePathAt d m parent) (-5))
  let found ← look (fun d => orCode (ext2FindEntryAt d m parentIno name) (-6))
  match found with
  | none => throw (-6)
  | some (ino, type) => do
      let victim : Inode ← look (fun d => orCode (ext2ReadInodeAt d m ino) (-7))
      failIf (ifmt victim.iMode = sIfdir ∨ type = 2) (-8)
      failIf (victim.iBlock 14 ≠ 0) (-9)
      unlinkEntry m parentIno ino name victim

/-- `ext2_truncate_at`, to zero bytes. -/
def ext2TruncateAt (path : Text) : Prog Vblk Unit := do
  let m ← look (fun d => orCode (ext2LoadMeta d) (-2))
  let ino ← look (fun d => orCode (ext2ResolvePathAt d m path) (-3))
  failIf (ino = 0) (-3)
  let file : Inode ← look (fun d => orCode (ext2ReadInodeAt d m ino) (-4))
  failIf (ifmt file.iMode = sIfdir) (-5)
  failIf (file.iBlock 14 ≠ 0) (-6)
  let m ← orFail (ext2FreeInodeDataBlocks m file) (-7)
  let now ← timeNull
  ext2WriteInodeAt m ino (((file.clearBlock.setSize 0).setBlocks 0).touch now)

/-! ## Reading a file -/

/-- The pointers of a pointer block, or zeros when there is none. -/
def readPtrs (d : Vblk) (bs : Nat) (code : Int) (block : Nat) : Except Int Mem :=
  if block = 0 then .ok Mem.zero else orCode (preadBlock d bs block bs) code

/-- The block that holds logical block `lbn` of a file, for given pointer blocks. The leaf is
read when it is needed; the source keeps the last one it read. -/
def readLbn (d : Vblk) (m : Ext2Meta) (file : Inode) (single droot : Mem) (lbn : Nat) :
    Except Int Nat :=
  if lbn < 12 then .ok (file.iBlock lbn)
  else if lbn < 12 + m.ptrs then .ok (single.rd32 (4 * (lbn - 12)))
  else do
    let rel := lbn - 12 - m.ptrs
    check (m.ptrs ≤ rel / m.ptrs) (-11)
    let dleaf ← readPtrs d m.blockSize (-12) (droot.rd32 (4 * (rel / m.ptrs)))
    .ok (dleaf.rd32 (4 * (rel % m.ptrs)))

/-- A piece of a block, or zeros for a hole. -/
def readChunk (d : Vblk) (bs diskBlock chunk : Nat) : Except Int Mem :=
  if diskBlock = 0 then .ok Mem.zero else orCode (preadBytesAt d (diskBlock * bs) chunk) (-13)

/-- The loop of `ext2_read_file_at`, with `done` bytes read. -/
def readLoop (d : Vblk) (m : Ext2Meta) (file : Inode) (single droot : Mem) (len : Nat) :
    (fuel done : Nat) → Except Int (List UInt8)
  | 0, _ => .ok []
  | fuel + 1, done =>
      if done < len then do
        let diskBlock ← readLbn d m file single droot (done / m.blockSize)
        let chunk := min m.blockSize (len - done)
        let buf ← readChunk d m.blockSize diskBlock chunk
        let rest ← readLoop d m file single droot len fuel (done + chunk)
        .ok (buf.toList 0 chunk ++ rest)
      else .ok []

/-- `ext2_read_file_at`. -/
def ext2ReadFileAt (d : Vblk) (path : Text) : Except Int (List UInt8) := do
  let m ← orCode (ext2LoadMeta d) (-2)
  let ino ← orCode (ext2ResolvePathAt d m path) (-3)
  check (ino = 0) (-3)
  let file : Inode ← orCode (ext2ReadInodeAt d m ino) (-4)
  check (ifmt file.iMode = sIfdir) (-5)
  check (file.iBlock 14 ≠ 0) (-6)
  if file.iSize = 0 then .ok []
  else do
    let single ← readPtrs d m.blockSize (-9) (file.iBlock 12)
    let droot ← readPtrs d m.blockSize (-10) (file.iBlock 13)
    readLoop d m file single droot file.iSize file.iSize 0

/-! ## Writing a file -/

/-- The local variables of the block allocation loop. `dleafIndex` is `none` for
`UINT32_MAX`. -/
structure Build where
  m : Ext2Meta
  ctx : AllocCtx
  file : Inode
  single : Mem
  droot : Mem
  dleaf : Mem
  dleafBlock : Nat
  dleafIndex : Option Nat
  allocated : Nat
  dataBlocks : List Nat

/-- The error codes of a caller: no block left, and the writes of a full leaf, of the three
pointer blocks, of the data, of the bitmaps and of the inode. -/
structure WriteCodes where
  alloc : Int
  flush : Int
  single : Int
  leaf : Int
  root : Int
  data : Int
  inode : Int

/-- `ALLOC_BLOCK`. -/
def allocBuild (code : Int) (s : Build) : Prog Vblk (Nat × Build) := do
  let (b, m, ctx) ← look (fun d => orCode (ext2AllocBlockCtx d s.m s.ctx) code)
  pure (b, { s with m := m, ctx := ctx, allocated := s.allocated + 1 })

/-- `if (file.i_block[k] == 0) ALLOC_BLOCK(file.i_block[k]);` -/
def ensureBlock (code : Int) (k : Nat) (s : Build) : Prog Vblk Build :=
  if s.file.iBlock k = 0 then do
    let (b, s) ← allocBuild code s
    pure { s with file := s.file.setBlock k b }
  else pure s

/-- Move on to leaf `outer`: write out the leaf that is full, and take a block for the next. -/
def ensureLeaf (codes : WriteCodes) (outer : Nat) (s : Build) : Prog Vblk Build :=
  if s.dleafIndex = some outer then pure s
  else do
    skipIf (s.dleafIndex = none)
      (orFail (pwriteBlock s.m.blockSize s.dleafBlock s.dleaf s.m.blockSize) codes.flush)
    let (b, s) ← allocBuild codes.alloc s
    pure { s with
      dleaf := Mem.zero
      dleafBlock := b
      dleafIndex := some outer
      droot := s.droot.wr32 (4 * outer) b }

/-- Where the pointer to data block `b` of logical block `lbn` goes. -/
def linkBlock (codes : WriteCodes) (lbn b : Nat) (s : Build) : Prog Vblk Build :=
  let ptrs := s.m.ptrs
  if lbn < 12 then pure { s with file := s.file.setBlock lbn b }
  else if lbn < 12 + ptrs then do
    let s ← ensureBlock codes.alloc 12 s
    pure { s with single := s.single.wr32 (4 * (lbn - 12)) b }
  else do
    let rel := lbn - 12 - ptrs
    let s ← ensureBlock codes.alloc 13 s
    let s ← ensureLeaf codes (rel / ptrs) s
    pure { s with dleaf := s.dleaf.wr32 (4 * (rel % ptrs)) b }

/-- One iteration of the allocation loop. -/
def buildStep (codes : WriteCodes) (lbn : Nat) (s : Build) : Prog Vblk Build := do
  let (b, s) ← allocBuild codes.alloc s
  linkBlock codes lbn b { s with dataBlocks := s.dataBlocks ++ [b] }

/-- Write the bytes `src[done]` to `src[stop - 1]` at `abs + done`, at most `step` bytes at a
time. -/
def writePieces (abs step : Nat) (src : Mem) (code : Int) (stop : Nat) :
    (fuel done : Nat) → Prog Vblk Unit
  | 0, _ => pure ()
  | fuel + 1, done =>
      if done < stop then do
        let chunk := min step (stop - done)
        orFail (pwriteBytesAt (abs + done) (fun i => src (done + i)) chunk) code
        writePieces abs step src code stop fuel (done + chunk)
      else pure ()

/-- How many of the blocks continue the run that ends in `prev`. -/
def runLength (prev : Nat) : List Nat → Nat
  | [] => 0
  | b :: blocks => if b = (prev + 1) % uint32 then runLength b blocks + 1 else 0

/-- One run of `ext2_write_data_runs`: `count` blocks from block `start` on get the bytes of
the file from `filePos` on, padded with zeros. -/
def writeRun (bs : Nat) (data : List UInt8) (filePos start count : Nat) : Prog Vblk Unit := do
  let capacity := count * bs
  let actual := min capacity (data.length - filePos)
  writePieces (start * bs) 67108864 (fun i => Mem.ofList data (filePos + i)) (-2) actual actual 0
  writePieces (start * bs) 4096 Mem.zero (-3) capacity (capacity - actual) actual

/-- The runs from logical block `i` on. -/
def writeRuns (bs : Nat) (data : List UInt8) : (fuel i : Nat) → List Nat → Prog Vblk Unit
  | 0, _, _ => pure ()
  | _ + 1, _, [] => pure ()
  | fuel + 1, i, b :: blocks => do
      let n := runLength b blocks
      writeRun bs data (i * bs) b (n + 1)
      writeRuns bs data fuel (i + n + 1) (blocks.drop n)

/-- `ext2_write_data_runs`. -/
def ext2WriteDataRuns (m : Ext2Meta) (data : List UInt8) (blocks : List Nat) : Prog Vblk Unit :=
  writeRuns m.blockSize data blocks.length 0 blocks

/-- Write the pointer blocks that are in use. -/
def writePtrs (codes : WriteCodes) (s : Build) : Prog Vblk Unit := do
  skipIf (s.file.iBlock 12 = 0)
    (orFail (pwriteBlock s.m.blockSize (s.file.iBlock 12) s.single s.m.blockSize) codes.single)
  skipIf (s.dleafIndex = none)
    (orFail (pwriteBlock s.m.blockSize s.dleafBlock s.dleaf s.m.blockSize) codes.leaf)
  skipIf (s.file.iBlock 13 = 0)
    (orFail (pwriteBlock s.m.blockSize (s.file.iBlock 13) s.droot s.m.blockSize) codes.root)

/-- What `ext2_create_and_write` and `ext2_write_existing_at` share: take the blocks, write
the pointer blocks and the data, commit, and write the inode. -/
def writeFile (codes : WriteCodes) (m : Ext2Meta) (ino : Nat) (file : Inode) (data : List UInt8) :
    Prog Vblk Ext2Meta := do
  let needData := (data.length + m.blockSize - 1) / m.blockSize
  let s ← forLoop (buildStep codes) 0 needData
    ⟨m, AllocCtx.init, file, Mem.zero, Mem.zero, Mem.zero, 0, none, 0, []⟩
  writePtrs codes s
  orFail (ext2WriteDataRuns s.m data s.dataBlocks) codes.data
  orFail (ext2AllocCtxCommit s.m s.ctx) codes.data
  orFail (ext2WriteInodeAt s.m ino (s.file.setBlocks (s.allocated * (s.m.blockSize / 512)))) codes.inode
  pure s.m

def Ext2Meta.maxDataBlocks (m : Ext2Meta) : Nat := 12 + m.ptrs + m.ptrs * m.ptrs

def existingCodes : WriteCodes := ⟨-15, -17, -18, -19, -20, -21, -22⟩

/-- The inode still owns something: `i_blocks`, a pointer, or a size. -/
def ownsBlocks (file : Inode) : Bool :=
  file.iBlocks ≠ 0 ∨ (∃ i ∈ List.range 15, file.iBlock i ≠ 0) ∨ file.iSize ≠ 0

/-- Truncate, then load everything again. -/
def reloadEmpty (path : Text) (ino : Nat) : Prog Vblk (Ext2Meta × Inode) := do
  orFail (ext2TruncateAt path) (-8)
  let m ← look (fun d => orCode (ext2LoadMeta d) (-9))
  let file ← look (fun d => orCode (ext2ReadInodeAt d m ino) (-10))
  pure (m, file)

/-- Truncate first and load everything again, unless the inode is empty already. -/
def emptyFirst (path : Text) (ino : Nat) (m : Ext2Meta) (file : Inode) :
    Prog Vblk (Ext2Meta × Inode) :=
  if ownsBlocks file then reloadEmpty path ino else pure (m, file)

/-- `ext2_write_existing_at`. -/
def ext2WriteExistingAt (path : Text) (data : List UInt8) : Prog Vblk Unit := do
  failIf (uint32 ≤ data.length) (-2)
  let m ← look (fun d => orCode (ext2LoadMeta d) (-3))
  let ino ← look (fun d => orCode (ext2ResolvePathAt d m path) (-4))
  failIf (ino = 0) (-4)
  let file : Inode ← look (fun d => orCode (ext2ReadInodeAt d m ino) (-5))
  failIf (ifmt file.iMode = sIfdir) (-6)
  failIf (file.iBlock 14 ≠ 0) (-7)
  let (m, file) ← emptyFirst path ino m file
  failIf (m.maxDataBlocks < (data.length + m.blockSize - 1) / m.blockSize) (-11)
  let now ← timeNull
  let _ ← writeFile existingCodes m ino ((file.clearBlock.setSize data.length).stamp now) data
  pure ()

def createCodes : WriteCodes := ⟨-13, -15, -16, -17, -18, -19, -20⟩

/-- `ext2_find_entry_at(...) == 1` -/
def entryFound : Except Int (Option (Nat × Nat)) → Bool
  | .ok (some _) => true
  | _ => false

/-- `ext2_create_and_write`. A lookup that fails counts as a name that is not there. -/
def ext2CreateAndWrite (path : Text) (data : List UInt8) : Prog Vblk Unit := do
  let m ← look (fun d => orCode (ext2LoadMeta d) (-2))
  let (parent, name) ← look (fun _ => orCode (splitParentName path) (-3))
  let parentIno ← look (fun d => orCode (ext2ResolvePathAt d m parent) (-4))
  let d ← get
  failIf (entryFound (ext2FindEntryAt d m parentIno name)) (-5)
  failIf (uint32 ≤ data.length) (-6)
  failIf (m.maxDataBlocks < (data.length + m.blockSize - 1) / m.blockSize) (-7)
  let (ino, m) ← orFail (ext2AllocInode m) (-11)
  let now ← timeNull
  let file := (((Inode.setMode Mem.zero 0o100644).setLinksCount 1).setSize data.length).stamp now
  let m ← writeFile createCodes m ino file data
  let _ ← orFail (ext2AppendDirentAt m parentIno ino 1 name) (-21)
  pure ()

end Guppy.Ext2
