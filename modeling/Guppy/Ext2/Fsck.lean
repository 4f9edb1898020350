import Guppy.Ext2.Disk

set_option autoImplicit false

/-! # `ext2_fsck_phase1`

The checker of `src/cmd_fsck_ext2.c`, `src/fsck_ext2_inode.c`, `src/fsck_ext2_blocks.c` and
`src/fsck_ext2_directory.c`. It only reads, so it is a function of the device. It loads the
bitmaps, marks the blocks that hold metadata, then goes through the groups and their inodes
and counts what it finds wrong. Error counts are unbounded here.
-/

namespace Guppy.Ext2

/-- `fsck_block_context`. The bitmaps that are loaded bit by bit are predicates. -/
structure FsckContext where
  count : Nat
  blockSize : Nat
  allocated : Nat → Bool
  owners : Nat → Nat
  inodeCount : Nat
  inodeAllocated : Nat → Bool
  directoryRefs : Nat → Nat
  inodeLinks : Nat → Nat
  inodeChecked : Nat → Bool

/-- The context and the errors found so far. -/
abbrev Checked := FsckContext × Nat

def Checked.fail (c : Checked) : Checked := (c.1, c.2 + 1)

/-- The owner of blocks that hold metadata, `UINT32_MAX`. -/
def metaOwner : Nat := 4294967295

/-- `readat`. -/
def readat (d : Vblk) (off len : Nat) : Option Mem := (preadBytesAt d off len).toOption

/-! ## Block references -/

/-- `claim`: the context after it, and whether the claim is new and valid. -/
def claim (ino block : Nat) (c : Checked) : Checked × Bool :=
  if c.1.count ≤ block then (c.fail, false)
  else
    let c := if c.1.allocated block then c else c.fail
    if c.1.owners block ≠ 0 then (c.fail, false)
    else (({ c.1 with owners := Function.update c.1.owners block ino }, c.2), true)

/-- `walk`: a block and, `depth` levels deep, the blocks it points to. -/
def walkBlock (d : Vblk) (ino : Nat) : (depth block : Nat) → Checked → Checked
  | 0, block, c => if block = 0 then c else (claim ino block c).1
  | depth + 1, block, c =>
      if block = 0 then c
      else
        let (c, new) := claim ino block c
        if new then
          match readat d (block * c.1.blockSize) c.1.blockSize with
          | none => c.fail
          | some buf =>
              (List.range (c.1.blockSize / 4)).foldl
                (fun c j => walkBlock d ino depth (buf.rd32 (4 * j)) c) c
        else c

/-- `fsck_check_direct`. -/
def fsckCheckDirect (d : Vblk) (ino : Nat) (inode : Inode) (c : Checked) : Checked :=
  let type := ifmt inode.iMode
  if type = sIflnk ∧ inode.iSize ≤ 60 ∧ inode.iBlocks = 0 then c
  else if type = sIfchr ∨ type = sIfblk ∨ type = sIffifo ∨ type = sIfsock then c
  else (List.range 15).foldl
    (fun c j => walkBlock d ino (if j < 12 then 0 else j - 11) (inode.iBlock j) c) c

/-! ## Directory records -/

/-- The record loop of `fsck_check_directory` in one block. -/
def checkRecords (buf : Mem) : (fuel pos : Nat) → Checked → Checked
  | 0, _, c => c
  | fuel + 1, pos, c =>
      let bs := c.1.blockSize
      if bs ≤ pos then c
      else if bs < pos + 8 then c.fail
      else
        let target := buf.rd32 pos
        let rec' := buf.rd16 (pos + 4)
        if rec' < 8 ∨ rec' % 4 ≠ 0 ∨ bs - pos < rec' ∨ rec' - 8 < (buf (pos + 6)).toNat then c.fail
        else
          let c :=
            if target = 0 then c
            else if c.1.inodeCount < target ∨ c.1.inodeAllocated (target - 1) = false then c.fail
            else ({ c.1 with
              directoryRefs := Function.update c.1.directoryRefs target
                (c.1.directoryRefs target + 1) }, c.2)
          checkRecords buf fuel (pos + rec') c

/-- `fsck_check_directory`. -/
def fsckCheckDirectory (d : Vblk) (inode : Inode) (c : Checked) : Checked :=
  ((List.range 12).takeWhile (fun j => j * c.1.blockSize < inode.iSize)).foldl (fun c j =>
    let b := inode.iBlock j
    if b = 0 ∨ c.1.count ≤ b ∨ c.1.allocated b = false then c
    else
      match readat d (b * c.1.blockSize) c.1.blockSize with
      | none => c.fail
      | some buf => checkRecords buf c.1.blockSize 0 c) c

/-! ## Inodes -/

/-- `S_IFREG`, `S_IFDIR` and so on. -/
def validType (type : Nat) : Bool :=
  type = sIfreg ∨ type = sIfdir ∨ type = sIflnk ∨ type = sIfchr ∨ type = sIfblk ∨ type = sIffifo ∨
    type = sIfsock

/-- One allocated inode of `fsck_ext2_check_inodes` that is not reserved. -/
def checkInode (d : Vblk) (ino : Nat) (inode : Inode) (c : Checked) : Checked :=
  let c := if validType (ifmt inode.iMode) then c else c.fail
  let c := if inode.iDtime ≠ 0 then c.fail else c
  let c := if inode.iLinksCount = 0 then c.fail else c
  let c : Checked := ({ c.1 with
    inodeLinks := Function.update c.1.inodeLinks ino inode.iLinksCount
    inodeChecked := Function.update c.1.inodeChecked ino true }, c.2)
  let c := fsckCheckDirect d ino inode c
  if ifmt inode.iMode = sIfdir then fsckCheckDirectory d inode c else c

/-- `fsck_ext2_check_inodes`: the inodes of a group. An inode that cannot be read ends the
group with one error. -/
def fsckExt2CheckInodes (d : Vblk) (base isz bs table firstNonreserved errors : Nat) (bitmap : Mem) :
    (count i : Nat) → Checked → Checked
  | 0, _, c => c
  | count + 1, i, c =>
      if bitmap.bit i = false then
        fsckExt2CheckInodes d base isz bs table firstNonreserved errors bitmap count (i + 1) c
      else
        match readat d (table * bs + i * isz) isz with
        | none => (c.1, errors + 1)
        | some inode =>
            let ino := base + i + 1
            if ino < firstNonreserved ∧ ino ≠ 2 then
              fsckExt2CheckInodes d base isz bs table firstNonreserved errors bitmap count (i + 1) c
            else
              fsckExt2CheckInodes d base isz bs table firstNonreserved errors bitmap count (i + 1)
                (checkInode d ino inode c)

/-! ## Groups -/

/-- What the checker takes from the superblock. -/
structure FsckGeometry where
  blocks : Nat
  inodes : Nat
  first : Nat
  bs : Nat
  bpg : Nat
  ipg : Nat
  isz : Nat
  rev : Nat
  firstNonreserved : Nat
  rocompat : Nat
  reservedGdt : Nat

namespace FsckGeometry

variable (q : FsckGeometry)

def groups : Nat := (q.blocks - q.first + q.bpg - 1) / q.bpg
def gdblocks : Nat := (q.groups * 32 + q.bs - 1) / q.bs
def itblocks : Nat := (q.ipg * q.isz + q.bs - 1) / q.bs
def start (g : Nat) : Nat := q.first + g * q.bpg
def nblk (g : Nat) : Nat := min q.bpg (q.blocks - q.start g)
def nino (g : Nat) : Nat := min q.ipg (q.inodes - g * q.ipg)

end FsckGeometry

/-- `powerof`; the number halves at least, so it is fuel enough. -/
def powerof (base : Nat) : (fuel n : Nat) → Bool
  | 0, n => n = 1
  | fuel + 1, n => if n % base = 0 then powerof base fuel (n / base) else n = 1

/-- `has_backup`. -/
def hasBackup (g rocompat : Nat) : Bool :=
  rocompat % 2 = 0 ∨ g = 0 ∨ g = 1 ∨ powerof 3 g g ∨ powerof 5 g g ∨ powerof 7 g g

/-- The blocks of group `g` that `mark_meta` reserves. -/
def metaBlocks (q : FsckGeometry) (gd : GroupDesc) (g : Nat) : List Nat :=
  [gd.bgBlockBitmap, gd.bgInodeBitmap] ++
    (List.range q.itblocks).map (fun j => gd.bgInodeTable + j) ++
    (if hasBackup g q.rocompat then
      ((List.range (1 + q.gdblocks + q.reservedGdt)).map (fun j => q.start g + j)).filter
        (· < min (q.start g + q.bpg) q.blocks)
    else [])

/-- `mark_meta`. -/
def markMeta (c : FsckContext) (block : Nat) : FsckContext :=
  if block < c.count then { c with owners := Function.update c.owners block metaOwner } else c

/-- The metadata of a group lies inside the group. -/
def groupInBounds (q : FsckGeometry) (gd : GroupDesc) (g : Nat) : Bool :=
  ¬ (gd.bgBlockBitmap < q.start g ∨ q.start g + q.nblk g ≤ gd.bgBlockBitmap ∨
    gd.bgInodeBitmap < q.start g ∨ q.start g + q.nblk g ≤ gd.bgInodeBitmap ∨
    gd.bgInodeTable < q.start g ∨ q.start g + q.nblk g < gd.bgInodeTable + q.itblocks)

/-- How many of the blocks of the group are in a list but marked free. -/
def markedFree (q : FsckGeometry) (bb : Mem) (g : Nat) (blocks : List Nat) : Nat :=
  blocks.countP (fun blk =>
    q.start g ≤ blk ∧ blk < q.start g + q.nblk g ∧ bb.bit (blk - q.start g) = false)

/-- What is wrong with the bitmaps of a group: the free counts, metadata that is marked free,
and, in group 0, reserved inodes that are. -/
def bitmapErrors (q : FsckGeometry) (gd : GroupDesc) (bb ib : Mem) (g : Nat) : Nat :=
  (if clearIn bb.bit 0 (q.nblk g) ≠ gd.bgFreeBlocksCount then 1 else 0) +
  (if clearIn ib.bit 0 (q.nino g) ≠ gd.bgFreeInodesCount then 1 else 0) +
  markedFree q bb g ([gd.bgBlockBitmap, gd.bgInodeBitmap] ++
    (List.range q.itblocks).map (fun j => gd.bgInodeTable + j)) +
  (if q.rocompat % 2 = 0 then clearIn bb.bit 0 (min (1 + q.gdblocks) (q.nblk g)) else 0) +
  (if g = 0 then clearIn ib.bit 0 (min q.firstNonreserved (q.nino 0 + 1) - 1) else 0)

/-- The context and errors, and the free blocks and inodes that were counted. -/
structure FsckTotals where
  checked : Checked
  totalb : Nat
  totali : Nat

/-- One iteration of the main loop. -/
def checkGroup (d : Vblk) (q : FsckGeometry) (gdt : Mem) (t : FsckTotals) (g : Nat) : FsckTotals :=
  let gd : GroupDesc := gdt.slice (32 * g) 32
  if groupInBounds q gd g = false then { t with checked := t.checked.fail }
  else
    match readat d (gd.bgBlockBitmap * q.bs) q.bs, readat d (gd.bgInodeBitmap * q.bs) q.bs with
    | some bb, some ib =>
        let c := fsckExt2CheckInodes d (g * q.ipg) q.isz q.bs gd.bgInodeTable q.firstNonreserved
          t.checked.2 ib (q.nino g) 0 t.checked
        { checked := (c.1, c.2 + bitmapErrors q gd bb ib g)
          totalb := t.totalb + clearIn bb.bit 0 (q.nblk g)
          totali := t.totali + clearIn ib.bit 0 (q.nino g) }
    | _, _ => { t with checked := t.checked.fail }

/-- The inode bitmaps of all groups, by index; `none` when one cannot be read. -/
def loadInodeBitmaps (d : Vblk) (q : FsckGeometry) (gdt : Mem) :
    (count g : Nat) → (Nat → Bool) → Option (Nat → Bool)
  | 0, _, a => some a
  | count + 1, g, a =>
      if q.nino g = 0 then loadInodeBitmaps d q gdt count (g + 1) a
      else
        match readat d (gdt.rd32 (32 * g + 4) * q.bs) q.bs with
        | none => none
        | some ib => loadInodeBitmaps d q gdt count (g + 1) (fun i =>
            a i || (decide (g * q.ipg ≤ i ∧ i < g * q.ipg + q.nino g) && ib.bit (i - g * q.ipg)))

/-- The block bitmaps of all groups, by block. -/
def loadBlockBitmaps (d : Vblk) (q : FsckGeometry) (gdt : Mem) :
    (count g : Nat) → (Nat → Bool) → Option (Nat → Bool)
  | 0, _, a => some a
  | count + 1, g, a =>
      let bmap := gdt.rd32 (32 * g)
      if bmap < q.start g ∨ q.start g + q.nblk g ≤ bmap then none
      else
        match readat d (bmap * q.bs) q.bs with
        | none => none
        | some bb => loadBlockBitmaps d q gdt count (g + 1) (fun b =>
            a b || (decide (q.start g ≤ b ∧ b < q.start g + q.nblk g) && bb.bit (b - q.start g)))

/-- The checks that follow the main loop: the totals, the link counts, and blocks without an
owner. -/
def finalErrors (q : FsckGeometry) (freeb freei : Nat) (t : FsckTotals) : Nat :=
  let c := t.checked.1
  t.checked.2 + (if t.totalb ≠ freeb then 1 else 0) + (if t.totali ≠ freei then 1 else 0) +
  (List.range q.inodes).countP (fun i =>
    c.inodeChecked (i + 1) ∧ c.directoryRefs (i + 1) ≠ c.inodeLinks (i + 1)) +
  (if ∃ b ∈ List.range q.blocks, q.first ≤ b ∧ c.allocated b = true ∧ c.owners b = 0 then 1 else 0)

/-- The checker after the geometry has been accepted. -/
def fsckGroups (d : Vblk) (q : FsckGeometry) (freeb freei : Nat) : Nat :=
  match readat d ((q.first + 1) * q.bs) (q.groups * 32) with
  | none => 2
  | some gdt =>
      match loadInodeBitmaps d q gdt q.groups 0 (fun _ => false),
          loadBlockBitmaps d q gdt q.groups 0 (fun _ => false) with
      | some inodeAllocated, some allocated =>
          let c : FsckContext :=
            { count := q.blocks, blockSize := q.bs, allocated := allocated, owners := fun _ => 0
              inodeCount := q.inodes, inodeAllocated := inodeAllocated
              directoryRefs := fun _ => 0, inodeLinks := fun _ => 0, inodeChecked := fun _ => false }
          let c := (List.range q.groups).foldl (fun c g =>
            (metaBlocks q (gdt.slice (32 * g) 32) g).foldl markMeta c) c
          let t := (List.range q.groups).foldl (checkGroup d q gdt) ⟨(c, 0), 0, 0⟩
          if finalErrors q freeb freei t = 0 then 0 else 1
      | _, _ => 2

/-- The geometry that a superblock describes. -/
def fsckGeometry (sb : Mem) : FsckGeometry :=
  let rev := sb.rd32 76
  { blocks := sb.rd32 4
    inodes := sb.rd32 0
    first := sb.rd32 20
    bs := 1024 * 2 ^ sb.rd32 24
    bpg := sb.rd32 32
    ipg := sb.rd32 40
    isz := if rev ≠ 0 then sb.rd16 88 else 128
    rev := rev
    firstNonreserved := if rev ≠ 0 then sb.rd32 84 else 11
    rocompat := sb.rd32 100
    reservedGdt := if rev ≠ 0 then sb.rd16 206 else 0 }

/-- `ext2_fsck_phase1`: 0 when nothing is wrong, 1 when something is, 2 when the filesystem
cannot be checked. -/
def ext2FsckPhase1 (d : Vblk) : Nat :=
  match readat d 1024 1024 with
  | none => 2
  | some sb =>
      if sb.rd16 56 ≠ 0xEF53 then 2
      else if 2 < sb.rd32 24 then 2
      else
        let q := fsckGeometry sb
        if q.bpg = 0 ∨ q.ipg = 0 ∨ q.blocks = 0 ∨ q.inodes = 0 ∨ q.isz < 128 ∨ 4096 < q.isz ∨
            q.isz &&& (q.isz - 1) ≠ 0 then 2
        else if d.limit < q.blocks * q.bs ∨ q.blocks ≤ q.first ∨ q.bs * 8 < q.bpg ∨
            q.bs * 8 < q.ipg then 2
        else if q.groups = 0 ∨ 65535 < q.groups ∨
            q.groups < (q.inodes + q.ipg - 1) % uint32 / q.ipg then 2
        else fsckGroups d q (sb.rd32 12) (sb.rd32 16)

end Guppy.Ext2
