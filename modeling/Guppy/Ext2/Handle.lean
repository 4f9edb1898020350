import Guppy.Ext2.Ops

set_option autoImplicit false

/-! # The read-only handle

`f_read` of `src/vfs_ext2.c` reads a file without `src/ext2.c`: it has its own view of the
superblock (`ext2_disk_layout_t`), of the inode, and of the blocks of a file.
-/

namespace Guppy.Ext2

open Vfs

/-- `ext2_disk_layout_t`. -/
structure DiskLayout where
  blockSize : Nat
  inodeSize : Nat
  inodesCount : Nat
  inodesPerGroup : Nat
  groupCount : Nat
  groupDescOffset : Nat

/-- The layout that a superblock describes. -/
def layoutOf (sb : Superblock) : DiskLayout :=
  { blockSize := 1024 * 2 ^ sb.sLogBlockSize
    inodeSize := if sb.sInodeSize = 0 then 128 else sb.sInodeSize
    inodesCount := sb.sInodesCount
    inodesPerGroup := sb.sInodesPerGroup
    groupCount := (sb.sInodesCount + sb.sInodesPerGroup - 1) % uint32 / sb.sInodesPerGroup
    groupDescOffset := (sb.sFirstDataBlock + 1) % uint32 * (1024 * 2 ^ sb.sLogBlockSize) }

/-- `ext2_read_layout`. -/
def ext2ReadLayout (d : Vblk) : Option DiskLayout :=
  (preadBytesAt d 1024 1024).toOption.bind (fun sb =>
    let lo := layoutOf sb
    if Superblock.sMagic sb ≠ 0xEF53 ∨ 2 < Superblock.sLogBlockSize sb ∨ lo.inodeSize < 128 ∨
        lo.blockSize < lo.inodeSize ∨ lo.inodesCount = 0 ∨ lo.inodesPerGroup = 0 ∨
        lo.groupCount = 0 then none
    else some lo)

/-- `ext2_inode_disk_offset`. -/
def ext2InodeDiskOffset (d : Vblk) (lo : DiskLayout) (ino : Nat) : Option Nat :=
  let group := (ino - 1) / lo.inodesPerGroup
  if ino = 0 ∨ lo.inodesCount < ino ∨ lo.groupCount ≤ group then none
  else
    (preadBytesAt d (lo.groupDescOffset + group * 32) 32).toOption.bind (fun gd =>
      if GroupDesc.bgInodeTable gd = 0 then none
      else some (GroupDesc.bgInodeTable gd * lo.blockSize +
        (ino - 1) % lo.inodesPerGroup * lo.inodeSize))

/-- `ext2_read_inode_disk`. The inode is read into a buffer of 256 bytes. -/
def ext2ReadInodeDisk (d : Vblk) (lo : DiskLayout) (ino : Nat) : Option Inode :=
  if 256 < lo.inodeSize then none
  else
    (ext2InodeDiskOffset d lo ino).bind (fun off =>
      (preadBytesAt d off lo.inodeSize).toOption.bind (fun raw =>
        if Inode.iMode raw = 0 then none else some raw))

/-- The loop of `f_read`: what it reads and, when a device read fails, `false`. -/
def fReadLoop (d : Vblk) (bs : Nat) (di : Inode) (pos n : Nat) :
    (fuel done : Nat) → List UInt8 × Bool
  | 0, _ => ([], true)
  | fuel + 1, done =>
      if done < n then
        let fileOff := pos + done
        let inBlock := fileOff % bs
        if 12 ≤ fileOff / bs then ([], true)
        else
          let chunk := min (bs - inBlock) (n - done)
          let diskBlock := di.iBlock (fileOff / bs)
          match if diskBlock = 0 then some Mem.zero
              else (preadBytesAt d (diskBlock * bs + inBlock) chunk).toOption with
          | none => ([], false)
          | some buf =>
              let rest := fReadLoop d bs di pos n fuel (done + chunk)
              (buf.toList 0 chunk ++ rest.1, rest.2)
      else ([], true)

/-- `f_read` of at most `n` bytes at position `pos` of the file with inode `ino`: the bytes
and the new position, or nothing when it returns -1. A device read that fails after some
bytes leaves the position alone. -/
def fRead (d : Vblk) (ino n pos : Nat) : Option (List UInt8 × Nat) :=
  (ext2ReadLayout d).bind (fun lo =>
    (ext2ReadInodeDisk d lo ino).bind (fun di =>
      if di.iSize ≤ pos ∨ n = 0 then some ([], pos)
      else
        let n := min n (di.iSize - pos)
        match fReadLoop d lo.blockSize di pos n n 0 with
        | (bytes, true) => some (bytes, pos + bytes.length)
        | ([], false) => none
        | (bytes, false) => some (bytes, pos)))

/-- Call `f_read` with one buffer size after the other, each call going on where the last one
stopped, until it returns 0. -/
def fReadAll (d : Vblk) (ino : Nat) : (fuel : Nat) → (sizes : Nat → Nat) → (pos : Nat) →
    Option (List UInt8)
  | 0, _, _ => none
  | fuel + 1, sizes, pos =>
      match fRead d ino (sizes 0) pos with
      | none => none
      | some (bytes, pos') =>
          if bytes = [] then some []
          else (fReadAll d ino fuel (fun i => sizes (i + 1)) pos').map (bytes ++ ·)

end Guppy.Ext2
