import Guppy.Ext2.Disk
import Mathlib.Data.List.DropRight

set_option autoImplicit false

/-! # Directories and paths

A directory block is a chain of records. The functions of `src/ext2.c` that walk it stop at
the first record that is too short or runs over the block, so what they visit is a list of
positions, `positions`; each of them looks for the first position of some kind.
-/

namespace Guppy.Ext2

open Prog Vfs

/-! ## Records -/

def deInode (blk : Mem) (pos : Nat) : Nat := blk.rd32 pos
def deRecLen (blk : Mem) (pos : Nat) : Nat := blk.rd16 (pos + 4)
def deNameLen (blk : Mem) (pos : Nat) : Nat := (blk (pos + 6)).toNat
def deFileType (blk : Mem) (pos : Nat) : Nat := (blk (pos + 7)).toNat
def deName (blk : Mem) (pos : Nat) : Text := blk.toList (pos + 8) (deNameLen blk pos)

/-- `dirent_min_rec_len`. -/
def direntMinRecLen (nameLen : Nat) : Nat := (nameLen + 11) / 4 * 4

/-- Fill in a record: its inode, length, name and type. -/
def putDirent (blk : Mem) (pos ino recLen fileType : Nat) (name : Text) : Mem :=
  ((((blk.wr32 pos ino).wr16 (pos + 4) recLen).wr8 (pos + 6) name.length).wr8 (pos + 7)
    fileType).write (pos + 8) name.length (Mem.ofList name)

/-- The positions that the walk over a block visits, from `pos` on. Every step is at least 8
bytes, so the block size is fuel enough. -/
def positionsFrom (bs : Nat) (blk : Mem) : (fuel pos : Nat) → List Nat
  | 0, _ => []
  | fuel + 1, pos =>
      if pos + 8 ≤ bs ∧ ¬ (deRecLen blk pos < 8 ∨ bs < pos + deRecLen blk pos) then
        pos :: positionsFrom bs blk fuel (pos + deRecLen blk pos)
      else []

def positions (bs : Nat) (blk : Mem) : List Nat := positionsFrom bs blk bs 0

/-- `de->inode && de->name_len == want && memcmp(de->name, name, want) == 0` -/
def deMatches (name : Text) (blk : Mem) (pos : Nat) : Bool :=
  deInode blk pos ≠ 0 ∧ deNameLen blk pos = name.length ∧ deName blk pos = name

/-- The blocks of a directory: `i_block[0]`, `i_block[1]`, ... up to the first zero, at most
twelve. -/
def dirBlocks (dir : Inode) : List Nat := ((List.range 12).map dir.iBlock).takeWhile (· ≠ 0)

/-- Go through the blocks of a directory until the walk over one of them stops at a record
of the wanted kind. The result is the block, its bytes and what `pick` found there. -/
def findBlock {α : Type} (d : Vblk) (bs : Nat) (code : Int) (pick : Mem → Option α) :
    List Nat → Except Int (Option (Nat × Mem × α))
  | [] => .ok none
  | b :: blocks => do
      let blk ← orCode (preadBlock d bs b bs) code
      match pick blk with
      | some a => .ok (some (b, blk, a))
      | none => findBlock d bs code pick blocks

/-- `ext2_find_entry_at`: inode and type of the entry, when there is one. -/
def ext2FindEntryAt (d : Vblk) (m : Ext2Meta) (dirIno : Nat) (name : Text) :
    Except Int (Option (Nat × Nat)) := do
  check (name = []) (-1)
  let dir : Inode ← orCode (ext2ReadInodeAt d m dirIno) (-2)
  check (ifmt dir.iMode ≠ sIfdir) (-3)
  check (255 < name.length) (-4)
  check (4096 < m.blockSize) (-5)
  let found ← findBlock d m.blockSize (-6)
    (fun blk => (positions m.blockSize blk).find? (deMatches name blk)) (dirBlocks dir)
  .ok (found.map (fun f => (deInode f.2.1 f.2.2, deFileType f.2.1 f.2.2)))

/-! ## Paths -/

/-- The names of a path, with `cur` as what has been read of the current one. -/
def componentsAux (cur : Text) : Text → List Text
  | [] => if cur = [] then [] else [cur]
  | c :: t =>
      if c = slash then (if cur = [] then componentsAux [] t else cur :: componentsAux [] t)
      else componentsAux (cur ++ [c]) t

/-- The names between the slashes of a path. -/
def components (path : Text) : List Text := componentsAux [] path

/-- Look up one name after the other. -/
def lookupNames (d : Vblk) (m : Ext2Meta) : Nat → List Text → Except Int Nat
  | cur, [] => .ok cur
  | cur, name :: names =>
      match ext2FindEntryAt d m cur name with
      | .ok (some (next, _)) => lookupNames d m next names
      | _ => .error (-3)

/-- `ext2_resolve_path_at`. -/
def ext2ResolvePathAt (d : Vblk) (m : Ext2Meta) (path : Text) : Except Int Nat :=
  let p := path.dropWhile (· = slash)
  if p = [] then .ok 2
  else if 512 ≤ p.length then .error (-2)
  else lookupNames d m 2 (components p)

/-- `split_parent_name`: the parent and the last name. -/
def splitParentName (path : Text) : Except Int (Text × Text) := do
  let p := (path.dropWhile (· = slash)).rdropWhile (· = slash)
  check (p = [] ∨ 512 ≤ p.length) (-2)
  let name := p.rtakeWhile (· ≠ slash)
  check (255 < name.length) (-3)
  .ok ((p.rdropWhile (· ≠ slash)).dropLast, name)

end Guppy.Ext2
