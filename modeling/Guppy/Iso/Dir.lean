import Guppy.Vfs.Path

set_option autoImplicit false

/-! # Directories of an ISO 9660 image

`src/iso9660_walk.c` looks a name up in a directory extent, and `iso_dir_getdents64` of
`src/vfs_iso.c` lists the directory. A directory is a run of sectors of 2048 bytes. A record
starts with its length and never crosses the end of a sector; what is left of a sector after its
last record is filled with zeros.

The two loops share the decoding of a record's name, `isoDirRecordName`, and nothing else. The
lookup counts the bytes of the records down from the size of the directory, and the listing goes
by positions.
-/

namespace Guppy.Iso

open Vfs

/-- `ISO_SECTOR_SIZE`. -/
def sectorSize : Nat := 2048

/-- `iso9660_t`: the sectors of the image that can be read, and whether the records have system
use areas. -/
structure Image where
  read : UInt32 → Option (List UInt8)
  suspEnabled : Bool
  suspSkip : Nat
  size : ∀ {lba : UInt32} {s : List UInt8}, read lba = some s → s.length = sectorSize

/-! ## Records

A record is given with the rest of its sector. -/

def byteAt (r : List UInt8) (i : Nat) : Nat := (r.getD i 0).toNat

/-- `u32le` -/
def u32At (r : List UInt8) (i : Nat) : Nat :=
  byteAt r i + 256 * byteAt r (i + 1) + 65536 * byteAt r (i + 2) + 16777216 * byteAt r (i + 3)

def recLen (r : List UInt8) : Nat := byteAt r 0

/-- The text that a buffer holds for a C function. -/
def cText (t : Text) : Text := t.takeWhile (· ≠ 0)

def toLower (c : UInt8) : UInt8 := if 65 ≤ c ∧ c ≤ 90 then c + 32 else c

/-- `to_upper_ascii` -/
def toUpperAscii (c : UInt8) : UInt8 := if 97 ≤ c ∧ c ≤ 122 then c - 32 else c

/-- `iso_normalize_name` into a buffer of 256 bytes. -/
def isoNormalizeName (raw : Text) : Text := ((raw.takeWhile (· ≠ 59)).take 255).map toLower

/-- `names_equal_ci` -/
def namesEqualCi (a b : Text) : Bool := a.map toLower = b.map toLower

/-- `iso_sua_offset` -/
def isoSuaOffset (r : List UInt8) : Nat :=
  33 + byteAt r 32 + (if byteAt r 32 % 2 = 0 then 1 else 0)

/-- The loop of `iso_dir_record_name` over the system use entries; `acc` is the name put together
from the `NM` entries so far. -/
def rrName (r : List UInt8) : Nat → Nat → Option Text → Option Text
  | 0, _, acc => acc
  | fuel + 1, pos, acc =>
      if recLen r < pos + 4 then acc
      else
        let slen := byteAt r (pos + 2)
        if slen < 4 ∨ recLen r < pos + slen then acc
        else if byteAt r pos = 78 ∧ byteAt r (pos + 1) = 77 ∧ 5 ≤ slen then
          let flags := byteAt r (pos + 4)
          if flags.testBit 1 = true then some [46]
          else if flags.testBit 2 = true then some [46, 46]
          else
            let acc := (acc.getD [] ++ (r.drop (pos + 5)).take (slen - 5)).take 255
            if flags.testBit 0 = true then rrName r fuel (pos + slen) (some acc) else some acc
        else rrName r fuel (pos + slen) acc

/-- The Rock Ridge name of a record, if it has one. -/
def rockRidgeName (iso : Image) (r : List UInt8) : Option Text :=
  if iso.suspEnabled = true ∧ isoSuaOffset r ≤ recLen r ∧ isoSuaOffset r + iso.suspSkip ≤ recLen r then
    rrName r (recLen r) (isoSuaOffset r + iso.suspSkip) none
  else none

/-- `iso_dir_record_name` with a buffer of 256 bytes: the name, and whether it is a Rock Ridge
name. -/
def isoDirRecordName (iso : Image) (r : List UInt8) : Option (Text × Bool) :=
  if recLen r < 34 ∨ recLen r < 33 + byteAt r 32 then none
  else if byteAt r 32 = 1 ∧ byteAt r 33 = 0 then some ([46], false)
  else if byteAt r 32 = 1 ∧ byteAt r 33 = 1 then some ([46, 46], false)
  else
    match rockRidgeName iso r with
    | some name => some (cText name, true)
    | none =>
        let name := cText (isoNormalizeName ((r.drop 33).take (byteAt r 32)))
        if name = [] then none else some (name, false)

/-- The records of the directory itself and of its parent. -/
def isSpecial (r : List UInt8) : Bool := byteAt r 32 = 1 ∧ (byteAt r 33 = 0 ∨ byteAt r 33 = 1)

/-! ## Looking a name up -/

/-- What `iso_walk_component` returns of a record. The other results (times, permissions, the
target of a link) are read from the same record. -/
structure Child where
  lba : Nat
  size : Nat
  flags : Nat
  deriving DecidableEq

def childOf (r : List UInt8) : Child := ⟨u32At r 2, u32At r 10, byteAt r 25⟩

inductive WalkResult
  | found (c : Child)
  | absent
  | failed
  | running
  deriving DecidableEq

/-- How the inner loop ends: with a result, or with the number of bytes left. -/
inductive SectorWalk
  | done (r : WalkResult)
  | next (left : Nat)

/-- The name of a record is the one that is looked for. -/
def nameMatch (want : Text) (name : Text × Bool) : Bool :=
  if name.2 = true then name.1 = want else namesEqualCi name.1 want

/-- The loop of `iso_walk_component` over the records of a sector. -/
def walkSector (iso : Image) (want : Text) (s : List UInt8) : Nat → Nat → Nat → SectorWalk
  | 0, _, left => .next left
  | fuel + 1, off, left =>
      if off < sectorSize ∧ 0 < left then
        let r := s.drop off
        if recLen r = 0 then .next left
        else if sectorSize < off + recLen r then .done .failed
        else if off + recLen r < 33 + byteAt r 32 then .done .failed
        else
          match isoDirRecordName iso r with
          | none => .done .failed
          | some name =>
              if isSpecial r = false ∧ nameMatch want name = true then .done (.found (childOf r))
              else walkSector iso want s fuel (off + recLen r) (left - recLen r)
      else .next left

/-- The loop over the sectors; `running` when the fuel is used up. -/
def walkSectors (iso : Image) (want : Text) : Nat → UInt32 → Nat → WalkResult
  | 0, _, _ => .running
  | fuel + 1, lba, left =>
      if left = 0 then .absent
      else
        match iso.read lba with
        | none => .failed
        | some s =>
            match walkSector iso want s (sectorSize + 1) 0 left with
            | .done r => r
            | .next left => walkSectors iso want fuel (lba + 1) left

/-- `iso_walk_component`. -/
def isoWalkComponent (iso : Image) (fuel : Nat) (dirLba dirSize : UInt32) (want : Text) : WalkResult :=
  walkSectors iso want fuel dirLba dirSize.toNat

/-! ## Listing a directory -/

/-- `vfs_dirent64_t` -/
structure Dirent where
  ino : Nat
  off : Nat
  reclen : Nat
  type : Nat
  name : Text
  deriving DecidableEq

/-- The entry for the record at a position. -/
def direntOf (iso : Image) (pos : Nat) (r : List UInt8) : Option Dirent :=
  (isoDirRecordName iso r).map (fun name =>
    let text := if name.2 = false ∧ isSpecial r = false then name.1.map toUpperAscii else name.1
    ⟨u32At r 2, pos + recLen r, (19 + text.length + 1 + 7) / 8 * 8,
      if (byteAt r 25).testBit 1 = true then 4 else 8, text⟩)

/-- The result of a call: what it returns, what is in the buffer, and the position of the file. -/
structure Listed where
  result : Int
  entries : List Dirent
  pos : Nat

/-- The loop of `iso_dir_getdents64`; `start` is the position of the file, which stays when a
sector cannot be read. -/
def getdentsLoop (iso : Image) (base : UInt32) (dsz bytes start : Nat) :
    Nat → Nat → Nat → List Dirent → Listed
  | 0, pos, written, out => ⟨written, out, pos⟩
  | fuel + 1, pos, written, out =>
      if pos < dsz then
        match iso.read (base + UInt32.ofNat (pos / sectorSize)) with
        | none => if 0 < written then ⟨written, out, start⟩ else ⟨-5, [], start⟩
        | some s =>
            let r := s.drop (pos % sectorSize)
            if recLen r = 0 ∨ sectorSize < pos % sectorSize + recLen r then
              getdentsLoop iso base dsz bytes start fuel (sectorSize * (pos / sectorSize + 1)) written out
            else
              match direntOf iso pos r with
              | none => getdentsLoop iso base dsz bytes start fuel (pos + recLen r) written out
              | some de =>
                  if bytes < written + de.reclen then ⟨written, out, pos⟩
                  else getdentsLoop iso base dsz bytes start fuel (pos + recLen r) (written + de.reclen)
                    (out ++ [de])
      else ⟨written, out, pos⟩

/-- `iso_dir_getdents64` on a file at position `pos`, with a buffer of `bytes` bytes. Every
iteration moves the position on. -/
def isoDirGetdents64 (iso : Image) (base dsz : UInt32) (bytes pos : Nat) : Listed :=
  if bytes < 21 then ⟨-22, [], pos⟩
  else getdentsLoop iso base dsz.toNat bytes pos (dsz.toNat + 1) pos 0 []

/-- Calling it again and again until it returns nothing. -/
def listDir (iso : Image) (base dsz : UInt32) (bytes : Nat) : Nat → Nat → List Dirent
  | 0, _ => []
  | fuel + 1, pos =>
      let l := isoDirGetdents64 iso base dsz bytes pos
      if l.result ≤ 0 then [] else l.entries ++ listDir iso base dsz bytes fuel l.pos

end Guppy.Iso
