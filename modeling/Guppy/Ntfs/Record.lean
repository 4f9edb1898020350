import Guppy.Lib.Bytes
import Guppy.Ntfs.Run

set_option autoImplicit false

/-! # FILE records

The record builder of `src/mkfs_ntfs_core.c`: `ntfs_record_init` writes the header, each attribute goes behind the
last one, and `ntfs_record_finish` adds the end marker and replaces the last two bytes of every sector by the
update sequence number, with the bytes that stood there kept in the array behind the header.

A reader undoes the replacement (`restoreUsa`) and goes through the attributes by their lengths (`parseAttributes`);
both follow the checker in `tests/ntfs-check`.
-/

namespace Guppy.Ntfs

/-- `NTFS_ATTR_END` -/
def attrEnd : Nat := 0xFFFFFFFF

/-- `NTFS_ATTR_DATA` -/
def attrData : Nat := 0x80

/-- `layout_t` -/
structure Layout where
  bps : Nat
  spc : Nat
  totalSectors : Nat
  lbaOff : Nat
  mftLcn : Nat
  mftmirrLcn : Nat
  bytesPerCluster : Nat
  bytesPerMftrec : Nat
  deriving DecidableEq

/-- `ntfs_record_builder_t` -/
structure RecordBuilder where
  buf : Mem
  recBytes : Nat
  sectorBytes : Nat
  usaOfs : Nat
  usaCount : Nat
  attrCursor : Nat
  nextAttrId : Nat
  recNo : Nat

/-- `align8_u16` -/
def align8U16 (v : Nat) : Nat := (v + 7) / 8 * 8 % 65536

/-! ## The builder -/

/-- `"FILE"` -/
def magicFile : List UInt8 := [0x46, 0x49, 0x4c, 0x45]

/-- `ntfs_record_init` -/
def ntfsRecordInit (L : Layout) (recNo : Nat) (directory : Bool) : Option RecordBuilder :=
  if L.bytesPerMftrec ≠ 1024 ∨ L.bps = 0 ∨ 1024 % L.bps ≠ 0 then none
  else
    let usaCount := (1 + 1024 / L.bps) % 65536
    let attrCursor := align8U16 ((0x30 + usaCount * 2) % 65536)
    let flags := if directory then 3 else 1
    some {
      buf := (((((((Mem.zero.write 0 4 (Mem.ofList magicFile)).wr16 4 0x30).wr16 6 usaCount).wr16 16 1).wr16 18 1).wr16 20
        attrCursor).wr16 22 flags).wr32 28 1024 |>.wr32 44 recNo
      recBytes := 1024
      sectorBytes := L.bps
      usaOfs := 0x30
      usaCount := usaCount
      attrCursor := attrCursor
      nextAttrId := 0
      recNo := recNo }

/-- `ntfs_resident_attr_t` -/
def residentAttr (type : UInt32) (attrLen id valueLen : Nat) : Mem :=
  ((((Mem.zero.wr32 0 type.toNat).wr32 4 attrLen).wr16 14 id).wr32 16 valueLen).wr16 20 24

/-- The length of an attribute with so many bytes in front of the padding, in 32 bits. -/
def attrLength (raw : Nat) : Nat := (raw % 2 ^ 32 + 7) % 2 ^ 32 / 8 * 8

/-- `ntfs_record_add_resident_attr` -/
def ntfsRecordAddResidentAttr (b : RecordBuilder) (type : UInt32) (value : List UInt8) : Option RecordBuilder :=
  let attrLen := attrLength (24 + value.length)
  if (b.attrCursor + attrLen + 8) % 2 ^ 32 > b.recBytes then none
  else some { b with
    buf := (b.buf.write b.attrCursor 24 (residentAttr type attrLen b.nextAttrId value.length)).write (b.attrCursor + 24)
      value.length (Mem.ofList value)
    attrCursor := (b.attrCursor + attrLen) % 65536
    nextAttrId := (b.nextAttrId + 1) % 65536 }

/-- `ntfs_nonresident_attr_t` -/
def nonresidentAttr (attrLen id : Nat) (clusters allocated data initialized : UInt64) : Mem :=
  (((((((Mem.zero.wr32 0 attrData).wr32 4 attrLen).wr8 8 1).wr16 14 id).wr64 24 (clusters - 1).toNat).wr16 32 64).wr64 40
    allocated.toNat).wr64 48 data.toNat |>.wr64 56 initialized.toNat

/-- `ntfs_record_add_nonresident_data` -/
def ntfsRecordAddNonresidentData (b : RecordBuilder) (startLcn clusters allocated data initialized : UInt64) :
    Option RecordBuilder :=
  match ntfsEncodeSingleRun 24 clusters startLcn.toInt64 with
  | none => none
  | some run =>
      let attrLen := attrLength (64 + run.length)
      if (b.attrCursor + attrLen + 8) % 2 ^ 32 > b.recBytes then none
      else some { b with
        buf := (b.buf.write b.attrCursor 64 (nonresidentAttr attrLen b.nextAttrId clusters allocated data
          initialized)).write (b.attrCursor + 64) run.length (Mem.ofList run)
        attrCursor := (b.attrCursor + attrLen) % 65536
        nextAttrId := (b.nextAttrId + 1) % 65536 }

/-- The loop over the sectors: the end of a sector goes to the array, and the update sequence number takes its place. -/
def substitute (usaOfs sectorBytes usn : Nat) : (count i : Nat) → Mem → Mem
  | 0, _, p => p
  | n + 1, i, p =>
      let tail := i * sectorBytes - 2
      substitute usaOfs sectorBytes usn n (i + 1) ((p.write (usaOfs + 2 * i) 2 (p.slice tail 2)).wr16 tail usn)

/-- The record before the substitution: the end marker and the sizes are in. -/
def closeRecord (b : RecordBuilder) : Option RecordBuilder :=
  if (b.attrCursor + 4) % 2 ^ 32 > b.recBytes then none
  else
    let cursor := align8U16 ((b.attrCursor + 4) % 65536)
    some { b with
      buf := ((b.buf.wr32 b.attrCursor attrEnd).wr32 24 cursor).wr16 40 b.nextAttrId
      attrCursor := cursor }

/-- The update sequence number of a record. -/
def usnOf (recNo : Nat) : Nat := 0xA000 ||| (recNo + 1) % 2 ^ 32 % 4096

/-- `ntfs_record_finish` -/
def ntfsRecordFinish (b : RecordBuilder) : Option RecordBuilder :=
  (closeRecord b).map fun c => { c with
    buf := substitute c.usaOfs c.sectorBytes (usnOf c.recNo) (c.usaCount - 1) 1 (c.buf.wr16 c.usaOfs (usnOf c.recNo)) }

/-! ## The reader -/

/-- The ends of sectors put back from the array. -/
def restoreTails (usaOfs sectorBytes : Nat) (raw : Mem) : (count i : Nat) → Mem → Option Mem
  | 0, _, p => some p
  | n + 1, i, p =>
      let tail := i * sectorBytes - 2
      if raw.rd16 tail ≠ raw.rd16 usaOfs then none
      else restoreTails usaOfs sectorBytes raw n (i + 1) (p.write tail 2 (raw.slice (usaOfs + 2 * i) 2))

/-- The update sequence of a record of 1024 bytes undone. -/
def restoreUsa (sectorBytes : Nat) (raw : Mem) : Option Mem :=
  let usaOfs := raw.rd16 4
  let usaCount := raw.rd16 6
  if raw.toList 0 4 ≠ magicFile ∨ usaCount < 2 ∨ usaOfs < 8 ∨ 1024 < usaOfs + usaCount * 2 ∨
      (usaCount - 1) * sectorBytes ≠ 1024 ∨ raw.rd16 usaOfs = 0 then none
  else restoreTails usaOfs sectorBytes raw (usaCount - 1) 1 raw

/-- The attributes from `off` on, each with all its bytes, and the offset of the end marker. -/
def parseFrom (p : Mem) (used : Nat) : (fuel off : Nat) → Option (List (List UInt8) × Nat)
  | 0, _ => none
  | fuel + 1, off =>
      if used < off + 4 then none
      else if p.rd32 off = attrEnd then some ([], off)
      else
        let len := p.rd32 (off + 4)
        if used < off + 16 ∨ len < 24 ∨ len % 8 ≠ 0 ∨ used < off + len then none
        else (parseFrom p used fuel (off + len)).map fun (rest, stop) => (p.toList off len :: rest, stop)

/-- The attributes of a record, from `attr_ofs` on and within the bytes in use. -/
def parseAttributes (p : Mem) : Option (List (List UInt8) × Nat) :=
  parseFrom p (p.rd32 24) (p.rd32 24 + 1) (p.rd16 20)

/-! ## Sequences of attributes -/

/-- An attribute as the functions that add one are given it. -/
inductive Attr
  | resident (type : UInt32) (value : List UInt8)
  | nonresidentData (startLcn clusters allocated data initialized : UInt64)

def addAttr (b : RecordBuilder) : Attr → Option RecordBuilder
  | .resident type value => ntfsRecordAddResidentAttr b type value
  | .nonresidentData startLcn clusters allocated data initialized =>
      ntfsRecordAddNonresidentData b startLcn clusters allocated data initialized

def addAttrs : RecordBuilder → List Attr → Option RecordBuilder
  | b, [] => some b
  | b, a :: l => (addAttr b a).bind fun b' => addAttrs b' l

/-- An attribute whose type is not that of the end marker and whose value is no longer than a record. -/
def Attr.Proper : Attr → Prop
  | .resident type value => type ≠ 0xFFFFFFFF ∧ value.length ≤ 1024
  | .nonresidentData _ _ _ _ _ => True

/-- The bytes of the attribute that gets the number `id`: header, value and padding. -/
def Attr.image (id : Nat) : Attr → List UInt8
  | .resident type value =>
      (residentAttr type (attrLength (24 + value.length)) id value.length).toList 0 24 ++ value ++
        List.replicate (attrLength (24 + value.length) - (24 + value.length)) 0
  | .nonresidentData startLcn clusters allocated data initialized =>
      let run := (ntfsEncodeSingleRun 24 clusters startLcn.toInt64).getD []
      (nonresidentAttr (attrLength (64 + run.length)) id clusters allocated data initialized).toList 0 64 ++ run ++
        List.replicate (attrLength (64 + run.length) - (64 + run.length)) 0

/-- The bytes of attributes with the numbers from `id` on. -/
def images : Nat → List Attr → List (List UInt8)
  | _, [] => []
  | id, a :: l => a.image id :: images (id + 1) l

end Guppy.Ntfs
