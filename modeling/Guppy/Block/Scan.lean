import Guppy.Block.Vblk

set_option autoImplicit false

/-! # Scanning partitions

`src/blkdev.c` looks for a partition table on a whole disk and registers one child for each
partition: first an MBR with its chain of extended boot records, then a GPT when the MBR is
protective or there is none.

The loop over the chain does not stop when an extended boot record without a partition links
to itself; here it runs on fuel, and a scan that runs out has no result.
-/

namespace Guppy.Block

open Vfs

/-- The first and the last sector of a partition. -/
abbrev Span := Nat × Nat

/-- `MAX_PARTS`. -/
def maxParts : Nat := 128

/-! ## Master and extended boot records -/

/-- `sec[510] == 0x55 && sec[511] == 0xAA` -/
def bootSig (sec : Mem) : Bool := sec 510 = 0x55 ∧ sec 511 = 0xAA

/-- The fields of slot `i` of a boot record that the scan reads. -/
def slotType (sec : Mem) (i : Nat) : Nat := (sec (446 + 16 * i + 4)).toNat
def slotLba (sec : Mem) (i : Nat) : Nat := sec.rd32 (446 + 16 * i + 8)
def slotCount (sec : Mem) (i : Nat) : Nat := sec.rd32 (446 + 16 * i + 12)

def isExtended (type : Nat) : Bool := type = 0x05 ∨ type = 0x0F ∨ type = 0x85

/-- The logical partition of the extended boot record at `ebrLba`, if there is one. -/
def ebrLogical (ebrLba : Nat) (sec : Mem) : List Span :=
  if slotType sec 0 ≠ 0 ∧ slotCount sec 0 ≠ 0 then
    [(ebrLba + slotLba sec 0, ebrLba + slotLba sec 0 + slotCount sec 0 - 1)]
  else []

/-- `scan_ebr_chain`, with the partitions found so far. -/
def scanEbrChain (io : Diskio) (dev : Vblk) (extBase : Nat) :
    (fuel ebrLba : Nat) → List Span → Option (List Span)
  | 0, _, _ => none
  | fuel + 1, ebrLba, found =>
      if found.length < maxParts then
        match vblkReadBlock io dev ebrLba with
        | none => some found
        | some sec =>
            if bootSig sec = false then some found
            else if isExtended (slotType sec 1) then
              scanEbrChain io dev extBase fuel ((extBase + slotLba sec 1) % uint32)
                (found ++ ebrLogical ebrLba sec)
            else some (found ++ ebrLogical ebrLba sec)
      else some found

/-- What `scan_mbr` returns: the partitions, or that the MBR is protective. -/
inductive MbrScan
  | parts (found : List Span)
  | protective

/-- The slots `i`, `i + 1`, ... of `scan_mbr`. The end of a primary partition is computed in
32 bits. -/
def scanMbrFrom (io : Diskio) (dev : Vblk) (fuel : Nat) (mbr : Mem) :
    (count i : Nat) → List Span → Option MbrScan
  | 0, _, found => some (.parts found)
  | count + 1, i, found =>
      if slotType mbr i = 0 ∨ slotCount mbr i = 0 then
        scanMbrFrom io dev fuel mbr count (i + 1) found
      else if slotType mbr i = 0xEE then some .protective
      else if isExtended (slotType mbr i) then do
        let found ← scanEbrChain io dev (slotLba mbr i) fuel (slotLba mbr i) found
        scanMbrFrom io dev fuel mbr count (i + 1) found
      else if found.length < maxParts then
        scanMbrFrom io dev fuel mbr count (i + 1)
          (found ++ [(slotLba mbr i, (slotLba mbr i + slotCount mbr i - 1) % uint32)])
      else scanMbrFrom io dev fuel mbr count (i + 1) found

/-- `scan_mbr`. -/
def scanMbr (io : Diskio) (dev : Vblk) (fuel : Nat) : Option MbrScan :=
  match vblkReadBlock io dev 0 with
  | none => some (.parts [])
  | some mbr => if bootSig mbr = false then some (.parts []) else scanMbrFrom io dev fuel mbr 4 0 []

/-! ## GPT -/

/-- An entry of `crc32_table`. -/
def crcEntry (i : Nat) : Nat :=
  (List.range 8).foldl (fun c _ => if c % 2 = 1 then 0xEDB88320 ^^^ (c / 2) else c / 2) i

/-- The loop of `crc32_calc` over the bytes `i`, `i + 1`, ... -/
def crcFrom (p : Mem) : (count i c : Nat) → Nat
  | 0, _, c => c
  | count + 1, i, c => crcFrom p count (i + 1) (crcEntry ((c ^^^ (p i).toNat) % 256) ^^^ (c / 256))

/-- `crc32_calc`. -/
def crc32Calc (p : Mem) (len : Nat) : Nat := crcFrom p len 0 0xFFFFFFFF ^^^ 0xFFFFFFFF

/-- `gpt_hdr_t`. -/
abbrev GptHdr := Mem

namespace GptHdr

/-- `sizeof(gpt_hdr_t)`. -/
def size : Nat := 92

/-- `"EFI PART"` -/
def signature : Text := [0x45, 0x46, 0x49, 0x20, 0x50, 0x41, 0x52, 0x54]

def headerSize (h : GptHdr) : Nat := h.rd32 12
def headerCrc (h : GptHdr) : Nat := h.rd32 16
def currentLba (h : GptHdr) : Nat := h.rd64 24
def backupLba (h : GptHdr) : Nat := h.rd64 32
def firstUsableLba (h : GptHdr) : Nat := h.rd64 40
def lastUsableLba (h : GptHdr) : Nat := h.rd64 48
def entriesLba (h : GptHdr) : Nat := h.rd64 72
def numEntries (h : GptHdr) : Nat := h.rd32 80
def entrySize (h : GptHdr) : Nat := h.rd32 84
def entriesCrc (h : GptHdr) : Nat := h.rd32 88

end GptHdr

/-- `sizeof(gpt_ent_t)`. -/
def gptEntSize : Nat := 128

/-- `ENTRIES_MAX_BYTES`. -/
def entriesMaxBytes : Nat := 8 * 1024 * 1024

/-- The checks on the fields of a header that the scanner and the `gpt` command share. -/
def gptFieldsOk (h : GptHdr) (totalLbas : Nat) : Bool :=
  ¬ (h.headerSize < 92 ∨ h.entrySize < gptEntSize ∨ h.numEntries = 0 ∨ 4096 < h.numEntries) ∧
  (totalLbas = 0 ∨
    (h.currentLba < totalLbas ∧ h.backupLba < totalLbas ∧
      h.lastUsableLba < totalLbas ∧ h.entriesLba < totalLbas))

/-- The checksum of a header in which the checksum field counts as zero. -/
def gptHeaderCrc (hdr : Mem) (len : Nat) : Nat := crc32Calc (hdr.write 16 4 Mem.zero) len

/-- The bytes that the checksum of a header is over: of the sector, or read again when the
header is longer. -/
def gptHdrBuf (io : Diskio) (dev : Vblk) (hdrLba : Nat) (sec : Mem) (len : Nat) : Option Mem :=
  if len ≤ 512 then some sec else vblkReadBytes io dev (hdrLba * lsec % uint64) len

/-- The entries of a header fit in memory and on the disk. -/
def gptEntriesFit (h : GptHdr) (totalLbas : Nat) : Bool :=
  let bytes := h.numEntries * h.entrySize
  bytes ≠ 0 ∧ bytes ≤ entriesMaxBytes ∧
    (totalLbas = 0 ∨ (h.entriesLba * lsec + bytes) % uint64 ≤ totalLbas * lsec % uint64)

/-- `gpt_validate_at`: the header at `hdrLba` when it and the entries it points to are good. -/
def gptValidateAt (io : Diskio) (dev : Vblk) (totalLbas hdrLba : Nat) : Option GptHdr := do
  let sec ← vblkReadBlock io dev hdrLba
  guard (sec.toList 0 8 = GptHdr.signature)
  let h : GptHdr := sec.slice 0 GptHdr.size
  guard (gptFieldsOk h totalLbas = true)
  let hdrbuf ← gptHdrBuf io dev hdrLba sec h.headerSize
  guard (gptHeaderCrc hdrbuf h.headerSize = h.headerCrc)
  guard (gptEntriesFit h totalLbas = true)
  let buf ← vblkReadBytes io dev (h.entriesLba * lsec % uint64) (h.numEntries * h.entrySize)
  guard (crc32Calc buf (h.numEntries * h.entrySize) = h.entriesCrc)
  some h

/-- `gpt_ent_t`: the fields of the entry at an offset of the array. -/
def entEmpty (buf : Mem) (o : Nat) : Bool := (buf.toList o 16).all (· = 0)
def entFirstLba (buf : Mem) (o : Nat) : Nat := buf.rd64 (o + 32)
def entLastLba (buf : Mem) (o : Nat) : Nat := buf.rd64 (o + 40)

/-- The loop of `scan_gpt` over the entries `i`, `i + 1`, ... -/
def scanGptFrom (buf : Mem) (entrySize totalLbas : Nat) :
    (count i : Nat) → List Span → List Span
  | 0, _, found => found
  | count + 1, i, found =>
      let o := i * entrySize
      if found.length < maxParts then
        if entEmpty buf o = true ∨ entLastLba buf o < entFirstLba buf o ∨
            (totalLbas ≠ 0 ∧ totalLbas ≤ entLastLba buf o) then
          scanGptFrom buf entrySize totalLbas count (i + 1) found
        else
          scanGptFrom buf entrySize totalLbas count (i + 1)
            (found ++ [(entFirstLba buf o, entLastLba buf o)])
      else found

/-- The header that `scan_gpt` uses: the primary one, else the backup that LBA 1 points to. -/
def gptHeader (io : Diskio) (dev : Vblk) (totalLbas : Nat) : Option GptHdr :=
  match gptValidateAt io dev totalLbas 1 with
  | some h => some h
  | none => do
      let sec ← vblkReadBlock io dev 1
      guard (sec.toList 0 8 = GptHdr.signature)
      gptValidateAt io dev totalLbas (sec.rd64 32)

/-- `scan_gpt`; nothing is found where the source returns 0. -/
def scanGpt (io : Diskio) (dev : Vblk) (totalLbas : Nat) : List Span :=
  match gptHeader io dev totalLbas with
  | none => []
  | some h =>
      match vblkReadBytes io dev (h.entriesLba * lsec % uint64) (h.numEntries * h.entrySize) with
      | none => []
      | some buf => scanGptFrom buf h.entrySize totalLbas h.numEntries 0 []

/-! ## Children -/

/-- `sort_pairs`: the inner loop for one `i` moves the smallest start to the front, exchanging
it with each smaller one on the way. -/
def sortInner (x : Span) : List Span → Span × List Span
  | [] => (x, [])
  | y :: ys =>
      if y.1 < x.1 then
        let (m, rest) := sortInner y ys
        (m, x :: rest)
      else
        let (m, rest) := sortInner x ys
        (m, y :: rest)

/-- `sort_pairs`; the length is fuel enough. -/
def sortPairs : (fuel : Nat) → List Span → List Span
  | 0, l => l
  | _, [] => []
  | fuel + 1, x :: xs =>
      let (m, rest) := sortInner x xs
      m :: sortPairs fuel rest

/-- `"%d"` -/
def decimal (n : Nat) : Text := (Nat.toDigits 10 n).map (fun c => UInt8.ofNat c.toNat)

def mbrKind : Text := [109, 98, 114]
def gptKind : Text := [103, 112, 116]

/-- The child that `register_child` builds. -/
def childOf (parent : Vblk) (parentName : Text) (nth : Nat) (span : Span) (kind : Text) : Vblk :=
  { name := (parentName ++ decimal nth).take 31
    dev := parent.dev
    partIndex := nth
    fstype := kind
    lbaStart := span.1
    lbaSize := (span.2 - span.1 + 1) % uint64
    blockBytes := if parent.blockBytes ≠ 0 then parent.blockBytes else lsec
    ro := parent.ro }

/-- `register_child`; the registry stays as it is where the source returns an error. The
parent is read from its slot, `slot`. -/
def registerChild (slot : Nat) (parentName : Text) (kind : Text) (nth : Nat) (span : Span)
    (reg : Registry) : Registry :=
  if span.2 < span.1 then reg
  else
    (vblkRegister reg (childOf (reg.getD slot Vblk.empty) parentName nth span kind)).getD reg

/-- The loop that registers the children `nth`, `nth + 1`, ... -/
def registerChildren (slot : Nat) (parentName kind : Text) : Nat → List Span → Registry → Registry
  | _, [], reg => reg
  | nth, span :: spans, reg =>
      registerChildren slot parentName kind (nth + 1) spans
        (registerChild slot parentName kind nth span reg)

/-- The partitions that `disk_scan_partitions` registers and the kind of table they are from. -/
def findPartitions (io : Diskio) (parent : Vblk) (fuel : Nat) : Option (List Span × Text) := do
  let totalLbas := vblkSizeBytes io parent / lsec
  let mbr ← scanMbr io parent fuel
  match mbr with
  | .parts [] => some (scanGpt io parent totalLbas, gptKind)
  | .parts found => some (found, mbrKind)
  | .protective => some (scanGpt io parent totalLbas, gptKind)

/-- `disk_scan_partitions`, as what it does to the registry; no result when the chain of
extended boot records does not end within the fuel. -/
def diskScanPartitions (io : Diskio) (reg : Registry) (name : Text) (fuel : Nat) :
    Option Registry :=
  match findByName reg name with
  | none => some reg
  | some slot => do
      let reg := vblkRemoveChildren reg name
      let (spans, kind) ← findPartitions io (reg.getD slot Vblk.empty) fuel
      some (registerChildren slot name kind 1 (sortPairs spans.length spans) reg)

end Guppy.Block
