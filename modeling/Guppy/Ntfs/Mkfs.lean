import Guppy.Lib.Bitmap
import Guppy.Ntfs.Record

set_option autoImplicit false

/-! # Formatting an NTFS volume

`mkfs_ntfs_core` of `src/mkfs_ntfs_core.c` writes two boot sectors, checks that its system files fit on the volume, and
then writes nine records of the MFT, the contents of the system files, the bitmap, and a copy of the first four
records.

The sizes of the host file and of the options have 64 bits and the cluster numbers of the options 32, so that no sum or
product of the layout reaches 2^64. The host file takes every write.
-/

namespace Guppy.Ntfs

/-- `mkfs_ntfs_opts_t` -/
structure MkfsNtfsOpts where
  lbaOffset : UInt32
  sizeBytes : UInt64
  bytesPerSec : UInt16
  secPerClus : UInt8
  mftStartClus : UInt32
  mftmirrClus : UInt32

/-- What a write is for. -/
inductive Part
  | boot
  | mft
  | mftMirr
  | bitmap
  | attrDef
  | logFile
  | backup
  deriving DecidableEq

structure Written where
  part : Part
  off : Nat
  len : Nat
  deriving DecidableEq

/-- The host file, with the writes made so far. -/
structure Disk where
  image : Mem
  log : List Written

def Disk.put (d : Disk) (part : Part) (off len : Nat) (src : Mem) : Disk where
  image := d.image.write off len src
  log := d.log ++ [⟨part, off, len⟩]

/-- `zero_region` -/
def zeroRegion (d : Disk) (part : Part) (off len : Nat) : Disk := d.put part off len Mem.zero

/-! ## Layout and boot sector -/

/-- The size of a sector. -/
def sectorBytes (o : MkfsNtfsOpts) : Nat := if o.bytesPerSec = 0 then 512 else o.bytesPerSec.toNat

/-- `plan_layout` -/
def planLayout (o : MkfsNtfsOpts) (totsec : Nat) : Layout where
  bps := sectorBytes o
  spc := if o.secPerClus = 0 then 8 else o.secPerClus.toNat
  totalSectors := totsec
  lbaOff := o.lbaOffset.toNat
  mftLcn := if o.mftStartClus = 0 then 4 else o.mftStartClus.toNat
  mftmirrLcn := if o.mftmirrClus = 0 then 8 else o.mftmirrClus.toNat
  bytesPerCluster := sectorBytes o * if o.secPerClus = 0 then 8 else o.secPerClus.toNat
  bytesPerMftrec := 1024

/-- `"NTFS    "` -/
def ntfsOem : List UInt8 := [0x4e, 0x54, 0x46, 0x53, 0x20, 0x20, 0x20, 0x20]

/-- `ntfs_bpb_t`, as `write_boot_sector` fills it -/
def bootSector (L : Layout) : Mem :=
  (((((((((((Mem.zero.write 0 3 (Mem.ofList [0xEB, 0x52, 0x90])).write 3 8 (Mem.ofList ntfsOem)).wr16 11 L.bps).wr8 13
    L.spc).wr8 21 0xF8).wr16 24 32).wr16 26 64).wr32 28 L.lbaOff).wr64 40 L.totalSectors).wr64 48 L.mftLcn).wr64 56
    L.mftmirrLcn).wr8 64 0xF6 |>.wr8 68 1 |>.wr64 72 0x1122334455667788 |>.wr16 510 0xAA55

/-- `write_boot_sector` -/
def writeBootSector (d : Disk) (L : Layout) : Disk :=
  (d.put .boot (L.lbaOff * L.bps) 512 (bootSector L)).put .backup ((L.lbaOff + (L.totalSectors - 1)) * L.bps) 512
    (bootSector L)

/-- The quotient rounded up, as the layout computes it. -/
def clustersFor (L : Layout) (bytes : Nat) : Nat := (bytes + L.bytesPerCluster - 1) / L.bytesPerCluster

def Layout.totalClusters (L : Layout) : Nat := L.totalSectors / L.spc
def Layout.mftClusters (L : Layout) : Nat := clustersFor L (16 * L.bytesPerMftrec)
def Layout.mirrorClusters (L : Layout) : Nat := clustersFor L (4 * L.bytesPerMftrec)
def Layout.bitmapBytes (L : Layout) : Nat := (L.totalClusters + 7) / 8
def Layout.bitmapLcn (L : Layout) : Nat := L.mftmirrLcn + L.mirrorClusters
def Layout.bitmapClusters (L : Layout) : Nat := clustersFor L L.bitmapBytes
def Layout.attrdefLcn (L : Layout) : Nat := L.bitmapLcn + L.bitmapClusters
def Layout.logfileLcn (L : Layout) : Nat := L.attrdefLcn + 1

/-- The offset of a cluster in the host file. -/
def Layout.byteOff (L : Layout) (lcn : Nat) : Nat := L.lbaOff * L.bps + lcn * L.bytesPerCluster

/-- The test of the layout. -/
def Layout.Fits (L : Layout) : Prop :=
  L.totalClusters ≠ 0 ∧ L.mftLcn + L.mftClusters ≤ L.mftmirrLcn ∧ L.logfileLcn + 16 < L.totalClusters

instance (L : Layout) : Decidable L.Fits := by
  unfold Layout.Fits
  infer_instance

/-! ## The records of the MFT -/

def ascii (s : String) : List UInt8 := s.toList.map fun c => UInt8.ofNat c.toNat

/-- `NTFS_FILE_ATTR_HIDDEN | NTFS_FILE_ATTR_SYSTEM` -/
def hiddenSystem : Nat := 6

/-- `make_standard_information` -/
def makeStandardInformation (fileAttrs : Nat) : List UInt8 :=
  List.replicate 32 0 ++ leBytes 4 fileAttrs ++ List.replicate 12 0

/-- `make_file_name`, with room for the longest name -/
def makeFileName (parentRef : Nat) (name : List UInt8) (fileAttrs : Nat) (directory : Bool) : Option (List UInt8) :=
  if name.length > 255 then none
  else some (leBytes 8 parentRef ++ List.replicate 48 0 ++
    leBytes 4 (if directory then fileAttrs ||| 0x10000000 else fileAttrs) ++ List.replicate 4 0 ++
    [UInt8.ofNat name.length, 1] ++ name.flatMap fun c => [c, 0])

/-- `ntfs_record_add_file_name` -/
def addFileName (b : RecordBuilder) (parentRef : Nat) (name : List UInt8) (fileAttrs : Nat) (directory : Bool) :
    Option RecordBuilder :=
  (makeFileName parentRef name fileAttrs directory).bind fun value => ntfsRecordAddResidentAttr b 0x30 value

/-- `ntfs_record_add_volume_metadata` -/
def addVolumeMetadata (b : RecordBuilder) : Option RecordBuilder :=
  (ntfsRecordAddResidentAttr b 0x60 [0x47, 0, 0x55, 0, 0x50, 0, 0x50, 0, 0x59, 0]).bind fun b =>
    ntfsRecordAddResidentAttr b 0x70 [0, 0, 0, 0, 0, 0, 0, 0, 3, 1, 0, 0]

/-- `ntfs_index_seed_t` -/
structure IndexSeed where
  recNo : Nat
  name : List UInt8
  fileAttrs : Nat
  directory : Bool

/-- The entries of the index from `cursor` on, in a value of 768 bytes. -/
def indexEntries : (cursor : Nat) → List IndexSeed → Option (List UInt8)
  | cursor, [] => if cursor + 16 > 768 then none else some []
  | cursor, e :: l =>
      (makeFileName 5 e.name e.fileAttrs e.directory).bind fun key =>
        let entryLen := (16 + key.length + 7) / 8 * 8
        if cursor + entryLen + 16 > 768 then none
        else (indexEntries (cursor + entryLen) l).map fun rest =>
          leBytes 8 (2 ^ 48 ||| e.recNo) ++ leBytes 2 entryLen ++ leBytes 2 key.length ++ leBytes 4 0 ++ key ++
            List.replicate (entryLen - (16 + key.length)) 0 ++ rest

/-- `ntfs_record_add_index_root` -/
def addIndexRoot (b : RecordBuilder) (L : Layout) (entries : List IndexSeed) : Option RecordBuilder :=
  (indexEntries 32 entries).bind fun bytes =>
    let used := 16 + bytes.length + 16
    ntfsRecordAddResidentAttr b 0x90 (leBytes 4 0x30 ++ leBytes 4 1 ++ leBytes 4 L.bytesPerCluster ++ [1, 0, 0, 0] ++
      leBytes 4 16 ++ leBytes 4 used ++ leBytes 4 used ++ [0, 0, 0, 0] ++ bytes ++
      (leBytes 8 0 ++ leBytes 2 16 ++ leBytes 2 0 ++ leBytes 4 2))

/-- `struct seed`; the data of a file are its first cluster, its clusters and its size. -/
structure Seed where
  recNo : Nat
  name : List UInt8
  directory : Bool
  data : Option (Nat × Nat × Nat)

/-- An attribute that only some records get. -/
def addIf (c : Prop) [Decidable c] (b : RecordBuilder) (add : RecordBuilder → Option RecordBuilder) :
    Option RecordBuilder := if c then add b else some b

def addSeedData (L : Layout) (s : Seed) (b : RecordBuilder) : Option RecordBuilder :=
  match s.data with
  | none => some b
  | some (lcn, clusters, size) =>
      let alloc := UInt64.ofNat (clusters * L.bytesPerCluster)
      ntfsRecordAddNonresidentData b (UInt64.ofNat lcn) (UInt64.ofNat clusters) alloc (UInt64.ofNat size) (UInt64.ofNat size)

/-- `root_index` -/
def rootIndex : List IndexSeed :=
  [⟨4, ascii "$AttrDef", hiddenSystem, false⟩, ⟨6, ascii "$Bitmap", hiddenSystem, false⟩,
    ⟨2, ascii "$LogFile", hiddenSystem, false⟩, ⟨0, ascii "$MFT", hiddenSystem, false⟩,
    ⟨1, ascii "$MFTMirr", hiddenSystem, false⟩, ⟨3, ascii "$Volume", hiddenSystem, false⟩]

/-- `write_metadata_record`: the record that it writes -/
def metadataRecord (L : Layout) (s : Seed) : Option Mem :=
  (ntfsRecordInit L s.recNo s.directory).bind fun b =>
    (ntfsRecordAddResidentAttr b 0x10 (makeStandardInformation hiddenSystem)).bind fun b =>
      (addFileName b 5 s.name hiddenSystem s.directory).bind fun b =>
        (addIf (s.recNo = 3) b addVolumeMetadata).bind fun b =>
          (addIf (s.recNo = 8) b fun b => ntfsRecordAddResidentAttr b 0x80 []).bind fun b =>
            (addSeedData L s b).bind fun b =>
              (addIf (s.recNo = 5) b fun b => addIndexRoot b L rootIndex).bind fun b =>
                (ntfsRecordFinish b).map RecordBuilder.buf

/-- `seeds` -/
def seeds (L : Layout) : List Seed :=
  [⟨0, ascii "$MFT", false, some (L.mftLcn, L.mftClusters, 16 * L.bytesPerMftrec)⟩,
    ⟨1, ascii "$MFTMirr", false, some (L.mftmirrLcn, L.mirrorClusters, 4 * L.bytesPerMftrec)⟩,
    ⟨2, ascii "$LogFile", false, some (L.logfileLcn, 16, 16 * L.bytesPerCluster)⟩,
    ⟨3, ascii "$Volume", false, none⟩,
    ⟨4, ascii "$AttrDef", false, some (L.attrdefLcn, 1, L.bytesPerCluster)⟩,
    ⟨5, ascii ".", true, none⟩,
    ⟨6, ascii "$Bitmap", false, some (L.bitmapLcn, L.bitmapClusters, L.bitmapBytes)⟩,
    ⟨7, ascii "$Boot", false, some (0, 2, 2 * L.bytesPerCluster)⟩,
    ⟨8, ascii "$BadClus", false, none⟩]

/-- The loop over the seeds: the host file, or the number of a record that could not be built. -/
def writeRecords (L : Layout) (off : Nat) : List Seed → Disk → Disk × Option Nat
  | [], d => (d, none)
  | s :: l, d =>
      match metadataRecord L s with
      | none => (d, some s.recNo)
      | some raw => writeRecords L off l (d.put .mft (off + s.recNo * L.bytesPerMftrec) 1024 raw)

/-! ## Contents of the system files -/

/-- An entry of the attribute definition table. -/
def attrDefEntry (name : List UInt8) (type rule : Nat) : List UInt8 :=
  let text := (name.take 63).flatMap fun c => [c, 0]
  text ++ List.replicate (128 - text.length) 0 ++ leBytes 4 type ++ leBytes 4 rule ++ List.replicate 16 0 ++
    leBytes 8 0xFFFFFFFFFFFFFFFF

/-- `attrdef` -/
def attrDefTable : List UInt8 :=
  attrDefEntry (ascii "$STANDARD_INFORMATION") 0x10 0x20 ++ attrDefEntry (ascii "$FILE_NAME") 0x30 0x30 ++
    attrDefEntry (ascii "$VOLUME_NAME") 0x60 0x40 ++ attrDefEntry (ascii "$VOLUME_INFORMATION") 0x70 0x50 ++
    attrDefEntry (ascii "$DATA") 0x80 0x60 ++ attrDefEntry (ascii "$INDEX_ROOT") 0x90 0x90

/-- The clusters that are marked, in the order of the loops. -/
def markedClusters (L : Layout) : List Nat :=
  List.range' 0 2 ++ List.range' L.mftLcn L.mftClusters ++ List.range' L.mftmirrLcn L.mirrorClusters ++
    List.range' L.bitmapLcn L.bitmapClusters ++ List.range' L.attrdefLcn 1 ++ List.range' L.logfileLcn 16 ++
    [L.totalClusters - 1]

/-- `bitmap`; `MARK_CLUSTER` sets the bit of a cluster. -/
def bitmapData (L : Layout) : Mem := (markedClusters L).foldl Mem.setBit Mem.zero

/-- The loop that copies records to the mirror. -/
def copyMirror (L : Layout) : (count rec : Nat) → Disk → Disk
  | 0, _, d => d
  | n + 1, rec, d =>
      let buf := d.image.slice (L.byteOff L.mftLcn + rec * L.bytesPerMftrec) 1024
      copyMirror L n (rec + 1) (d.put .mftMirr (L.byteOff L.mftmirrLcn + rec * L.bytesPerMftrec) 1024 buf)

/-! ## The formatter -/

inductive Outcome
  | badSectorSize
  | exceedsImage
  | tooSmall
  | noLayout
  | badRecord (recNo : Nat)
  | done
  deriving DecidableEq

/-- The value that `mkfs_ntfs_core` returns. -/
def Outcome.code : Outcome → Nat
  | badSectorSize => 2
  | exceedsImage => 3
  | tooSmall => 3
  | noLayout => 3
  | badRecord _ => 4
  | done => 0

def baseBytes (o : MkfsNtfsOpts) : Nat := o.lbaOffset.toNat * sectorBytes o

/-- The size of the volume, in a host file of so many bytes. -/
def bytesTotal (o : MkfsNtfsOpts) (hostBytes : UInt64) : Nat :=
  if o.sizeBytes ≠ 0 then o.sizeBytes.toNat
  else if hostBytes.toNat > baseBytes o then hostBytes.toNat - baseBytes o else 0

/-- What is written once the layout fits. -/
def writeVolume (L : Layout) (d : Disk) : Outcome × Disk :=
  let d := zeroRegion d .mft (L.byteOff L.mftLcn) (16 * L.bytesPerMftrec)
  let d := zeroRegion d .mftMirr (L.byteOff L.mftmirrLcn) (4 * L.bytesPerMftrec)
  match writeRecords L (L.byteOff L.mftLcn) (seeds L) d with
  | (d, some recNo) => (.badRecord recNo, d)
  | (d, none) =>
      let d := d.put .attrDef (L.byteOff L.attrdefLcn) 4096 (Mem.ofList attrDefTable)
      let d := zeroRegion d .logFile (L.byteOff L.logfileLcn) (16 * L.bytesPerCluster)
      let d := d.put .bitmap (L.byteOff L.bitmapLcn) (L.bitmapClusters * L.bytesPerCluster) (bitmapData L)
      (.done, copyMirror L 4 0 d)

/-- `mkfs_ntfs_core`, on a host file of so many bytes -/
def mkfsNtfsCore (o : MkfsNtfsOpts) (hostBytes : UInt64) (image : Mem) : Outcome × Disk :=
  let d : Disk := ⟨image, []⟩
  let bps := sectorBytes o
  if bps ≠ 512 ∧ bps ≠ 1024 ∧ bps ≠ 2048 ∧ bps ≠ 4096 then (.badSectorSize, d)
  else
    let base := baseBytes o
    let bytes := bytesTotal o hostBytes
    if base > hostBytes.toNat ∨ bytes > hostBytes.toNat - base then (.exceedsImage, d)
    else if bytes < bps * 100 then (.tooSmall, d)
    else
      let L := planLayout o (bytes / bps)
      let d := writeBootSector d L
      if L.Fits then writeVolume L d else (.noLayout, d)

end Guppy.Ntfs
