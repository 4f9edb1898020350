import Guppy.Lib.Prog
import Guppy.Block.Scan

set_option autoImplicit false

/-! # The `gpt` command

`gpt init` and `gpt add` of `src/cmd_gpt.c`, on the disk behind the device they are given.
Every path of the source returns 0; here a path that prints an error message and stops is a
failure. The rescan at the end of both commands does not write.

`parse_size` goes through `strtold`, and floating-point numbers are not modelled: what it
returns for a text is a parameter. So are the numbers that `time` and `rand` return.
-/

namespace Guppy.Block

open Vfs Prog

/-! ## Numbers in C -/

/-- `isspace`. -/
def isSpace (c : UInt8) : Bool := c = 32 ∨ (9 ≤ c ∧ c ≤ 13)

/-- The value of a digit in a base up to sixteen. -/
def digitValue (base : Nat) (c : UInt8) : Option Nat :=
  let n := c.toNat
  let v :=
    if 48 ≤ n ∧ n ≤ 57 then n - 48
    else if 97 ≤ n ∧ n ≤ 102 then n - 87
    else if 65 ≤ n ∧ n ≤ 70 then n - 55
    else 16
  if v < base then some v else none

/-- The digits at the front of a text: their value, whether there are any, and the rest. -/
def readDigits (base : Nat) : Text → (value : Nat) → Bool → Nat × Bool × Text
  | [], v, seen => (v, seen, [])
  | c :: t, v, seen =>
      match digitValue base c with
      | some d => readDigits base t (v * base + d) true
      | none => (v, seen, c :: t)

/-- An optional sign. -/
def readSign : Text → Bool × Text
  | 45 :: t => (true, t)
  | 43 :: t => (false, t)
  | t => (false, t)

/-- The base that base 0 stands for, and the text without `0x`. -/
def readBase (base : Nat) (t : Text) : Nat × Text :=
  if base ≠ 0 then (base, t)
  else
    match t with
    | 48 :: x :: d :: t' =>
        if (x = 120 ∨ x = 88) ∧ (digitValue 16 d).isSome then (16, d :: t') else (8, t)
    | 48 :: _ => (8, t)
    | _ => (10, t)

/-- Sign, value and rest of the number at the front of a text, if there is one. -/
def readNumber (base : Nat) (s : Text) : Option (Bool × Nat × Text) :=
  let (neg, t) := readSign (s.dropWhile isSpace)
  let (base, t) := readBase base t
  let (v, seen, rest) := readDigits base t 0 false
  if seen then some (neg, v, rest) else none

/-- `strtoull`: the value, and the rest of the text. -/
def strtoull (base : Nat) (s : Text) : Nat × Text :=
  match readNumber base s with
  | none => (0, s)
  | some (neg, v, rest) =>
      if uint64 ≤ v then (uint64 - 1, rest)
      else if neg then ((uint64 - v) % uint64, rest)
      else (v, rest)

/-- `strtol`: the value, and the rest of the text. -/
def strtol (base : Nat) (s : Text) : Int × Text :=
  match readNumber base s with
  | none => (0, s)
  | some (neg, v, rest) =>
      if neg then (max (-(v : Int)) (-9223372036854775808), rest)
      else (min (v : Int) 9223372036854775807, rest)

/-! ## Headers and entries -/

/-- `ENTRIES_MAX`, `ENTRY_SIZE`, `ENTRIES_BYTES` and `ENTRIES_SECTORS`. -/
def entriesMax : Nat := 128
def entryBytes : Nat := 128
def entriesBytes : Nat := 16384
def entriesSectors : Nat := 32

/-- The disk, and the numbers that `time(NULL) ^ rand()` is going to be. -/
structure GptState where
  disk : Disk
  seeds : Nat → Nat

/-- Read something from the disk; stop with a message when it is not there. -/
def ask {α : Type} (f : Disk → Option α) : Prog GptState α := fun s =>
  match f s.disk with
  | some a => .ok a s
  | none => .error 0 s

/-- `pwrite_bytes`. -/
def pwriteBytes (off len : Nat) (src : Mem) : Prog GptState Unit := fun s =>
  match s.disk.write (off % uint64) len src with
  | some k => .ok () { s with disk := k }
  | none => .error 0 s

/-- `pwrite_lba512`. -/
def pwriteLba512 (lba : Nat) (src : Mem) : Prog GptState Unit := pwriteBytes (lba * lsec) lsec src

/-- One round of the generator in `gen_guid`. -/
def guidStep (r : Nat) : Nat :=
  let r := (r ^^^ (r * 8192)) % uint32
  let r := r ^^^ (r / 131072)
  (r ^^^ (r * 32)) % uint32

/-- Byte `i` of the sequence that the generator makes. -/
def guidByte (seed i : Nat) : Nat := guidStep^[i + 1] seed % 256

/-- `gen_guid`. -/
def genGuid : Prog GptState Mem := do
  let s ← get
  set { s with seeds := fun i => s.seeds (i + 1) }
  pure (fun i =>
    if i = 7 then UInt8.ofNat (guidByte (s.seeds 0 % uint32) 7 % 16 + 64)
    else if i = 8 then UInt8.ofNat (guidByte (s.seeds 0 % uint32) 8 % 64 + 128)
    else UInt8.ofNat (guidByte (s.seeds 0 % uint32) i))

/-- The bytes that the checksum of a header is over. -/
def headerBytes (k : Disk) (hdrLba : Nat) (sec : Mem) (len : Nat) : Option Mem :=
  if len ≤ 512 then some sec else k.read (hdrLba * lsec % uint64) len

/-- `gpt_read_header` of `src/cmd_gpt.c`. -/
def gptReadHeader (k : Disk) (hdrLba totalLbas : Nat) : Option GptHdr := do
  let sec ← k.read (hdrLba * lsec % uint64) lsec
  guard (sec.toList 0 8 = GptHdr.signature)
  let h : GptHdr := sec.slice 0 GptHdr.size
  guard (gptFieldsOk h totalLbas = true)
  let hdrbuf ← headerBytes k hdrLba sec h.headerSize
  guard (gptHeaderCrc hdrbuf h.headerSize = h.headerCrc)
  some h

/-- `gpt_read_entries`. -/
def gptReadEntries (k : Disk) (h : GptHdr) : Option Mem := do
  let bytes := h.numEntries * h.entrySize
  guard (bytes ≠ 0 ∧ bytes ≤ entriesMaxBytes)
  let buf ← k.read (h.entriesLba * lsec % uint64) bytes
  guard (crc32Calc buf bytes = h.entriesCrc)
  some buf

/-- `gpt_update_header_crc`. -/
def gptUpdateHeaderCrc (h : GptHdr) : GptHdr :=
  (h.wr32 16 0).wr32 16 (gptHeaderCrc (h.wr32 16 0) h.headerSize)

/-- `gpt_update_entries_crc`. -/
def gptUpdateEntriesCrc (h : GptHdr) (ents : Mem) : GptHdr :=
  h.wr32 88 (crc32Calc ents (h.numEntries * h.entrySize))

/-- `gpt_write_primary` and `gpt_write_backup`: the entries, then the header. -/
def gptWrite (h : GptHdr) (ents : Mem) : Prog GptState Unit := do
  pwriteBytes (h.entriesLba * lsec) (h.numEntries * h.entrySize) ents
  pwriteLba512 h.currentLba (h.slice 0 GptHdr.size)

/-- `write_protective_mbr`. -/
def writeProtectiveMbr (totalLbas : Nat) : Prog GptState Unit :=
  let count := if 0xFFFFFFFF < totalLbas then 0xFFFFFFFF else totalLbas - 1
  pwriteLba512 0 ((((Mem.zero.wr8 450 0xEE).wr32 454 1).wr32 458 count).wr16 510 0xAA55)

/-! ## `gpt init` -/

/-- The primary header of a fresh table, before its checksums. -/
def freshHeader (totalLbas : Nat) (guid : Mem) : GptHdr :=
  (((((((((Mem.zero.write 0 8 (Mem.ofList GptHdr.signature)).wr32 8 0x00010000).wr32 12 92).wr64 24
    1).wr64 32 (totalLbas - 1)).wr64 40 34).wr64 48 (totalLbas - 34)).write 56 16 guid).wr64 72
    2).wr32 80 entriesMax |>.wr32 84 entryBytes

/-- `pwrite_lba512(key, l, zer)` for `count` sectors; whether it works is not looked at. -/
def zeroSectors (lba count : Nat) : Prog GptState Unit :=
  forLoop (fun l _ => ignore (pwriteLba512 l Mem.zero)) lba count ()

/-- `gpt_cmd_init`. -/
def gptCmdInit : Prog GptState Unit := do
  let s ← get
  failIf (s.disk.size < lsec * (2 + entriesSectors + 1)) 0
  let totalLbas := s.disk.size / lsec
  let backup := totalLbas - 1
  zeroSectors 2 entriesSectors
  zeroSectors (backup - entriesSectors) entriesSectors
  zeroSectors 1 1
  zeroSectors backup 1
  let guid ← genGuid
  let hp := gptUpdateHeaderCrc (gptUpdateEntriesCrc (freshHeader totalLbas guid) Mem.zero)
  let hb := gptUpdateHeaderCrc (gptUpdateEntriesCrc
    (((hp.wr64 24 backup).wr64 32 1).wr64 72 (backup - entriesSectors)) Mem.zero)
  writeProtectiveMbr totalLbas
  gptWrite hp Mem.zero
  gptWrite hb Mem.zero

/-! ## `gpt add` -/

def lower (c : UInt8) : UInt8 := if 65 ≤ c ∧ c ≤ 90 then c + 32 else c

/-- `strcasecmp(a, b) == 0` -/
def caseEq (a b : Text) : Bool := a.map lower = b.map lower

def typeLinuxfs : Text :=
  [0xAF, 0x3D, 0xC6, 0x0F, 0x83, 0x84, 0x72, 0x47, 0x8E, 0x79, 0x3D, 0x69, 0xD8, 0x47, 0x7D, 0xE4]

def typeBiosboot : Text :=
  [0x48, 0x61, 0x68, 0x21, 0x49, 0x64, 0x6F, 0x6E, 0x74, 0x4E, 0x65, 0x65, 0x64, 0x45, 0x46, 0x49]

def typeMsBasic : Text :=
  [0xA2, 0xA0, 0xD0, 0xEB, 0xE5, 0xB9, 0x33, 0x44, 0x87, 0xC0, 0x68, 0xB6, 0xB7, 0x26, 0x99, 0xC7]

/-- `"linuxfs"`, `"linux"`, `"biosboot"`, `"bios"`, `"msbasic"`, `"basic"`, `"basicdata"` and
`"ms-basic"`, each with its type. -/
def typeNames : List (Text × Text) :=
  [([108, 105, 110, 117, 120, 102, 115], typeLinuxfs),
    ([108, 105, 110, 117, 120], typeLinuxfs),
    ([98, 105, 111, 115, 98, 111, 111, 116], typeBiosboot),
    ([98, 105, 111, 115], typeBiosboot),
    ([109, 115, 98, 97, 115, 105, 99], typeMsBasic),
    ([98, 97, 115, 105, 99], typeMsBasic),
    ([98, 97, 115, 105, 99, 100, 97, 116, 97], typeMsBasic),
    ([109, 115, 45, 98, 97, 115, 105, 99], typeMsBasic)]

/-- `type_guid_for`. -/
def typeGuidFor (type : Text) : Option Text :=
  (typeNames.find? (fun e => caseEq type e.1)).map (·.2)

/-- `to_utf16le` into a zeroed buffer. -/
def toUtf16le (name : Text) : Mem := fun i => if i < 72 ∧ i % 2 = 0 then name.getD (i / 2) 0 else 0

/-- The entry that is added. -/
def newEntry (typeGuid : Text) (guid : Mem) (name : Text) (first last : Nat) : Mem :=
  ((((Mem.zero.write 0 16 (Mem.ofList typeGuid)).write 16 16 guid).wr64 32 first).wr64 40 last).write
    56 72 (toUtf16le name)

/-- The range `[first, last]` overlaps the used entry at an offset. -/
def entOverlaps (ents : Mem) (first last o : Nat) : Bool :=
  entEmpty ents o = false ∧ first ≤ entLastLba ents o ∧ entFirstLba ents o ≤ last

/-- The entries to work on: those of the primary table when their checksum is right, else
those of the backup as they are. -/
def entriesFor (k : Disk) (hp hb : GptHdr) : Option Mem :=
  match gptReadEntries k hp with
  | some ents => some ents
  | none => k.read (hb.entriesLba * lsec % uint64) (hb.numEntries * hb.entrySize)

/-- The index of the first free entry. -/
def freeEntry (ents : Mem) (h : GptHdr) : Option Nat :=
  (List.range h.numEntries).find? (fun i => entEmpty ents (i * h.entrySize))

/-- `gpt_add_by_range`. -/
def gptAddByRange (type name : Text) (firstLba lastLba : Nat) : Prog GptState Unit := do
  let typeGuid ← ask (fun _ => typeGuidFor type)
  failIf (lastLba < firstLba) 0
  let hp ← ask (fun k => gptReadHeader k 1 (k.size / lsec))
  let hb ← ask (fun k => gptReadHeader k hp.backupLba (k.size / lsec))
  let ents ← ask (fun k => entriesFor k hp hb)
  let first := max firstLba hp.firstUsableLba
  let last := min lastLba hp.lastUsableLba
  failIf (last < first) 0
  failIf (∃ i ∈ List.range hp.numEntries, entOverlaps ents first last (i * hp.entrySize) = true) 0
  let idx ← ask (fun _ => freeEntry ents hp)
  let guid ← genGuid
  let ents := ents.write (idx * hp.entrySize) hp.entrySize (newEntry typeGuid guid name first last)
  gptWrite (gptUpdateHeaderCrc (gptUpdateEntriesCrc hp ents)) ents
  gptWrite (gptUpdateHeaderCrc (gptUpdateEntriesCrc hb ents)) ents

/-! ### Options -/

/-- A size as `parse_size_spec` returns it: bytes, a percentage, or sectors. -/
structure SizeSpec where
  bytes : Nat
  pct : Nat
  sectors : Nat

/-- `parse_size_spec`. -/
def parseSizeSpec (parseSize : Text → Option Nat) (s : Text) : Option SizeSpec :=
  if s = [] then none
  else
    let s := s.dropWhile (fun c => c = 32 ∨ c = 9)
    match s.getLast? with
    | some 37 =>
        let (p, rest) := strtol 10 s
        if rest = [37] ∧ 0 ≤ p ∧ p ≤ 100 then some ⟨0, p.toNat, 0⟩ else none
    | some 115 | some 83 =>
        let (v, rest) := strtoull 10 s
        if rest = [115] ∨ rest = [83] then some ⟨0, 0, v⟩ else none
    | _ => (parseSize s).map (fun b => ⟨b % uint64, 0, 0⟩)

/-- The options of `gpt add`. -/
structure AddOpts where
  type : Option Text
  name : Option Text
  start : Option Text
  size : Option Text
  stop : Option Text

/-- `"--type"`, `"--name"`, `"--start"`, `"--size"` and `"--end"` -/
def optType : Text := [45, 45, 116, 121, 112, 101]
def optName : Text := [45, 45, 110, 97, 109, 101]
def optStart : Text := [45, 45, 115, 116, 97, 114, 116]
def optSize : Text := [45, 45, 115, 105, 122, 101]
def optEnd : Text := [45, 45, 101, 110, 100]

/-- The option loop of `gpt_cmd_add_opts`. -/
def readOpts : List Text → AddOpts → Option AddOpts
  | [], o => some o
  | [_], _ => none
  | a :: v :: rest, o =>
      if a = optType then readOpts rest { o with type := some v }
      else if a = optName then readOpts rest { o with name := some v }
      else if a = optStart then readOpts rest { o with start := some v }
      else if a = optSize then readOpts rest { o with size := some v }
      else if a = optEnd then readOpts rest { o with stop := some v }
      else none

/-- The sectors from `first` to `last`, in 64 bits. -/
def spanSectors (first last : Nat) : Nat := if first ≤ last then (last - first + 1) % uint64 else 0

/-- The start that `--start` asks for. -/
def startLba (h : GptHdr) (spec : SizeSpec) : Nat :=
  let lba :=
    if spec.sectors ≠ 0 then spec.sectors
    else if spec.pct ≠ 0 then
      (h.firstUsableLba + spanSectors h.firstUsableLba h.lastUsableLba * spec.pct % uint64 / 100) % uint64
    else spec.bytes / lsec
  if lba < h.firstUsableLba then h.firstUsableLba else lba

/-- The end that `--end` asks for. -/
def endLba (h : GptHdr) (spec : SizeSpec) : Nat :=
  if spec.sectors ≠ 0 then spec.sectors
  else if spec.pct ≠ 0 then
    (h.firstUsableLba + spanSectors h.firstUsableLba h.lastUsableLba * spec.pct % uint64 / 100) % uint64
  else spec.bytes / lsec - 1

/-- The end that `--size` asks for. -/
def sizeLba (h : GptHdr) (start : Nat) (spec : SizeSpec) : Nat :=
  if spec.sectors ≠ 0 then (start + spec.sectors + uint64 - 1) % uint64
  else if spec.pct ≠ 0 then
    (start + spanSectors start h.lastUsableLba * spec.pct % uint64 / 100 + uint64 - 1) % uint64
  else
    let nsec := (spec.bytes + lsec - 1) % uint64 / lsec
    (start + (if nsec ≠ 0 then nsec else 1) + uint64 - 1) % uint64

/-- The end of the range: by `--end` when it is there, else by `--size`. -/
def rangeEnd (parseSize : Text → Option Nat) (h : GptHdr) (start : Nat) (o : AddOpts) : Option Nat :=
  match o.stop, o.size with
  | some e, _ => (parseSizeSpec parseSize e).map (endLba h)
  | none, some s => (parseSizeSpec parseSize s).map (sizeLba h start)
  | none, none => none

/-- `gpt_cmd_add_opts`, from the options on. -/
def gptCmdAddOpts (parseSize : Text → Option Nat) (args : List Text) : Prog GptState Unit := do
  let o ← ask (fun _ => readOpts args ⟨none, none, none, none, none⟩)
  let type ← ask (fun _ => o.type)
  let name ← ask (fun _ => o.name)
  let startS ← ask (fun _ => o.start)
  failIf (o.size = none ∧ o.stop = none) 0
  let h ← ask (fun k => gptReadHeader k 1 (k.size / lsec))
  let spec ← ask (fun _ => parseSizeSpec parseSize startS)
  let start := startLba h spec
  let stop ← ask (fun _ => rangeEnd parseSize h start o)
  let stop := if h.lastUsableLba < stop then h.lastUsableLba else stop
  failIf (stop < start) 0
  gptAddByRange type name start stop

/-- `gpt add <dev>` with the arguments after the device. -/
def cmdGptAdd (parseSize : Text → Option Nat) (args : List Text) : Prog GptState Unit :=
  if args.any (fun a => a.take 2 = [45, 45]) then gptCmdAddOpts parseSize args
  else
    match args with
    | type :: name :: first :: last :: _ =>
        gptAddByRange type name (strtoull 0 first).1 (strtoull 0 last).1
    | _ => throw 0

end Guppy.Block
