import Guppy.Archive.Stream
import Guppy.Lib.Digits

set_option autoImplicit false

/-! # Tar archives

`src/tar_write.c` writes an archive in the ustar format, one header block of 512 bytes before each
payload, and `gu_tar_walk` of `src/tar.c` goes through an archive and calls back for each entry.
The two have the layout of the header in common, and each has its own arithmetic for the payload:
the writer fills up to the next block, and the reader rounds the size up with a mask.
-/

namespace Guppy.Archive

open Vfs Digits

def tarBlockSize : Nat := 512

/-! ## The writer -/

/-- `oct`: a zero-padded octal field that ends with a zero byte. -/
def oct (width value : Nat) : Option (List UInt8) :=
  if value / 8 ^ (width - 1) ≠ 0 then none else some (fixed 8 (width - 1) value ++ [0])

/-- A field of `n` bytes with a text at its start, in a block that was cleared. -/
def field (n : Nat) (t : List UInt8) : List UInt8 := t ++ List.replicate (n - t.length) 0

/-- The loop of `name_fields` over the slashes: the last one that splits the path so that both
parts fit. -/
def splitSlash (path : Text) : Option Nat :=
  (List.range path.length).foldl
    (fun found i => if path.getD i 0 = slash ∧ i ≤ 155 ∧ path.length - i - 1 ≤ 100 then some i else found) none

/-- `name_fields`: what goes into the name and into the prefix. -/
def nameFields (path : Text) : Option (Text × Text) :=
  if path = [] ∨ path.head? = some slash ∨ backslash ∈ path then none
  else if [dot, dot, slash] <:+: path ∨ path = dotdot ∨ [slash, dot, slash] <:+: path ∨ path = [dot] then none
  else if path.length ≤ 100 then some (path, [])
  else
    match splitSlash path with
    | none => none
    | some i => if i = 0 ∨ path.length ≤ i + 1 then none else some (path.drop (i + 1), path.take i)

/-- The header as the fields that the writer fills, with the checksum field as given. -/
def headerBlock (name pre mode size : List UInt8) (type : UInt8) (chksum : List UInt8) : List UInt8 :=
  let zeros := fixed 8 7 0 ++ [0]
  field 100 name ++ mode ++ zeros ++ zeros ++ size ++ (fixed 8 11 0 ++ [0]) ++ chksum ++ [type] ++
    List.replicate 100 0 ++ [117, 115, 116, 97, 114, 0, 48, 48] ++ List.replicate 80 0 ++ field 155 pre ++
    List.replicate 12 0

/-- `header`: the block for an entry. The checksum is the sum of the bytes, with blanks in its own
place. -/
def header (path : Text) (size mode : Nat) (type : UInt8) : Option (List UInt8) := do
  let (name, pre) ← nameFields path
  let modeField ← oct 8 (mode % 4096)
  let sizeField ← oct 12 size
  let blank := headerBlock name pre modeField sizeField type (List.replicate 8 32)
  let sum ← oct 7 (blank.map UInt8.toNat).sum
  some (headerBlock name pre modeField sizeField type (sum ++ [32]))

/-- `gu_tar_write_file`, with the bytes that the source has to give. -/
def guTarWriteFile (out : List UInt8) (path : Text) (src : List UInt8) (size mode : Nat) : Option (List UInt8) := do
  let block ← header path size mode 48
  let out ← fwrite out block
  let out ← copyLoop src 0 size out
  fwrite out (List.replicate ((tarBlockSize - size % tarBlockSize) % tarBlockSize) 0)

/-- The name of a directory in the archive. -/
def dirName (path : Text) : Text := if path.getLast? = some slash then path else path ++ [slash]

/-- `gu_tar_write_dir` -/
def guTarWriteDir (out : List UInt8) (path : Text) (mode : Nat) : Option (List UInt8) := do
  if path.length = 0 ∨ 255 ≤ path.length then none
  else
    let block ← header (dirName path) 0 mode 53
    fwrite out block

/-- `gu_tar_write_end` -/
def guTarWriteEnd (out : List UInt8) : Option (List UInt8) := fwrite out (List.replicate (tarBlockSize * 2) 0)

/-- A call of one of the writers. -/
inductive Entry
  | dir (path : CString) (mode : Nat)
  | file (path : CString) (src : List UInt8) (size mode : Nat)

def writeEntry (out : List UInt8) : Entry → Option (List UInt8)
  | .dir path mode => guTarWriteDir out path.text mode
  | .file path src size mode => guTarWriteFile out path.text src size mode

/-- Write the entries, and then the end. -/
def writeArchive : List UInt8 → List Entry → Option (List UInt8)
  | out, [] => guTarWriteEnd out
  | out, e :: es =>
      match writeEntry out e with
      | none => none
      | some out => writeArchive out es

/-! ## The reader -/

/-- `gu_tar_entry_t` -/
structure TarEntry where
  path : Text
  linkname : Text
  size : Nat
  mode : Nat
  type : UInt8
  dataOffset : Nat
  deriving DecidableEq

/-- `octal`: leading blanks and zero bytes are skipped, and the first byte that is not an octal
digit ends the number. -/
def octal (p : List UInt8) : Nat :=
  value 8 ((p.dropWhile (fun c => c = 32 ∨ c = 0)).takeWhile (fun c => 48 ≤ c ∧ c ≤ 55))

/-- `zero` -/
def zero (h : List UInt8) : Bool := h.all (fun c => c = 0)

def sliceOf (h : List UInt8) (o n : Nat) : List UInt8 := (h.drop o).take n

/-- The entry that a header block describes. -/
def entryOf (h : List UInt8) (dataOffset : Nat) : TarEntry where
  path :=
    if h.getD 345 0 ≠ 0 then (cText (sliceOf h 345 155) ++ slash :: cText (sliceOf h 0 100)).take 511
    else cText (sliceOf h 0 100)
  linkname := cText (sliceOf h 157 100)
  size := octal (sliceOf h 124 12)
  mode := octal (sliceOf h 100 8)
  type := if h.getD 156 0 ≠ 0 then h.getD 156 0 else 48
  dataOffset := dataOffset

/-- `(size + 511u) & ~511u`: the mask is a 32-bit number. -/
def padded (size : Nat) : Nat := (size + 511) &&& 4294966784

section Walk

variable {σ : Type} (file : List UInt8) (off len : Nat) (cb : σ → TarEntry → σ × Bool)

/-- The loop of `gu_tar_walk`; `pos` counts from the start of the archive. -/
def walkLoop : Nat → Nat → σ → Int × σ
  | 0, _, s => (0, s)
  | fuel + 1, pos, s =>
      if pos + 512 ≤ len then
        match fread file (off + pos) 512 with
        | none => (-2, s)
        | some h =>
            let pos := pos + 512
            if zero h = true then (0, s)
            else
              let e := entryOf h (off + pos)
              if len - pos < e.size then (-3, s)
              else
                let (s, failed) := cb s e
                if failed = true then (-4, s)
                else if len - pos < padded e.size then (-5, s)
                else if longMax < off + (pos + padded e.size) then (-6, s)
                else walkLoop fuel (pos + padded e.size) s
      else (0, s)

/-- `gu_tar_walk`. Every round of the loop takes a block. -/
def guTarWalk (s : σ) : Int × σ := if longMax < off then (-1, s) else walkLoop file off len cb (len / 512 + 1) 0 s

end Walk

/-- A callback that keeps the entries it is called with. -/
def collect (seen : List TarEntry) (e : TarEntry) : List TarEntry × Bool := (seen ++ [e], false)

end Guppy.Archive
