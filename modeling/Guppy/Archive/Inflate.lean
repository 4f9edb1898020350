import Guppy.Lib.Checked

set_option autoImplicit false

/-! # Inflating

`inflate_raw` of `src/gu_gzip.c` unpacks the compressed part of a `.gz` member. Its input is not to be
trusted: code lengths, repeat counts, symbols and distances are indices and bounds of the loops that
follow. Every access is checked here, so that a run without a fault stays within its buffers and its
tables. -/

namespace Guppy.Archive.Inflate

open Checked

/-! ## The bit reader -/

/-- The reader of the input and the part of the output buffer that is written. -/
structure Inflater where
  src : List UInt8
  pos : Nat
  bitbuf : Nat
  bitcnt : Nat
  out : List UInt8
  outcap : Nat

/-- The loop of `getbits`: a byte at a time, until there are `need` bits. -/
def fillBits (need : Nat) (_ : Unit) : Checked Inflater (Unit ⊕ Unit) := do
  let br ← get
  if need ≤ br.bitcnt then pure (.inr ())
  else
    failIf (br.src.length ≤ br.pos) (-1)
    let byte ← index br.src br.pos
    require (br.bitcnt < 32)
    modify (fun br => { br with
      bitbuf := br.bitbuf ||| (byte.toNat <<< br.bitcnt) % 4294967296
      pos := br.pos + 1
      bitcnt := br.bitcnt + 8 })
    pure (.inl ())

/-- `getbits` -/
def getbits (need : Nat) : Checked Inflater Nat := do
  loop (fillBits need) (need + 1) ()
  let br ← get
  require (need < 32)
  let bitcnt ← sub br.bitcnt need
  modify (fun br => { br with bitbuf := br.bitbuf >>> need, bitcnt := bitcnt })
  pure (if need = 0 then 0 else br.bitbuf &&& (1 <<< need - 1))

def byteAlign : Checked Inflater Unit := modify (fun br => { br with bitbuf := 0, bitcnt := 0 })

/-! ## Codes -/

def maxBits : Nat := 15
def maxLCodes : Nat := 288
def maxCodes : Nat := 320

structure Huffman where
  count : Table
  symbol : Table

/-- The first loop of `huff_build`: how many codes of each length there are; nothing when a length is
too large. -/
def countLengths (length : Table) (off n : Nat) : Checked Inflater (Bool × Table) :=
  forLoop (fun i acc =>
    if acc.1 = false then pure acc
    else do
      let l ← fetch length (off + i)
      if maxBits < l then pure (false, acc.2)
      else
        let k ← fetch acc.2 l
        let count ← store acc.2 l (k + 1)
        pure (true, count)) 0 n (true, List.replicate (maxBits + 1) (some 0))

/-- The second loop: the codes that are left over, negative when there are too many lengths. -/
def codesLeft (count : Table) : Checked Inflater Int :=
  forLoop (fun l (left : Int) =>
    if left < 0 then pure left
    else do
      let k ← fetch count l
      pure (2 * left - k)) 1 maxBits 1

/-- The third loop: where the symbols of each length start. -/
def symbolOffsets (count : Table) : Checked Inflater Table := do
  let offs ← store (List.replicate (maxBits + 1) none) 1 0
  forLoop (fun l offs => do
    let o ← fetch offs l
    let k ← fetch count l
    store offs (l + 1) (o + k)) 1 (maxBits - 1) offs

/-- The fourth loop: the symbols in the order of their codes. -/
def placeSymbols (length : Table) (off n : Nat) (offs : Table) : Checked Inflater (Table × Table) :=
  forLoop (fun i acc => do
    let l ← fetch length (off + i)
    if l = 0 then pure acc
    else
      let o ← fetch acc.1 l
      let symbol ← store acc.2 o i
      let offs ← store acc.1 l (o + 1)
      pure (offs, symbol)) 0 n (offs, List.replicate maxCodes (some 0))

/-- `huff_build` for the `n` lengths from `off` on. -/
def huffBuild (length : Table) (off n : Nat) : Checked Inflater (Int × Huffman) := do
  let (ok, count) ← countLengths length off n
  if ok = false then pure (-1, ⟨count, List.replicate maxCodes (some 0)⟩)
  else
    let unused ← fetch count 0
    if unused = n then pure (0, ⟨count, List.replicate maxCodes (some 0)⟩)
    else
      let left ← codesLeft count
      if left < 0 then pure (-1, ⟨count, List.replicate maxCodes (some 0)⟩)
      else
        let offs ← symbolOffsets count
        let (_, symbol) ← placeSymbols length off n offs
        pure (left, ⟨count, symbol⟩)

/-- The loop of `huff_decode`, with the lengths that are left to try. -/
def decodeFrom (h : Huffman) : Nat → Nat → Nat → Nat → Nat → Checked Inflater Nat
  | 0, _, _, _, _ => fail (-1)
  | k + 1, len, code, first, idx => do
      let bit ← getbits 1
      let code := code ||| bit
      let count ← fetch h.count len
      if first ≤ code ∧ code - first < count then fetch h.symbol (idx + (code - first))
      else decodeFrom h k (len + 1) (code <<< 1) ((first + count) <<< 1) (idx + count)

/-- `huff_decode` -/
def huffDecode (h : Huffman) : Checked Inflater Nat := decodeFrom h maxBits 1 0 0 0

/-! ## Tables -/

/-- The code lengths of the format for literals and lengths. -/
def fixedLengths : Table :=
  List.replicate 144 (some 8) ++ List.replicate 112 (some 9) ++ List.replicate 24 (some 7) ++ List.replicate 8 (some 8)

/-- `fixed_tables` -/
def fixedTables : Checked Inflater (Huffman × Huffman) := do
  let (_, litlen) ← huffBuild fixedLengths 0 maxLCodes
  let (_, dist) ← huffBuild (List.replicate 32 (some 5)) 0 32
  pure (litlen, dist)

def order : List Nat := [16, 17, 18, 0, 8, 7, 9, 6, 10, 5, 11, 4, 12, 3, 13, 2, 14, 1, 15]

/-- The lengths of the code that the other lengths are written in. -/
def codeLengths (hclen : Nat) : Checked Inflater Table :=
  forLoop (fun i clen => do
    let v ← getbits 3
    let at_ ← index order i
    store clen at_ v) 0 hclen (List.replicate 19 (some 0))

/-- `while (rep--) lens[i++] = v;` -/
def repeatLength (lens : Table) (i rep v : Nat) : Checked Inflater Table :=
  forLoop (fun k lens => store lens k v) i rep lens

/-- A round of the loop over the lengths: a length, or a run of lengths. -/
def lengthsStep (ch : Huffman) (total : Nat) (acc : Nat × Table) : Checked Inflater ((Nat × Table) ⊕ Table) := do
  let (i, lens) := acc
  if total ≤ i then pure (.inr lens)
  else
    let sym ← huffDecode ch
    if sym ≤ 15 then
      let lens ← store lens i sym
      pure (.inl (i + 1, lens))
    else if sym = 16 then
      failIf (i = 0) (-1)
      let extra ← getbits 2
      let rep := 3 + extra
      failIf (total < i + rep) (-1)
      let prev ← fetch lens (i - 1)
      let lens ← repeatLength lens i rep prev
      pure (.inl (i + rep, lens))
    else if sym = 17 then
      let extra ← getbits 3
      let rep := 3 + extra
      failIf (total < i + rep) (-1)
      let lens ← repeatLength lens i rep 0
      pure (.inl (i + rep, lens))
    else if sym = 18 then
      let extra ← getbits 7
      let rep := 11 + extra
      failIf (total < i + rep) (-1)
      let lens ← repeatLength lens i rep 0
      pure (.inl (i + rep, lens))
    else fail (-1)

/-- `dynamic_tables` -/
def dynamicTables : Checked Inflater (Huffman × Huffman) := do
  let hlit ← getbits 5
  let hdist ← getbits 5
  let hclen ← getbits 4
  let hlit := hlit + 257
  let hdist := hdist + 1
  let hclen := hclen + 4
  failIf (286 < hlit ∨ 32 < hdist) (-1)
  let clen ← codeLengths hclen
  let (rc, ch) ← huffBuild clen 0 19
  failIf (rc < 0) (-1)
  let total := hlit + hdist
  let lens ← loop (lengthsStep ch total) (total + 1) (0, List.replicate maxCodes none)
  let endOfBlock ← fetch lens 256
  failIf (endOfBlock = 0) (-1)
  let (rc, litlen) ← huffBuild lens 0 hlit
  failIf (rc < 0) (-1)
  let (rc, dist) ← huffBuild lens hlit hdist
  failIf (rc < 0) (-1)
  pure (litlen, dist)

/-! ## Blocks -/

def lbase : List Nat :=
  [3, 4, 5, 6, 7, 8, 9, 10, 11, 13, 15, 17, 19, 23, 27, 31, 35, 43, 51, 59, 67, 83, 99, 115, 131, 163, 195, 227, 258]

def lext : List Nat := [0, 0, 0, 0, 0, 0, 0, 0, 1, 1, 1, 1, 2, 2, 2, 2, 3, 3, 3, 3, 4, 4, 4, 4, 5, 5, 5, 5, 0]

def dbase : List Nat :=
  [1, 2, 3, 4, 5, 7, 9, 13, 17, 25, 33, 49, 65, 97, 129, 193, 257, 385, 513, 769, 1025, 1537, 2049, 3073, 4097, 6145,
    8193, 12289, 16385, 24577]

def dext : List Nat :=
  [0, 0, 0, 0, 1, 1, 2, 2, 3, 3, 4, 4, 5, 5, 6, 6, 7, 7, 8, 8, 9, 9, 10, 10, 11, 11, 12, 12, 13, 13]

/-- `out[(*outpos)++] = byte;` -/
def putByte (byte : UInt8) : Checked Inflater Unit := do
  let s ← get
  require (s.out.length < s.outcap)
  modify (fun s => { s with out := s.out ++ [byte] })

/-- The bits behind a symbol, where it has any. -/
def extraBits (n : Nat) : Checked Inflater Nat := if n = 0 then pure 0 else getbits n

/-- `while (length--) out[(*outpos)++] = out[srcpos++];` -/
def copyMatch (srcpos length : Nat) : Checked Inflater Unit :=
  forLoop (fun k _ => do
    let s ← get
    let byte ← index s.out k
    putByte byte) srcpos length ()

/-- A round of `inflate_codes`: a byte, the end of the block, or a length and a distance. -/
def codesStep (litlen dist : Huffman) (_ : Unit) : Checked Inflater (Unit ⊕ Unit) := do
  let sym ← huffDecode litlen
  if sym < 256 then
    let s ← get
    failIf (s.outcap ≤ s.out.length) (-2)
    putByte (UInt8.ofNat sym)
    pure (.inl ())
  else if sym = 256 then pure (.inr ())
  else if 257 ≤ sym ∧ sym ≤ 285 then
    let li := sym - 257
    let extra ← extraBits (← index lext li)
    let length := (← index lbase li) + extra
    let dsym ← huffDecode dist
    failIf (30 ≤ dsym) (-1)
    let dextra ← extraBits (← index dext dsym)
    let distance := (← index dbase dsym) + dextra
    let s ← get
    failIf (distance = 0 ∨ s.out.length < distance) (-1)
    let room ← sub s.outcap s.out.length
    failIf (room < length) (-2)
    let srcpos ← sub s.out.length distance
    copyMatch srcpos length
    pure (.inl ())
  else fail (-1)

/-- `inflate_codes`; every round takes a bit at least. -/
def inflateCodes (litlen dist : Huffman) : Checked Inflater Unit := do
  let s ← get
  loop (codesStep litlen dist) (8 * s.src.length + 8) ()

/-- A block that is not compressed. -/
def storedBlock : Checked Inflater Unit := do
  byteAlign
  let br ← get
  failIf (br.src.length < br.pos + 4) (-1)
  let b0 ← index br.src br.pos
  let b1 ← index br.src (br.pos + 1)
  let b2 ← index br.src (br.pos + 2)
  let b3 ← index br.src (br.pos + 3)
  let len := b0.toNat ||| (b1.toNat <<< 8)
  let nlen := b2.toNat ||| (b3.toNat <<< 8)
  modify (fun br => { br with pos := br.pos + 4 })
  failIf (len ^^^ 0xffff ≠ nlen) (-1)
  let br ← get
  let room ← sub br.outcap br.out.length
  failIf (br.src.length < br.pos + len ∨ room < len) (-1)
  -- `memcpy`
  require (br.pos + len ≤ br.src.length ∧ br.out.length + len ≤ br.outcap)
  modify (fun br => { br with pos := br.pos + len, out := br.out ++ (br.src.drop br.pos).take len })

/-- A block of a type. -/
def block (type : Nat) : Checked Inflater Unit :=
  if type = 0 then storedBlock
  else if type = 1 then do
    let (litlen, dist) ← fixedTables
    inflateCodes litlen dist
  else if type = 2 then do
    let (litlen, dist) ← dynamicTables
    inflateCodes litlen dist
  else fail (-1)

/-- A round of the loop over the blocks, up to the final one. -/
def blockStep (_ : Unit) : Checked Inflater (Unit ⊕ Unit) := do
  let final ← getbits 1
  let type ← getbits 2
  block type
  if final = 0 then pure (.inl ()) else pure (.inr ())

/-- `inflate_raw`: the number of bytes written. -/
def inflateRaw (src : List UInt8) (outcap : Nat) : EStateM.Result Stop Inflater Nat :=
  (do
    loop blockStep (8 * src.length + 1) ()
    let s ← get
    pure s.out.length : Checked Inflater Nat) ⟨src, 0, 0, 0, [], outcap⟩

end Guppy.Archive.Inflate
