import Guppy.Archive.Huffman
import Guppy.Lib.LittleEndian

set_option autoImplicit false

/-! # The deflate format

What RFC 1951 says a compressed stream is, on bits alone: blocks that are stored, or coded with the fixed code or with one
that is written in front of them in runs of code lengths. `Deflates src data` says that the bytes start with the blocks of
a stream for the data. No decoder is mentioned; lengths and distances are counted up from their extra bits.
-/

namespace Guppy.Archive.Deflate

open Inflate (byteBits lsbValue codeBits Oversubscribed order maxBits)

/-! ## Codes -/

/-- Lengths that a code can have. -/
structure IsCode (ls : List Nat) : Prop where
  le : ∀ l ∈ ls, l ≤ maxBits
  fits : ¬ Oversubscribed ls

/-- The symbol has a codeword. -/
def Has (ls : List Nat) (i : Nat) : Prop := ls.getD i 0 ≠ 0

def fixedLitlen : List Nat := List.replicate 144 8 ++ List.replicate 112 9 ++ List.replicate 24 7 ++ List.replicate 8 8

def fixedDist : List Nat := List.replicate 32 5

/-! ## Lengths and distances -/

/-- The extra bits of a length code: four codes share each number of them, and the last code has none. -/
def lengthExtra (i : Nat) : Nat := if i = 28 then 0 else (i - 4) / 4

/-- The first length of a code, behind the lengths of the codes in front of it. -/
def lengthBase (i : Nat) : Nat := if i = 28 then 258 else 3 + ((List.range i).map fun j => 2 ^ lengthExtra j).sum

/-- The extra bits of a distance code: two codes share each number of them. -/
def distExtra (i : Nat) : Nat := (i - 2) / 2

def distBase (i : Nat) : Nat := 1 + ((List.range i).map fun j => 2 ^ distExtra j).sum

/-- The bytes of a match: what stands `distance` bytes in front, over and over. -/
def matched (out : List UInt8) (distance length : Nat) : List UInt8 :=
  (List.range length).map fun i => out.getD (out.length - distance + i % distance) 0

/-- A symbol between the data in front of it and the data with it: a byte, or a match. -/
inductive Symbol (litlen dist : List Nat) : List Bool → List UInt8 → List UInt8 → Prop
  | literal {b : UInt8} {out : List UInt8} (h : Has litlen b.toNat) : Symbol litlen dist (codeBits litlen b.toNat) out (out ++ [b])
  | copy {li di : Nat} {extra dextra : List Bool} {out : List UInt8} (hli : li < 29) (h : Has litlen (257 + li))
      (hextra : extra.length = lengthExtra li) (hdi : di < 30) (hd : Has dist di) (hdextra : dextra.length = distExtra di)
      (hback : distBase di + lsbValue dextra ≤ out.length) :
      Symbol litlen dist (codeBits litlen (257 + li) ++ (extra ++ (codeBits dist di ++ dextra))) out
        (out ++ matched out (distBase di + lsbValue dextra) (lengthBase li + lsbValue extra))

/-- The symbols of a block to its end. -/
inductive Symbols (litlen dist : List Nat) : List Bool → List UInt8 → List UInt8 → Prop
  | endOfBlock {out : List UInt8} (h : Has litlen 256) : Symbols litlen dist (codeBits litlen 256) out out
  | symbol {bits rest : List Bool} {out next all : List UInt8} (h : Symbol litlen dist bits out next)
      (hrest : Symbols litlen dist rest next all) : Symbols litlen dist (bits ++ rest) out all

/-! ## Written codes -/

/-- A code length, or a run of them, behind those that are there. -/
inductive Run (clen : List Nat) : List Bool → List Nat → List Nat → Prop
  | length {l : Nat} {ls : List Nat} (hl : l ≤ 15) (h : Has clen l) : Run clen (codeBits clen l) ls (ls ++ [l])
  | previous {l : Nat} {extra : List Bool} {ls : List Nat} (h : Has clen 16) (hextra : extra.length = 2)
      (hl : ls.getLast? = some l) :
      Run clen (codeBits clen 16 ++ extra) ls (ls ++ List.replicate (3 + lsbValue extra) l)
  | zeros {extra : List Bool} {ls : List Nat} (h : Has clen 17) (hextra : extra.length = 3) :
      Run clen (codeBits clen 17 ++ extra) ls (ls ++ List.replicate (3 + lsbValue extra) 0)
  | manyZeros {extra : List Bool} {ls : List Nat} (h : Has clen 18) (hextra : extra.length = 7) :
      Run clen (codeBits clen 18 ++ extra) ls (ls ++ List.replicate (11 + lsbValue extra) 0)

inductive Runs (clen : List Nat) : List Bool → List Nat → List Nat → Prop
  | done {ls : List Nat} : Runs clen [] ls ls
  | run {bits rest : List Bool} {ls next all : List Nat} (h : Run clen bits ls next) (hrest : Runs clen rest next all) :
      Runs clen (bits ++ rest) ls all

/-- The lengths of the code for runs, which are written in an order of their own. -/
def runLengths (groups : List (List Bool)) : List Nat :=
  (List.range 19).map fun i => (groups.map lsbValue).getD (order.idxOf i) 0

/-- The codes that are written in front of a block. -/
inductive Codes : List Bool → List Nat → List Nat → Prop
  | mk {hlit hdist hclen runs : List Bool} {groups : List (List Bool)} {litlen dist : List Nat} (h₁ : hlit.length = 5)
      (h₂ : hdist.length = 5) (h₃ : hclen.length = 4) (hgroups : groups.length = lsbValue hclen + 4)
      (hgroup : ∀ g ∈ groups, g.length = 3) (hruns : IsCode (runLengths groups))
      (hlitlen : litlen.length = lsbValue hlit + 257) (hmax : litlen.length ≤ 286) (hdistance : dist.length = lsbValue hdist + 1)
      (h : Runs (runLengths groups) runs [] (litlen ++ dist)) (hend : Has litlen 256) (hl : IsCode litlen) (hd : IsCode dist) :
      Codes (hlit ++ (hdist ++ (hclen ++ (groups.flatten ++ runs)))) litlen dist

/-! ## Blocks -/

/-- The bytes of a stored block: its length, the complement of it, and the data. -/
def storedBytes (data : List UInt8) : List UInt8 :=
  leBytes 2 data.length ++ leBytes 2 (65535 - data.length) ++ data

/-- A block behind `pos` bits. -/
inductive Block : Nat → List Bool → List UInt8 → List UInt8 → Prop
  | stored {pos : Nat} {pad : List Bool} {data out : List UInt8} (hpad : pad.length < 8) (halign : (pos + 2 + pad.length) % 8 = 0)
      (hlen : data.length < 65536) : Block pos (false :: false :: (pad ++ (storedBytes data).flatMap byteBits)) out (out ++ data)
  | fixed {pos : Nat} {bits : List Bool} {out all : List UInt8} (h : Symbols fixedLitlen fixedDist bits out all) :
      Block pos (true :: false :: bits) out all
  | coded {pos : Nat} {codes bits : List Bool} {litlen dist : List Nat} {out all : List UInt8} (hcodes : Codes codes litlen dist)
      (h : Symbols litlen dist bits out all) : Block pos (false :: true :: (codes ++ bits)) out all

/-- Blocks up to one that is marked as the last. -/
inductive Blocks : Nat → List Bool → List UInt8 → List UInt8 → Prop
  | last {pos : Nat} {bits : List Bool} {out all : List UInt8} (h : Block (pos + 1) bits out all) :
      Blocks pos (true :: bits) out all
  | more {pos : Nat} {bits blocks : List Bool} {out next all : List UInt8} (h : Block (pos + 1) bits out next)
      (rest : Blocks (pos + 1 + bits.length) blocks next all) : Blocks pos (false :: (bits ++ blocks)) out all

/-- The bytes start with a stream for the data. -/
def Deflates (src data : List UInt8) : Prop :=
  ∃ bits rest, src.flatMap byteBits = bits ++ rest ∧ Blocks 0 bits [] data

/-! ## Sizes -/

section

variable {litlen dist clen ls next all : List Nat} {bits : List Bool} {out data whole : List UInt8} {pos : Nat}

theorem length_msbBits (n c : Nat) : (Canonical.msbBits n c).length = n := by
  induction n with
  | zero => rfl
  | succ n ih => rw [Canonical.msbBits, List.length_cons, ih]

theorem Has.lt {i : Nat} (h : Has ls i) : i < ls.length := by
  by_contra hi
  exact h (List.getD_eq_default _ _ (Nat.not_lt.mp hi))

theorem codeBits_pos {i : Nat} (h : Has ls i) : 0 < (codeBits ls i).length := by
  rw [codeBits, length_msbBits]
  exact Nat.pos_of_ne_zero h

@[simp] theorem length_matched (distance length : Nat) : (matched out distance length).length = length := by simp [matched]

theorem Symbol.bits_pos (h : Symbol litlen dist bits out data) : 0 < bits.length := by
  cases h with
  | literal h => exact codeBits_pos h
  | copy hli h =>
      have hcode := codeBits_pos h
      rw [List.length_append]
      omega

theorem Symbol.length_le (h : Symbol litlen dist bits out data) : out.length ≤ data.length := by
  cases h with
  | literal h => simp
  | copy hli h => simp

theorem Symbols.length_le (h : Symbols litlen dist bits out data) : out.length ≤ data.length := by
  induction h with
  | endOfBlock h => exact le_rfl
  | symbol h hrest ih => exact h.length_le.trans ih

theorem Run.length_lt (h : Run clen bits ls next) : ls.length < next.length := by
  cases h with
  | length hl h => simp
  | previous h hextra hl =>
      rw [List.length_append, List.length_replicate]
      omega
  | zeros h hextra =>
      rw [List.length_append, List.length_replicate]
      omega
  | manyZeros h hextra =>
      rw [List.length_append, List.length_replicate]
      omega

theorem Runs.length_le (h : Runs clen bits ls all) : ls.length ≤ all.length := by
  induction h with
  | done => exact le_rfl
  | run h hrest ih => exact h.length_lt.le.trans ih

theorem Block.length_le (h : Block pos bits out data) : out.length ≤ data.length := by
  cases h with
  | stored hpad halign hlen => simp
  | fixed h => exact h.length_le
  | coded hcodes h => exact h.length_le

theorem Blocks.length_le (h : Blocks pos bits out data) : out.length ≤ data.length := by
  induction h with
  | last h => exact h.length_le
  | more h hrest ih => exact h.length_le.trans ih

end

/-! ## Matches -/

section

variable {out : List UInt8} {distance : Nat}

theorem matched_succ (j : Nat) : matched out distance (j + 1) =
    matched out distance j ++ [out.getD (out.length - distance + j % distance) 0] := by
  rw [matched, List.range_succ, List.map_append]
  rfl

/-- The next byte of a match stands `distance` bytes in front, maybe in the match itself. -/
theorem next_matched (hpos : 0 < distance) (hback : distance ≤ out.length) (j : Nat) :
    (out ++ matched out distance j)[out.length - distance + j]? = some (out.getD (out.length - distance + j % distance) 0) := by
  by_cases hj : j < distance
  · rw [List.getElem?_append_left (by omega), Nat.mod_eq_of_lt hj, List.getD_eq_getElem _ _ (by omega)]
    exact List.getElem?_eq_getElem _
  · rw [List.getElem?_append_right (by omega), show out.length - distance + j - out.length = j - distance by omega, matched,
      List.getElem?_map, List.getElem?_range (by omega), Option.map_some, ← Nat.mod_eq_sub_mod (Nat.not_lt.mp hj)]

end

end Guppy.Archive.Deflate
