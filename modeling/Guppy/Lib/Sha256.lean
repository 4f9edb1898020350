import Mathlib.Data.Nat.Basic
import Mathlib.Tactic.Ring

set_option autoImplicit false

/-! # SHA-256

The secure hash standard's SHA-256, over lists of bytes. The message is padded to a whole number
of blocks of 64 bytes, and each block is worked into a state of eight words. The constants are the
first 32 bits of the fractional parts of the square and cube roots of the first primes, and they
are computed here as such.
-/

namespace Guppy.Sha256

/-! ## Constants -/

/-- The largest `r` below `2 ^ bits` beyond `r₀` with `r ^ e ≤ n`, bit by bit. -/
def rootFrom (e n : Nat) : Nat → Nat → Nat
  | 0, r => r
  | bits + 1, r => rootFrom e n bits (if (r + 2 ^ bits) ^ e ≤ n then r + 2 ^ bits else r)

/-- The first 32 bits of the fractional part of the `e`-th root of `p`, as a word. -/
def rootWord (e p : Nat) : UInt32 := UInt32.ofNat (rootFrom e (p * 2 ^ (32 * e)) 40 0)

/-- The first sixty-four primes. -/
def primes : List Nat :=
  [2, 3, 5, 7, 11, 13, 17, 19, 23, 29, 31, 37, 41, 43, 47, 53, 59, 61, 67, 71, 73, 79, 83, 89, 97, 101, 103, 107, 109,
    113, 127, 131, 137, 139, 149, 151, 157, 163, 167, 173, 179, 181, 191, 193, 197, 199, 211, 223, 227, 229, 233, 239,
    241, 251, 257, 263, 269, 271, 277, 281, 283, 293, 307, 311]

/-- The constant of a round. -/
def roundWord (t : Nat) : UInt32 := rootWord 3 (primes.getD t 0)

/-! ## Words -/

def rotr (x : UInt32) (n : UInt32) : UInt32 := (x >>> n) ||| (x <<< (32 - n))

def bigSigma0 (x : UInt32) : UInt32 := rotr x 2 ^^^ rotr x 13 ^^^ rotr x 22
def bigSigma1 (x : UInt32) : UInt32 := rotr x 6 ^^^ rotr x 11 ^^^ rotr x 25
def smallSigma0 (x : UInt32) : UInt32 := rotr x 7 ^^^ rotr x 18 ^^^ (x >>> 3)
def smallSigma1 (x : UInt32) : UInt32 := rotr x 17 ^^^ rotr x 19 ^^^ (x >>> 10)
def ch (x y z : UInt32) : UInt32 := (x &&& y) ^^^ (~~~x &&& z)
def maj (x y z : UInt32) : UInt32 := (x &&& y) ^^^ (x &&& z) ^^^ (y &&& z)

/-- Four bytes as a word, most significant byte first. -/
def wordOf (b : List UInt8) : UInt32 :=
  ((b.getD 0 0).toUInt32 <<< 24) ||| ((b.getD 1 0).toUInt32 <<< 16) ||| ((b.getD 2 0).toUInt32 <<< 8) |||
    (b.getD 3 0).toUInt32

def bytesOf (w : UInt32) : List UInt8 := [(w >>> 24).toUInt8, (w >>> 16).toUInt8, (w >>> 8).toUInt8, w.toUInt8]

/-! ## Blocks -/

/-- The eight words of the state. -/
structure State where
  a : UInt32
  b : UInt32
  c : UInt32
  d : UInt32
  e : UInt32
  f : UInt32
  g : UInt32
  h : UInt32
  deriving DecidableEq

def State.add (s t : State) : State :=
  ⟨s.a + t.a, s.b + t.b, s.c + t.c, s.d + t.d, s.e + t.e, s.f + t.f, s.g + t.g, s.h + t.h⟩

def State.bytes (s : State) : List UInt8 :=
  bytesOf s.a ++ bytesOf s.b ++ bytesOf s.c ++ bytesOf s.d ++ bytesOf s.e ++ bytesOf s.f ++ bytesOf s.g ++ bytesOf s.h

def initial : State :=
  ⟨rootWord 2 2, rootWord 2 3, rootWord 2 5, rootWord 2 7, rootWord 2 11, rootWord 2 13, rootWord 2 17, rootWord 2 19⟩

/-- The message schedule of a block. -/
def schedule (block : List UInt8) (t : Nat) : UInt32 :=
  if t < 16 then wordOf (block.drop (4 * t))
  else
    smallSigma1 (schedule block (t - 2)) + schedule block (t - 7) + smallSigma0 (schedule block (t - 15)) +
      schedule block (t - 16)
  termination_by t

/-- A round with a constant and a word of the schedule. -/
def round (s : State) (k w : UInt32) : State :=
  let t₁ := s.h + bigSigma1 s.e + ch s.e s.f s.g + k + w
  let t₂ := bigSigma0 s.a + maj s.a s.b s.c
  ⟨t₁ + t₂, s.a, s.b, s.c, s.d + t₁, s.e, s.f, s.g⟩

def compress (s : State) (block : List UInt8) : State :=
  s.add ((List.range 64).foldl (fun s t => round s (roundWord t) (schedule block t)) s)

/-- Work the whole blocks of some bytes into the state. -/
def process (s : State) (bytes : List UInt8) : State :=
  if 64 ≤ bytes.length then process (compress s (bytes.take 64)) (bytes.drop 64) else s
  termination_by bytes.length
  decreasing_by
    rw [List.length_drop]
    omega

/-! ## Messages -/

/-- A number as eight bytes, most significant byte first. -/
def lengthBytes (n : Nat) : List UInt8 := (List.range 8).map (fun i => UInt8.ofNat (n / 256 ^ (7 - i)))

/-- A message with its padding: a one bit, zeros, and the number of its bits. -/
def pad (msg : List UInt8) : List UInt8 :=
  msg ++ [128] ++ List.replicate ((119 - msg.length % 64) % 64) 0 ++ lengthBytes (8 * msg.length)

/-- The digest of a message. -/
def digest (msg : List UInt8) : List UInt8 := (process initial (pad msg)).bytes

theorem length_digest (msg : List UInt8) : (digest msg).length = 32 := rfl

theorem process_short {s : State} {bytes : List UInt8} (h : bytes.length < 64) : process s bytes = s := by
  rw [process, if_neg (by omega)]

/-- A block in front. -/
theorem process_block {s : State} {block bytes : List UInt8} (h : block.length = 64) :
    process s (block ++ bytes) = process (compress s block) bytes := by
  rw [process, if_pos (by rw [List.length_append]; omega), List.take_left' h, List.drop_left' h]

/-- Whole blocks in front. -/
theorem process_append (n : Nat) : ∀ {s : State} {a b : List UInt8}, a.length = 64 * n →
    process s (a ++ b) = process (process s a) b := by
  induction n with
  | zero =>
      intro s a b ha
      obtain rfl : a = [] := List.length_eq_zero_iff.mp (by omega)
      have hnil : process s [] = s := process_short (by decide)
      rw [List.nil_append, hnil]
  | succ n ih =>
      intro s a b ha
      have hsplit : a = a.take 64 ++ a.drop 64 := (List.take_append_drop ..).symm
      have htake : (a.take 64).length = 64 := by rw [List.length_take]; omega
      have hdrop : (a.drop 64).length = 64 * n := by rw [List.length_drop]; omega
      rw [hsplit, List.append_assoc, process_block htake, process_block htake, ih hdrop]

end Guppy.Sha256
