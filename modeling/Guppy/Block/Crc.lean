import Guppy.Block.Scan
import Guppy.Lib.Crc

set_option autoImplicit false

/-! # The three checksums

The `gpt` command and the scanner each have a table of 256 words that is filled on the first call and
read a byte at a time; the gzip reader of `src/gu_gzip.c` works a bit at a time. All three compute the
CRC-32 of their bytes (`crc32_agree`).
-/

namespace Guppy.Block

open Crc

/-! ## With a table -/

/-- `crc32_table` and `crc_ready`. -/
structure CrcTable where
  table : List Nat
  ready : Bool
  filled : ready = true → table = (List.range 256).map crcEntry

/-- The table when the program starts. -/
def CrcTable.start : CrcTable := ⟨List.replicate 256 0, false, Bool.noConfusion⟩

/-- `crc_init` -/
def crcInit (s : CrcTable) : CrcTable :=
  if s.ready = true then s else ⟨(List.range 256).map crcEntry, true, fun _ => rfl⟩

/-- A round of the loop of `crc32_calc`. -/
def crcRound (table : List Nat) (c : Nat) (b : UInt8) : Nat := table.getD ((c ^^^ b.toNat) % 256) 0 ^^^ (c / 256)

/-- `crc32_calc`, with the table of its file. -/
def crc32Table (s : CrcTable) (data : List UInt8) : Nat × CrcTable :=
  let s := crcInit s
  (data.foldl (crcRound s.table) 0xFFFFFFFF ^^^ 0xFFFFFFFF, s)

/-- `crc32_calc` of `src/cmd_gpt.c`. -/
def CmdGpt.crc32Calc (s : CrcTable) (data : List UInt8) : Nat × CrcTable := crc32Table s data

/-- `crc32_calc` of `src/blkdev.c`. -/
def Blkdev.crc32Calc (s : CrcTable) (data : List UInt8) : Nat × CrcTable := crc32Table s data

/-! ## Without -/

/-- A bit of `crc32_bytes`. -/
def gzipBit (crc : Nat) : Nat := (crc / 2) ^^^ (0xEDB88320 &&& ((uint32 - crc % 2) % uint32))

/-- A byte of `crc32_bytes`. -/
def gzipByte (crc : Nat) (b : UInt8) : Nat := (List.range 8).foldl (fun crc _ => gzipBit crc) (crc ^^^ b.toNat)

/-- `crc32_bytes` -/
def crc32Bytes (p : List UInt8) : Nat := p.foldl gzipByte 0xFFFFFFFF ^^^ 0xFFFFFFFF

/-! ## The standard checksum -/

/-- The CRC-32 of a message: its first 32 bits and the result are inverted. -/
def IsCrc32 (msg : List UInt8) (v : Nat) : Prop := IsCrc 32 0xEDB88320 0xFFFFFFFF 0xFFFFFFFF msg v

open Polynomial in
/-- The generator of CRC-32. -/
theorem gen_crc32 : gen 32 0xEDB88320 = X ^ 32 + X ^ 26 + X ^ 23 + X ^ 22 + X ^ 16 + X ^ 12 + X ^ 11 + X ^ 10 + X ^ 8 +
    X ^ 7 + X ^ 5 + X ^ 4 + X ^ 2 + X + 1 := by
  unfold gen reg
  simp [Finset.sum_range_succ, Nat.testBit]
  ring

theorem foldl_range {f g : Nat → Nat} (h : ∀ c, f c = g c) (n c : Nat) : (List.range n).foldl (fun c _ => f c) c = g^[n] c := by
  obtain rfl : f = g := funext h
  rw [List.foldl_const, List.length_range]

theorem crcEntry_eq (i : Nat) : crcEntry i = (shift 0xEDB88320)^[8] i := by
  refine foldl_range (fun c => ?_) 8 i
  unfold shift
  simp only [Nat.testBit_zero, decide_eq_true_eq]

theorem gzipByte_eq (crc : Nat) (b : UInt8) : gzipByte crc b = (shift 0xEDB88320)^[8] (crc ^^^ b.toNat) := by
  refine foldl_range (fun c => ?_) 8 _
  unfold gzipBit shift
  simp only [Nat.testBit_zero, decide_eq_true_eq]
  rcases Nat.mod_two_eq_zero_or_one c with h | h
  · have hmask : 0xEDB88320 &&& ((uint32 - 0) % uint32) = 0 := by decide
    rw [h, if_neg Nat.zero_ne_one, hmask, Nat.xor_zero]
  · -- the mask is all ones
    have hmask : 0xEDB88320 &&& ((uint32 - 1) % uint32) = 0xEDB88320 := by decide
    rw [h, if_pos rfl, hmask, Nat.xor_comm]

/-- The table has eight bits worked out. -/
theorem crcRound_eq {c : Nat} (b : UInt8) :
    crcEntry ((c ^^^ b.toNat) % 256) ^^^ (c / 256) = (shift 0xEDB88320)^[8] (c ^^^ b.toNat) := by
  have hhigh : (c ^^^ b.toNat) / 2 ^ 8 = c / 2 ^ 8 := by
    rw [Nat.xor_div_two_pow, Nat.div_eq_of_lt b.toNat_lt, Nat.xor_zero]
  rw [shift_iterate_table, hhigh, crcEntry_eq]
  rfl

theorem crcRound_table (c : Nat) (b : UInt8) :
    crcRound ((List.range 256).map crcEntry) c b = (shift 0xEDB88320)^[8] (c ^^^ b.toNat) := by
  have hlt : (c ^^^ b.toNat) % 256 < 256 := Nat.mod_lt _ (by decide)
  unfold crcRound
  rw [List.getD_eq_getElem _ _ (by rw [List.length_map, List.length_range]; exact hlt), List.getElem_map, List.getElem_range]
  exact crcRound_eq b

/-- A loop that works eight bits at a time holds the remainder. -/
theorem foldl_holds {f : Nat → UInt8 → Nat} (hf : ∀ c b, f c b = (shift 0xEDB88320)^[8] (c ^^^ b.toNat)) (data : List UInt8) :
    Holds 32 0xEDB88320 0xFFFFFFFF data (data.foldl f 0xFFFFFFFF) := by
  induction data using List.reverseRecOn with
  | nil => exact Holds.start (by decide)
  | append_singleton data b ih =>
      rw [List.foldl_append, List.foldl_cons, List.foldl_nil, hf]
      exact ih.byte (by decide) (by decide) b

theorem crcInit_table (s : CrcTable) : (crcInit s).table = (List.range 256).map crcEntry := by
  unfold crcInit
  split
  · rename_i h
    exact s.filled h
  · rfl

theorem crc32Table_isCrc32 (s : CrcTable) (data : List UInt8) : IsCrc32 data (crc32Table s data).1 := by
  unfold crc32Table
  dsimp only []
  rw [crcInit_table]
  exact (foldl_holds crcRound_table data).isCrc (by decide)

theorem crc32Bytes_isCrc32 (data : List UInt8) : IsCrc32 data (crc32Bytes data) :=
  (foldl_holds gzipByte_eq data).isCrc (by decide)

theorem crcFrom_eq (p : Mem) (count : Nat) : ∀ i c, crcFrom p count i c =
    (p.toList i count).foldl (crcRound ((List.range 256).map crcEntry)) c := by
  induction count with
  | zero =>
      intro i c
      rfl
  | succ count ih =>
      intro i c
      have hcons : p.toList i (count + 1) = p i :: p.toList (i + 1) count := by
        unfold Mem.toList
        rw [List.range_succ_eq_map, List.map_cons, List.map_map]
        refine congrArg _ (List.map_congr_left fun j _ => ?_)
        show p (i + (j + 1)) = p (i + 1 + j)
        rw [Nat.add_right_comm, Nat.add_assoc]
      rw [crcFrom, ih, hcons, List.foldl_cons, crcRound_table, crcRound_eq]

/-- The checksum of the `gpt` command and the scanner, of the bytes in a store. -/
theorem crc32Table_toList (s : CrcTable) (p : Mem) (len : Nat) : (crc32Table s (p.toList 0 len)).1 = crc32Calc p len := by
  unfold crc32Table crc32Calc
  dsimp only []
  rw [crcInit_table, crcFrom_eq]

/-- Whatever was called before, the three have one result, and it is the standard one. -/
theorem crc32_agree (gpt scan : CrcTable) (data : List UInt8) :
    (CmdGpt.crc32Calc gpt data).1 = crc32Bytes data ∧ (Blkdev.crc32Calc scan data).1 = crc32Bytes data ∧
      IsCrc32 data (crc32Bytes data) := by
  have hgzip := crc32Bytes_isCrc32 data
  refine ⟨?_, ?_, hgzip⟩
  · exact (crc32Table_isCrc32 gpt data).unique hgzip (by decide)
  · exact (crc32Table_isCrc32 scan data).unique hgzip (by decide)

end Guppy.Block
