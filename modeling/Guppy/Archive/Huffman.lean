import Guppy.Archive.InflateSafe
import Mathlib.Data.List.GetD

set_option autoImplicit false

/-! # Building a code and decoding it

`huff_build` of `src/gu_gzip.c` counts how many codes there are of each length and sorts the symbols by them;
`huff_decode` reads a bit at a time and compares what it has with the first code of the length, without a tree. The code
that it reads is the canonical one: the bits of a symbol's codeword lead to the symbol, whatever follows, and lengths are
rejected exactly if they are over-subscribed (`huffBuild_decodes`).
-/

namespace Guppy.Archive.Inflate

open Checked
open Canonical (msbBits firstCode endCode kraftSum)

/-! ## The bits of the input -/

/-- The bits of a byte in the order in which they are read. -/
def byteBits (b : UInt8) : List Bool := (List.range 8).map b.toNat.testBit

/-- The bits that are to come: those in the bit buffer and those of the bytes behind the position. -/
def stream (s : Inflater) : List Bool := (List.range s.bitcnt).map s.bitbuf.testBit ++ (s.src.drop s.pos).flatMap byteBits

/-- The number of some bits, the least significant first. -/
def lsbValue : List Bool → Nat
  | [] => 0
  | b :: t => b.toNat + 2 * lsbValue t

/-- The bit buffer holds its bits and nothing above them. -/
structure Clean (s : Inflater) : Prop where
  bitbuf_lt : s.bitbuf < 2 ^ s.bitcnt

/-- The reader between two calls: less than a byte is in the bit buffer. -/
structure Steady (s : Inflater) : Prop extends Clean s where
  bitcnt_lt : s.bitcnt < 8

/-- Only the reader has moved. -/
structure SameData (s t : Inflater) : Prop where
  src : t.src = s.src
  out : t.out = s.out
  outcap : t.outcap = s.outcap

theorem SameData.refl (s : Inflater) : SameData s s := ⟨rfl, rfl, rfl⟩

theorem SameData.trans {s t u : Inflater} (h : SameData s t) (h' : SameData t u) : SameData s u :=
  ⟨h'.src.trans h.src, h'.out.trans h.out, h'.outcap.trans h.outcap⟩

theorem length_stream (s : Inflater) : (stream s).length = s.bitcnt + 8 * (s.src.length - s.pos) := by
  have hbytes (l : List UInt8) : (l.flatMap byteBits).length = 8 * l.length := by
    induction l with
    | nil => rfl
    | cons b l ih =>
        rw [List.flatMap_cons, List.length_append, ih, List.length_cons, byteBits, List.length_map, List.length_range]
        omega
  rw [stream, List.length_append, List.length_map, List.length_range, hbytes, List.length_drop]

theorem lsbValue_testBit (x n : Nat) : lsbValue ((List.range n).map x.testBit) = x % 2 ^ n := by
  induction n generalizing x with
  | zero => simp [lsbValue, Nat.mod_one]
  | succ n ih =>
      have hbit : (x.testBit 0).toNat = x % 2 := by
        rw [Nat.testBit_zero]
        rcases Nat.mod_two_eq_zero_or_one x with h | h
        · simp [h]
        · simp [h]
      have htail : (List.range n).map (x.testBit ∘ Nat.succ) = (List.range n).map (x / 2).testBit :=
        List.map_congr_left fun i _ => Nat.testBit_succ x i
      rw [List.range_succ_eq_map, List.map_cons, List.map_map, htail, lsbValue, ih, hbit, Nat.pow_succ, Nat.mul_comm (2 ^ n) 2,
        Nat.mod_mul]

/-- A byte that is put above the bits of the buffer. -/
theorem testBit_fill {x k : Nat} {b : UInt8} (hx : x < 2 ^ k) :
    (List.range (k + 8)).map (x ||| b.toNat <<< k).testBit = (List.range k).map x.testBit ++ byteBits b := by
  rw [List.range_add, List.map_append, List.map_map, byteBits]
  congr 1
  · refine List.map_congr_left fun i hi => ?_
    have hlt := List.mem_range.mp hi
    simp [Nat.testBit_or, Nat.testBit_shiftLeft, Nat.not_le.mpr hlt]
  · refine List.map_congr_left fun i _ => ?_
    have hhigh : x.testBit (k + i) = false := Nat.testBit_lt_two_pow (hx.trans_le (Nat.pow_le_pow_right (by decide) (by omega)))
    simp [Nat.testBit_or, Nat.testBit_shiftLeft, hhigh]

variable {s : Inflater}

/-- The loop of `getbits` moves bytes into the buffer and leaves the bits that are to come as they are. -/
theorem fillBits_stream {need : Nat} (hneed : need ≤ 24) (hs : Steady s) (hlen : need ≤ (stream s).length) :
    Safe (fun _ => False) (loop (fillBits need) (need + 1) ()) s (fun _ t =>
      Clean t ∧ stream t = stream s ∧ SameData s t ∧ need ≤ t.bitcnt ∧ t.bitcnt < need + 8) := by
  refine Safe.loop (fun _ t => Clean t ∧ stream t = stream s ∧ SameData s t ∧ t.bitcnt < need + 8)
    (fun _ t => need - t.bitcnt) ?_ ⟨hs.toClean, rfl, SameData.refl s, by have := hs.bitcnt_lt; omega⟩ (by omega)
  rintro _ t ⟨hclean, hstream, hsame, hcnt⟩
  unfold fillBits
  refine Safe.step (Safe.get ?_)
  by_cases hdone : need ≤ t.bitcnt
  · rw [if_pos hdone]
    exact Safe.pure ⟨hclean, hstream, hsame, hdone, hcnt⟩
  · rw [if_neg hdone]
    rw [← hstream, length_stream] at hlen
    have hpos : t.pos < t.src.length := by omega
    refine Safe.step (Safe.failIf (fun hend => absurd hend (by omega)) fun _ => ?_)
    refine Safe.step (Safe.index hpos ?_)
    refine Safe.step (Safe.require (by omega) ?_)
    refine Safe.step (Safe.modify ?_)
    -- the byte fits the buffer above its bits
    have hbyte := (t.src[t.pos]).toNat_lt
    have hshift : (t.src[t.pos]).toNat <<< t.bitcnt % 4294967296 = (t.src[t.pos]).toNat <<< t.bitcnt := by
      apply Nat.mod_eq_of_lt
      rw [Nat.shiftLeft_eq]
      calc (t.src[t.pos]).toNat * 2 ^ t.bitcnt < 256 * 2 ^ t.bitcnt := Nat.mul_lt_mul_of_pos_right hbyte (Nat.two_pow_pos _)
        _ ≤ 256 * 2 ^ 24 := Nat.mul_le_mul_left _ (Nat.pow_le_pow_right (by decide) (by omega))
        _ = 4294967296 := by decide
    refine Safe.pure ⟨⟨⟨?_⟩, ?_, ⟨hsame.src, hsame.out, hsame.outcap⟩, ?_⟩, ?_⟩
    · dsimp only []
      rw [hshift]
      refine Nat.or_lt_two_pow (hclean.bitbuf_lt.trans_le (Nat.pow_le_pow_right (by decide) (Nat.le_add_right _ 8))) ?_
      rw [Nat.shiftLeft_eq, Nat.pow_add, Nat.mul_comm]
      exact Nat.mul_lt_mul_of_pos_left hbyte (Nat.two_pow_pos _)
    · rw [← hstream, stream, stream]
      dsimp only []
      rw [hshift, testBit_fill hclean.bitbuf_lt, List.append_assoc, List.drop_eq_getElem_cons hpos, List.flatMap_cons]
    · dsimp only []
      omega
    · dsimp only []
      omega

/-- `getbits` takes the next bits. -/
theorem getbits_stream {bits rest : List Bool} (hneed : bits.length ≤ 24) (hs : Steady s) (h : stream s = bits ++ rest) :
    Safe (fun _ => False) (getbits bits.length) s (fun v t =>
      v = lsbValue bits ∧ Steady t ∧ stream t = rest ∧ SameData s t) := by
  unfold getbits
  refine Safe.bind (fillBits_stream hneed hs (by rw [h, List.length_append]; omega)) ?_
  rintro _ t ⟨hclean, hstream, hsame, hge, hlt⟩
  refine Safe.step (Safe.get ?_)
  refine Safe.step (Safe.require (by omega) ?_)
  refine Safe.step (Safe.sub hge ?_)
  refine Safe.step (Safe.modify ?_)
  -- the buffer is what is taken and what stays
  obtain ⟨left, hleft⟩ := Nat.exists_eq_add_of_le hge
  have hbuf : (List.range t.bitcnt).map t.bitbuf.testBit =
      (List.range bits.length).map t.bitbuf.testBit ++ (List.range left).map (t.bitbuf >>> bits.length).testBit := by
    rw [hleft, List.range_add, List.map_append, List.map_map]
    congr 1
    refine List.map_congr_left fun i _ => ?_
    rw [Function.comp_apply, Nat.testBit_shiftRight]
  rw [h, stream, hbuf, List.append_assoc] at hstream
  obtain ⟨hbits, hrest⟩ := List.append_inj hstream (by simp)
  refine Safe.pure ⟨?_, ⟨⟨?_⟩, ?_⟩, ?_, ⟨hsame.src, hsame.out, hsame.outcap⟩⟩
  · rw [← hbits, lsbValue_testBit]
    split
    · rename_i h0
      rw [List.length_map, List.length_range] at h0
      rw [h0, Nat.pow_zero, Nat.mod_one]
    · rw [Nat.one_shiftLeft, List.length_map, List.length_range]
      exact Nat.and_two_pow_sub_one_eq_mod _ _
  · dsimp only []
    rw [Nat.shiftRight_eq_div_pow, Nat.div_lt_iff_lt_mul (Nat.two_pow_pos _), ← Nat.pow_add, Nat.sub_add_cancel hge]
    exact hclean.bitbuf_lt
  · dsimp only []
    omega
  · rw [stream]
    dsimp only []
    rw [hleft, Nat.add_sub_cancel_left]
    exact hrest

/-! ## The tables -/

section Build

variable {f : Nat → Nat} {n : Nat}

/-- The tables for the lengths `f` of `n` symbols. -/
structure Built (h : Huffman) (f : Nat → Nat) (n : Nat) : Prop where
  counts : Numbers h.count (occurs f n)
  symbols : ∀ i, i < n → f i ≠ 0 → h.symbol[base (occurs f n) (f i) + occurs f i (f i)]? = some (some i)

/-- Without a code there is nothing to place. -/
theorem zero_of_occurs (h : occurs f n 0 = n) {i : Nat} (hi : i < n) : f i = 0 := Nat.count_iff_forall.mp h i hi

theorem endCode_of_zero (h : occurs f n 0 = n) (m : Nat) : endCode (occurs f n) m = 0 := by
  rw [Canonical.endCode_eq_sum]
  refine Finset.sum_eq_zero fun j _ => ?_
  have hnone : occurs f n (j + 1) = 0 := by
    refine Nat.count_of_forall_not fun i hi he => ?_
    rw [zero_of_occurs h hi] at he
    exact absurd he (Nat.succ_ne_zero j).symm
  rw [hnone, Nat.zero_mul]

theorem huffBuild_spec {E : Inflater → Prop} {length : Table} {off : Nat} (hn : n ≤ maxCodes)
    (hf : ∀ i, i < n → length[off + i]? = some (some (f i))) (hmax : ∀ i, i < n → f i ≤ maxBits) :
    Safe E (huffBuild length off n) s (fun r t => t = s ∧
      (endCode (occurs f n) maxBits ≤ 2 ^ maxBits → 0 ≤ r.1 ∧ Built r.2 f n) ∧
      (2 ^ maxBits < endCode (occurs f n) maxBits → r.1 = -1)) := by
  unfold huffBuild
  refine Safe.bind (countLengths_safe hf) ?_
  rintro ⟨ok, count⟩ t ⟨rfl, m, hm, hzeros, hcounts, hall, hok⟩
  dsimp only [] at hzeros hcounts hall hok ⊢
  have htrue := hok.mpr hmax
  obtain rfl := hall htrue
  · rw [if_neg (by simp [htrue])]
    refine Safe.step (Safe.fetch hzeros ?_)
    split
    · rename_i hnone
      rw [endCode_of_zero hnone]
      exact Safe.pure ⟨rfl, fun _ => ⟨le_rfl, hcounts, fun i hi h0 => absurd (zero_of_occurs hnone hi) h0⟩,
        fun hover => absurd hover (Nat.not_lt_zero _)⟩
    · refine Safe.bind (codesLeft_safe hcounts) ?_
      rintro left t ⟨rfl, hleft⟩
      split
      · rename_i hneg
        exact Safe.pure ⟨rfl, fun hfits => absurd (hleft.mpr hfits) (by omega), fun _ => rfl⟩
      · rename_i hpos
        refine Safe.bind (symbolOffsets_safe hcounts) ?_
        rintro offs t ⟨rfl, hoffs⟩
        refine Safe.bind (placeSymbols_safe hn hf hmax hoffs) ?_
        rintro ⟨_, symbol⟩ t ⟨rfl, -, hplaced⟩
        have hfits := hleft.mp (by omega)
        exact Safe.pure ⟨rfl, fun _ => ⟨by omega, hcounts, hplaced⟩, fun hover => absurd hover (by omega)⟩

/-! ## Decoding -/

/-- The codeword of a symbol: the first of its length, and one more for each symbol of that length in front. -/
def codeword (f : Nat → Nat) (n i : Nat) : Nat := firstCode (occurs f n) (f i) + occurs f i (f i)

theorem occurs_lt {i : Nat} (hi : i < n) : occurs f i (f i) < occurs f n (f i) := by
  have := occurs_mono f (show i + 1 ≤ n by omega) (f i)
  rw [occurs_succ, if_pos rfl] at this
  exact this

/-- With `d` bits of the codeword behind the next one, the decoder has those in front of it. -/
theorem decodeFrom_stream {h : Huffman} (hb : Built h f n) {i : Nat} (hi : i < n) (h0 : f i ≠ 0) (k : Nat) :
    ∀ {len d : Nat} {s : Inflater} {rest : List Bool}, 1 ≤ len → len + d = f i → f i < len + k → f i ≤ maxBits → Steady s →
      stream s = msbBits (d + 1) (codeword f n i) ++ rest →
      Safe (fun _ => False) (decodeFrom h k len (2 * (codeword f n i / 2 ^ (d + 1))) (firstCode (occurs f n) len)
        (base (occurs f n) len)) s (fun v t => v = i ∧ Steady t ∧ stream t = rest ∧ SameData s t) := by
  induction k with
  | zero => exact fun _ hlen hk => absurd hlen (by omega)
  | succ k ih =>
      intro len d s rest hlen hd hk hmax hs hstream
      rw [msbBits, List.cons_append] at hstream
      rw [decodeFrom]
      refine Safe.bind (@getbits_stream s [(codeword f n i).testBit d] _ (show 1 ≤ 24 by decide) hs hstream) ?_
      rintro bit t ⟨rfl, ht, hrest, hsame⟩
      have hcode : 2 * (codeword f n i / 2 ^ (d + 1)) ||| lsbValue [(codeword f n i).testBit d] = codeword f n i / 2 ^ d := by
        have hbit : ((codeword f n i).testBit d).toNat < 2 ^ 1 := Bool.toNat_lt _
        have hor := Nat.two_pow_add_eq_or_of_lt hbit (codeword f n i / 2 ^ (d + 1))
        rw [Nat.pow_one] at hor
        have hval : lsbValue [(codeword f n i).testBit d] = ((codeword f n i).testBit d).toNat := rfl
        rw [hval, ← hor, ← Canonical.div_succ]
      dsimp only []
      rw [hcode]
      refine Safe.step (Safe.fetch (hb.counts len hlen (by omega)) ?_)
      cases d with
      | zero =>
          -- all bits are read
          obtain rfl : len = f i := by omega
          have hlt := @occurs_lt f n i hi
          rw [Nat.pow_zero, Nat.div_one, if_pos ⟨Nat.le_add_right _ _, by rw [codeword]; omega⟩]
          refine Safe.fetch (v := i) ?_ ⟨rfl, ht, by simpa [msbBits] using hrest, hsame⟩
          rw [codeword, Nat.add_sub_cancel_left]
          exact hb.symbols i hi h0
      | succ d =>
          have hbehind : endCode (occurs f n) len ≤ codeword f n i / 2 ^ (d + 1) := by
            apply Canonical.endCode_le_div
            rw [show len + (d + 1) = f i by omega]
            exact Nat.le_add_right _ _
          rw [endCode, Canonical.used_of_pos hlen] at hbehind
          rw [if_neg (by omega), Nat.shiftLeft_eq, Nat.shiftLeft_eq, Nat.pow_one, Nat.mul_comm _ 2, Nat.mul_comm _ 2]
          have hnext := @ih (len + 1) d t rest (by omega) (by omega) (by omega) hmax ht (by simpa [msbBits] using hrest)
          rw [Canonical.firstCode_succ, endCode, Canonical.used_of_pos hlen, base_succ _ hlen] at hnext
          exact Safe.mono hnext fun v u hu => ⟨hu.1, hu.2.1, hu.2.2.1, hsame.trans hu.2.2.2⟩

/-- The bits of a codeword are read as its symbol. -/
theorem huffDecode_stream {h : Huffman} (hb : Built h f n) (hfits : endCode (occurs f n) maxBits ≤ 2 ^ maxBits) {i : Nat}
    (hi : i < n) (h0 : f i ≠ 0) (hmax : f i ≤ maxBits) {s : Inflater} {rest : List Bool} (hs : Steady s)
    (hstream : stream s = msbBits (f i) (codeword f n i) ++ rest) :
    Safe (fun _ => False) (huffDecode h) s (fun v t => v = i ∧ Steady t ∧ stream t = rest ∧ SameData s t) := by
  have hlt : codeword f n i < 2 ^ f i := by
    have hend := Canonical.fits_iff.mpr hfits (f i) hmax
    rw [endCode, Canonical.used_of_pos (by omega)] at hend
    have := @occurs_lt f n i hi
    rw [codeword]
    omega
  obtain ⟨d, hd⟩ : ∃ d, f i = d + 1 := ⟨f i - 1, by omega⟩
  have hrun := @decodeFrom_stream f n h hb i hi h0 maxBits 1 d s rest le_rfl (by omega) (by omega) hmax hs
    (by rw [← hd]; exact hstream)
  rw [← hd, Nat.div_eq_of_lt hlt] at hrun
  exact hrun

end Build

/-! ## Lists of lengths -/

/-- The lengths take more places than there are. -/
def Oversubscribed (ls : List Nat) : Prop := 2 ^ maxBits < kraftSum maxBits ls

/-- The canonical codeword of a symbol. -/
def codeBits (ls : List Nat) (i : Nat) : List Bool :=
  msbBits (ls.getD i 0) (firstCode (fun l => ls.count l) (ls.getD i 0) + (ls.take i).count (ls.getD i 0))

theorem occurs_getD {ls : List Nat} (m l : Nat) (hm : m ≤ ls.length) :
    occurs (fun i => ls.getD i 0) m l = (ls.take m).count l := by
  induction m with
  | zero => rfl
  | succ m ih =>
      rw [occurs_succ, ih (by omega), List.take_succ_eq_append_getElem hm, List.count_append, List.getD_eq_getElem _ _ hm]
      by_cases h : ls[m] = l
      · simp [h]
      · simp [h]

theorem occurs_eq_count (ls : List Nat) : occurs (fun i => ls.getD i 0) ls.length = fun l => ls.count l := by
  funext l
  rw [occurs_getD _ _ le_rfl, List.take_length]

/-- Lengths that are not over-subscribed are accepted, and what `huff_decode` reads from a stream that starts with the
codeword of a symbol is the symbol, and no bit more than the codeword has. Over-subscribed lengths are rejected. -/
theorem huffBuild_decodes (ls : List Nat) (hn : ls.length ≤ maxCodes) (hls : ∀ l ∈ ls, l ≤ maxBits) (length : Table)
    (off : Nat) (hlength : ∀ i, i < ls.length → length[off + i]? = some (some (ls.getD i 0))) (s : Inflater) :
    (¬ Oversubscribed ls → ∃ left h, huffBuild length off ls.length s = .ok (left, h) s ∧ 0 ≤ left ∧
      ∀ i, i < ls.length → ls.getD i 0 ≠ 0 → ∀ t rest, Steady t → stream t = codeBits ls i ++ rest →
        ∃ u, huffDecode h t = .ok i u ∧ Steady u ∧ stream u = rest ∧ SameData t u) ∧
    (Oversubscribed ls → ∃ h, huffBuild length off ls.length s = .ok (-1, h) s) := by
  have hmax : ∀ i, i < ls.length → ls.getD i 0 ≤ maxBits := fun i hi => by
    rw [List.getD_eq_getElem _ _ hi]
    exact hls _ (List.getElem_mem hi)
  obtain ⟨⟨left, h⟩, t, hrun, rfl, haccept, hreject⟩ :=
    Safe.result (@huffBuild_spec s (fun i => ls.getD i 0) ls.length (fun _ => False) length off hn hlength hmax)
  have hkraft : endCode (occurs (fun i => ls.getD i 0) ls.length) maxBits = kraftSum maxBits ls := by
    rw [occurs_eq_count, Canonical.kraftSum_eq hls]
  rw [hkraft] at haccept hreject
  constructor
  · intro hover
    obtain ⟨hleft, hbuilt⟩ := haccept (Nat.not_lt.mp hover)
    refine ⟨left, h, hrun, hleft, fun i hi h0 t rest ht hstream => ?_⟩
    have hword : codeBits ls i = msbBits (ls.getD i 0) (codeword (fun i => ls.getD i 0) ls.length i) := by
      rw [codeBits, codeword, occurs_eq_count, occurs_getD _ _ (by omega)]
    rw [hword] at hstream
    obtain ⟨v, u, hdecode, rfl, hu⟩ := Safe.result (huffDecode_stream hbuilt (hkraft.le.trans (Nat.not_lt.mp hover)) hi h0
      (hmax i hi) ht hstream)
    exact ⟨u, hdecode, hu⟩
  · intro hover
    have hleft : left = -1 := hreject hover
    exact ⟨h, by rw [hrun, hleft]⟩

example : (List.range 3).map (codeBits [2, 1, 2]) = [[true, false], [false], [true, true]] := by decide

/-- A reader in front of a byte whose two lowest bits are set. -/
def reader : Inflater := ⟨[3], 0, 0, 0, [], 0⟩

theorem huffBuild_decodes_three : ∃ left h, huffBuild [some 2, some 1, some 2] 0 3 reader = .ok (left, h) reader ∧ 0 ≤ left ∧
    ∃ u, huffDecode h reader = .ok 2 u ∧ stream u = List.replicate 6 false := by
  obtain ⟨left, h, hrun, hleft, hdecode⟩ := (huffBuild_decodes [2, 1, 2] (by decide) (by decide)
    [some 2, some 1, some 2] 0 (by decide) reader).1 (by rw [Oversubscribed]; decide)
  obtain ⟨u, hu, -, hrest, -⟩ := hdecode 2 (by decide) (by decide) reader (List.replicate 6 false)
    ⟨⟨by decide⟩, by decide⟩ (by decide)
  exact ⟨left, h, hrun, hleft, u, hu, hrest⟩

end Guppy.Archive.Inflate
