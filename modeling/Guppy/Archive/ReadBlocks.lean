import Guppy.Archive.ReadCodes

set_option autoImplicit false

/-! # Reading the blocks of a stream

`inflate_codes` and `inflate_raw` of `src/gu_gzip.c` on streams of the format: the symbols of a block, with matches that may read
what they write (`copyMatch_reading`), stored blocks behind the rest of a byte, and all blocks up to the last one. What bytes
deflate is what they are inflated to (`inflateRaw_eq`).
-/

namespace Guppy.Archive.Inflate

open Checked
open Deflate

variable {src out data : List UInt8} {cap : Nat} {bits rest : List Bool} {s t : Inflater} {litlen dist : List Nat}

/-! ## Symbols -/

theorem putByte_reading {byte : UInt8} (hroom : out.length < cap) (h : Reading src cap out rest s) :
    Safe (fun _ => False) (putByte byte) s (fun _ t => Reading src cap (out ++ [byte]) rest t) := by
  unfold putByte
  refine Safe.step (Safe.get ?_)
  refine Safe.step (Safe.require (by rw [h.out_eq, h.cap_eq]; exact hroom) ?_)
  exact Safe.modify ⟨⟨⟨h.bitbuf_lt⟩, h.bitcnt_lt⟩, h.src_eq, h.cap_eq, by rw [← h.out_eq], h.stream_eq⟩

/-- Byte by byte the loop writes a match, also where it reads what it has written. -/
theorem copyMatch_reading {distance length : Nat} (hpos : 0 < distance) (hback : distance ≤ out.length)
    (hroom : out.length + length ≤ cap) (h : Reading src cap out rest s) :
    Safe (fun _ => False) (copyMatch (out.length - distance) length) s (fun _ t =>
      Reading src cap (out ++ matched out distance length) rest t) := by
  have hloop : Safe (fun _ => False) (copyMatch (out.length - distance) length) s (fun _ t =>
      Reading src cap (out ++ matched out distance (out.length - distance + length - (out.length - distance))) rest t) := by
    refine Safe.forLoop (fun k (_ : Unit) t =>
      Reading src cap (out ++ matched out distance (k - (out.length - distance))) rest t) ?_ ?_
    · rw [Nat.sub_self]
      simpa [matched] using h
    · rintro k _ t hk hlt ht
      obtain ⟨j, rfl⟩ := Nat.exists_eq_add_of_le hk
      rw [Nat.add_sub_cancel_left] at ht
      rw [show out.length - distance + j + 1 - (out.length - distance) = j + 1 by omega, matched_succ, ← List.append_assoc]
      have hbyte := next_matched hpos hback j
      obtain ⟨hin, hget⟩ := List.getElem?_eq_some_iff.mp hbyte
      refine Safe.step (Safe.get ?_)
      refine Safe.step (Safe.index (by rw [ht.out_eq]; exact hin) ?_)
      simp only [ht.out_eq, hget]
      exact putByte_reading (by rw [List.length_append, length_matched]; omega) ht
  rw [Nat.add_sub_cancel_left] at hloop
  exact hloop

/-- The tables of the decoder have the base lengths and the extra bits of the format. -/
theorem lext_eq {i : Nat} (hi : i < 29) : ∃ h : i < lext.length, lext[i] = lengthExtra i := by
  have hall : ∀ j : Fin 29, lext[j.val]? = some (lengthExtra j) := by decide
  exact List.getElem?_eq_some_iff.mp (hall ⟨i, hi⟩)

theorem lbase_eq {i : Nat} (hi : i < 29) : ∃ h : i < lbase.length, lbase[i] = lengthBase i := by
  have hall : ∀ j : Fin 29, lbase[j.val]? = some (lengthBase j) := by decide
  exact List.getElem?_eq_some_iff.mp (hall ⟨i, hi⟩)

theorem dext_eq {i : Nat} (hi : i < 30) : ∃ h : i < dext.length, dext[i] = distExtra i := by
  have hall : ∀ j : Fin 30, dext[j.val]? = some (distExtra j) := by decide
  exact List.getElem?_eq_some_iff.mp (hall ⟨i, hi⟩)

theorem dbase_eq {i : Nat} (hi : i < 30) : ∃ h : i < dbase.length, dbase[i] = distBase i := by
  have hall : ∀ j : Fin 30, dbase[j.val]? = some (distBase j) := by decide
  exact List.getElem?_eq_some_iff.mp (hall ⟨i, hi⟩)

theorem lengthExtra_le (i : Nat) (hi : i < 29) : lengthExtra i ≤ 24 := by
  unfold lengthExtra
  split <;> omega

theorem distExtra_le (i : Nat) (hi : i < 30) : distExtra i ≤ 24 := by
  unfold distExtra
  omega

theorem extraBits_reading {n : Nat} (hn : bits.length = n) (h24 : n ≤ 24) (h : Reading src cap out (bits ++ rest) s) :
    Safe (fun _ => False) (extraBits n) s (fun v t => v = lsbValue bits ∧ Reading src cap out rest t) := by
  unfold extraBits
  split
  · rename_i h0
    obtain rfl : bits = [] := List.length_eq_zero_iff.mp (hn.trans h0)
    exact Safe.pure ⟨rfl, h⟩
  · exact getbits_reading hn h24 h

theorem codesStep_reading {l d : Huffman} (hl : Decodes l litlen) (hd : Decodes d dist)
    (hsymbol : Symbol litlen dist bits out data) (hroom : data.length ≤ cap) (h : Reading src cap out (bits ++ rest) s) :
    Safe (fun _ => False) (codesStep l d ()) s (fun r t => r = .inl () ∧ Reading src cap data rest t) := by
  unfold codesStep
  cases hsymbol with
  | @literal b _ hhas =>
      rw [List.length_append, List.length_singleton] at hroom
      refine Safe.bind (hl hhas h) ?_
      rintro _ t ⟨rfl, ht⟩
      rw [if_pos b.toNat_lt]
      refine Safe.step (Safe.get ?_)
      refine Safe.step (Safe.failIf (fun hz => absurd hz (by rw [ht.out_eq, ht.cap_eq]; omega)) fun _ => ?_)
      refine Safe.bind (putByte_reading (by omega) ht) ?_
      rintro _ u hu
      rw [UInt8.ofNat_toNat] at hu
      exact Safe.pure ⟨rfl, hu⟩
  | @copy li di extra dextra _ hli hhas hextra hdi hhas' hdextra hback =>
      rw [List.length_append, length_matched] at hroom
      simp only [List.append_assoc] at h
      obtain ⟨hx, hlext⟩ := lext_eq hli
      obtain ⟨hb, hlbase⟩ := lbase_eq hli
      obtain ⟨hy, hdext⟩ := dext_eq hdi
      obtain ⟨hc, hdbase⟩ := dbase_eq hdi
      have hpos : 0 < distBase di := by
        unfold distBase
        omega
      refine Safe.bind (hl hhas h) ?_
      rintro _ t₁ ⟨rfl, ht₁⟩
      rw [if_neg (by omega), if_neg (by omega), if_pos (by omega)]
      dsimp only
      rw [Nat.add_sub_cancel_left]
      refine Safe.step (Safe.index hx ?_)
      rw [hlext]
      refine Safe.bind (extraBits_reading hextra (lengthExtra_le li hli) ht₁) ?_
      rintro _ t₂ ⟨rfl, ht₂⟩
      refine Safe.step (Safe.index hb ?_)
      rw [hlbase]
      refine Safe.bind (hd hhas' ht₂) ?_
      rintro _ t₃ ⟨rfl, ht₃⟩
      refine Safe.step (Safe.failIf (fun hz => absurd hz (by omega)) fun _ => ?_)
      refine Safe.step (Safe.index hy ?_)
      rw [hdext]
      refine Safe.bind (extraBits_reading hdextra (distExtra_le _ hdi) ht₃) ?_
      rintro _ t₄ ⟨rfl, ht₄⟩
      refine Safe.step (Safe.index hc ?_)
      rw [hdbase]
      refine Safe.step (Safe.get ?_)
      rw [ht₄.out_eq, ht₄.cap_eq]
      refine Safe.step (Safe.failIf (fun hz => absurd hz (by omega)) fun _ => ?_)
      refine Safe.step (Safe.sub (by omega) ?_)
      refine Safe.step (Safe.failIf (fun hz => absurd hz (by omega)) fun _ => ?_)
      refine Safe.step (Safe.sub hback ?_)
      refine Safe.bind (copyMatch_reading (by omega) hback (by omega) ht₄) ?_
      rintro _ u hu
      exact Safe.pure ⟨rfl, hu⟩

/-- The loop reads all symbols of a block. -/
theorem symbols_reading {l d : Huffman} (hl : Decodes l litlen) (hd : Decodes d dist)
    (hsymbols : Symbols litlen dist bits out data) : ∀ {fuel : Nat} {s : Inflater}, data.length ≤ cap → bits.length < fuel →
      Reading src cap out (bits ++ rest) s →
        Safe (fun _ => False) (loop (codesStep l d) fuel ()) s (fun _ t => Reading src cap data rest t) := by
  induction hsymbols with
  | @endOfBlock out hhas =>
      intro fuel s hroom hfuel h
      obtain ⟨fuel, rfl⟩ : ∃ k, fuel = k + 1 := ⟨fuel - 1, by omega⟩
      rw [loop]
      refine Safe.bind (R := fun r t => r = .inr () ∧ Reading src cap out rest t) ?_ ?_
      · unfold codesStep
        refine Safe.bind (hl hhas h) ?_
        rintro _ t ⟨rfl, ht⟩
        rw [if_neg (by decide), if_pos rfl]
        exact Safe.pure ⟨rfl, ht⟩
      · rintro _ t ⟨rfl, ht⟩
        exact Safe.pure ht
  | symbol hsymbol hrest ih =>
      intro fuel s hroom hfuel h
      obtain ⟨fuel, rfl⟩ : ∃ k, fuel = k + 1 := ⟨fuel - 1, by omega⟩
      have hpos := hsymbol.bits_pos
      rw [List.length_append] at hfuel
      rw [List.append_assoc] at h
      rw [loop]
      refine Safe.bind (codesStep_reading hl hd hsymbol (hrest.length_le.trans hroom) h) ?_
      rintro _ t ⟨rfl, ht⟩
      exact ih hroom (by omega) ht

theorem inflateCodes_reading {l d : Huffman} (hl : Decodes l litlen) (hd : Decodes d dist)
    (hsymbols : Symbols litlen dist bits out data) (hroom : data.length ≤ cap) (h : Reading src cap out (bits ++ rest) s) :
    Safe (fun _ => False) (inflateCodes l d) s (fun _ t => Reading src cap data rest t) := by
  have hlen := length_stream s
  have hcnt := h.bitcnt_lt
  rw [h.stream_eq, List.length_append] at hlen
  unfold inflateCodes
  refine Safe.step (Safe.get ?_)
  exact symbols_reading hl hd hsymbols hroom (by omega) h

/-! ## Blocks -/

theorem length_flatMap_byteBits (l : List UInt8) : (l.flatMap byteBits).length = 8 * l.length := by
  induction l with
  | nil => rfl
  | cons b l ih =>
      rw [List.flatMap_cons, List.length_append, ih, byteBits, List.length_map, List.length_range, List.length_cons]
      omega

theorem byteBits_inj {a b : UInt8} (h : byteBits a = byteBits b) : a = b := by
  apply UInt8.toNat_inj.mp
  have ha := lsbValue_testBit a.toNat 8
  have hb := lsbValue_testBit b.toNat 8
  have ha' := a.toNat_lt
  have hb' := b.toNat_lt
  rw [byteBits, byteBits] at h
  rw [h] at ha
  omega

/-- Bytes are found in the bits of bytes. -/
theorem flatMap_byteBits_append {l m : List UInt8} (h : l.flatMap byteBits = m.flatMap byteBits ++ rest) :
    ∃ r, l = m ++ r ∧ rest = r.flatMap byteBits := by
  induction m generalizing l with
  | nil => exact ⟨l, rfl, h.symm⟩
  | cons b m ih =>
      cases l with
      | nil =>
          have hlen := congrArg List.length h
          rw [List.length_append, length_flatMap_byteBits, length_flatMap_byteBits, List.length_nil, List.length_cons] at hlen
          omega
      | cons a l =>
          rw [List.flatMap_cons, List.flatMap_cons, List.append_assoc] at h
          obtain ⟨hab, hrest⟩ := List.append_inj h (by simp [byteBits])
          obtain ⟨r, rfl, hr⟩ := ih hrest
          rw [byteBits_inj hab]
          exact ⟨r, rfl, hr⟩

/-- Two bytes as the decoder puts them together. -/
theorem or_shiftLeft_bytes {v : Nat} (hv : v < 65536) :
    (UInt8.ofNat v).toNat ||| (UInt8.ofNat (v / 256)).toNat <<< 8 = v := by
  have hlow : (UInt8.ofNat v).toNat = v % 256 := by simp
  have hhigh : (UInt8.ofNat (v / 256)).toNat = v / 256 := by
    rw [UInt8.toNat_ofNat']
    omega
  have hlt : v % 256 < 2 ^ 8 := Nat.mod_lt _ (by decide)
  rw [hlow, hhigh, Nat.or_comm, Nat.shiftLeft_eq, Nat.mul_comm, ← Nat.two_pow_add_eq_or_of_lt hlt]
  omega

theorem xor_complement {v : Nat} (hv : v < 65536) : v ^^^ 65535 = 65535 - v := by
  refine Nat.eq_of_testBit_eq fun i => ?_
  have hsub := @Nat.testBit_two_pow_sub_succ v 16 hv i
  have hmax := Nat.testBit_two_pow_sub_one 16 i
  rw [show 2 ^ 16 - (v + 1) = 65535 - v by omega] at hsub
  rw [Nat.testBit_xor, show (65535 : Nat) = 2 ^ 16 - 1 by rfl, hmax, show 2 ^ 16 - 1 - v = 65535 - v by rfl, hsub]
  by_cases hi : i < 16
  · simp [hi]
  · have hpow : 2 ^ 16 ≤ 2 ^ i := Nat.pow_le_pow_right (by decide) (by omega)
    have hbit : v.testBit i = false := Nat.testBit_lt_two_pow (by omega)
    simp [hi, hbit]

theorem storedBlock_reading {pad : List Bool} {bytes : List UInt8} (hpad : pad.length = s.bitcnt) (hlen : bytes.length < 65536)
    (hroom : out.length + bytes.length ≤ cap)
    (h : Reading src cap out (pad ++ ((storedBytes bytes).flatMap byteBits ++ rest)) s) :
    Safe (fun _ => False) storedBlock s (fun _ t => Reading src cap (out ++ bytes) rest t) := by
  -- behind the bits of the last byte there are whole bytes
  have hbytes : (src.drop s.pos).flatMap byteBits = (storedBytes bytes).flatMap byteBits ++ rest := by
    have hstream := h.stream_eq
    rw [stream, h.src_eq] at hstream
    exact (List.append_inj hstream (by simp [hpad])).2
  obtain ⟨r, hdrop, rfl⟩ := flatMap_byteBits_append hbytes
  have hat (i : Nat) : src[s.pos + i]? = (storedBytes bytes ++ r)[i]? := by rw [← List.getElem?_drop, hdrop]
  have hsize : s.pos + 4 + bytes.length + r.length = src.length := by
    have hlen := congrArg List.length hdrop
    simp only [storedBytes, List.length_drop, List.length_append, length_leBytes] at hlen
    omega
  obtain ⟨h0, hb0⟩ := List.getElem?_eq_some_iff.mp ((hat 0).trans rfl)
  obtain ⟨h1, hb1⟩ := List.getElem?_eq_some_iff.mp ((hat 1).trans rfl)
  obtain ⟨h2, hb2⟩ := List.getElem?_eq_some_iff.mp ((hat 2).trans rfl)
  obtain ⟨h3, hb3⟩ := List.getElem?_eq_some_iff.mp ((hat 3).trans rfl)
  simp only [Nat.add_zero] at h0 hb0
  have hbehind : src.drop (s.pos + 4) = bytes ++ r := by
    rw [← List.drop_drop, hdrop, storedBytes, List.append_assoc]
    exact List.drop_left' (by rw [List.length_append, length_leBytes, length_leBytes])
  obtain ⟨src', pos, bitbuf, bitcnt, out', outcap⟩ := s
  obtain ⟨hsteady, rfl, rfl, rfl, hstream⟩ := h
  dsimp only at hat h0 hb0 h1 hb1 h2 hb2 h3 hb3 hsize hbehind hroom
  unfold storedBlock byteAlign
  refine Safe.step (Safe.modify ?_)
  refine Safe.step (Safe.get ?_)
  refine Safe.step (Safe.failIf (fun hz => absurd hz (by dsimp only; omega)) fun _ => ?_)
  refine Safe.step (Safe.index h0 ?_)
  refine Safe.step (Safe.index h1 ?_)
  refine Safe.step (Safe.index h2 ?_)
  refine Safe.step (Safe.index h3 ?_)
  dsimp only
  rw [hb0, hb1, hb2, hb3, or_shiftLeft_bytes hlen, or_shiftLeft_bytes (show 65535 - bytes.length < 65536 by omega)]
  refine Safe.step (Safe.modify ?_)
  refine Safe.step (Safe.failIf (fun hz => absurd (xor_complement hlen) hz) fun _ => ?_)
  refine Safe.step (Safe.get ?_)
  refine Safe.step (Safe.sub (by dsimp only; omega) ?_)
  refine Safe.step (Safe.failIf (fun hz => absurd hz (by dsimp only; omega)) fun _ => ?_)
  refine Safe.step (Safe.require (by dsimp only; omega) ?_)
  refine Safe.modify ⟨⟨⟨Nat.two_pow_pos 0⟩, Nat.zero_lt_succ 7⟩, rfl, rfl, ?_, ?_⟩
  · dsimp only
    rw [hbehind, List.take_left]
  · rw [stream]
    dsimp only
    rw [← List.drop_drop, hbehind, List.drop_left]
    rfl

/-- The bits in front of the reader and those to come are all bits of the input. -/
def Behind (src : List UInt8) (pos : Nat) (bits : List Bool) : Prop := pos + bits.length = 8 * src.length

/-- A round of the loop reads a block and the bits in front of it. -/
theorem blockStep_reading {pos : Nat} {final : Bool} (hblock : Block (pos + 1) bits out data) (hroom : data.length ≤ cap)
    (hbehind : Behind src pos (final :: (bits ++ rest))) (h : Reading src cap out (final :: (bits ++ rest)) s) :
    Safe (fun _ => False) (blockStep ()) s (fun r t => r = (if final = true then .inr () else .inl ()) ∧
      Reading src cap data rest t) := by
  unfold blockStep
  refine Safe.bind (@getbits_reading src out cap [final] (bits ++ rest) s 1 rfl (by decide) h) ?_
  rintro _ t₁ ⟨rfl, ht₁⟩
  -- the mark says how the round ends, whatever the block is
  suffices hrun : Safe (fun _ => False) (getbits 2 >>= block) t₁ (fun _ t => Reading src cap data rest t) by
    have hend : ∀ u, Reading src cap data rest u → Safe (fun _ => False)
        (if lsbValue [final] = 0 then pure (.inl ()) else pure (.inr ()) : Checked Inflater (Unit ⊕ Unit)) u
        (fun r t => r = (if final = true then .inr () else .inl ()) ∧ Reading src cap data rest t) := by
      intro u hu
      cases final with
      | false => exact Safe.pure ⟨rfl, hu⟩
      | true => exact Safe.pure ⟨rfl, hu⟩
    have hall := Safe.bind hrun (fun (_ : Unit) u hu => hend u hu)
    rw [bind_assoc] at hall
    exact hall
  cases hblock with
  | @stored pad bytes _ hpad halign hlen =>
      rw [List.length_append] at hroom
      simp only [List.cons_append, List.append_assoc] at ht₁ hbehind
      refine Safe.bind (@getbits_reading src out cap [false, false] (pad ++ ((storedBytes bytes).flatMap byteBits ++ rest)) t₁ 2 rfl (by decide) ht₁) ?_
      rintro _ t₂ ⟨rfl, ht₂⟩
      have hcnt := ht₂.bitcnt_lt
      have hbits := length_stream t₂
      rw [ht₂.stream_eq, ht₂.src_eq] at hbits
      rw [Behind, List.length_cons, List.length_cons, List.length_cons] at hbehind
      exact storedBlock_reading (by omega) hlen hroom ht₂
  | @fixed bits _ _ hsymbols =>
      simp only [List.cons_append] at ht₁
      refine Safe.bind (@getbits_reading src out cap [true, false] (bits ++ rest) t₁ 2 rfl (by decide) ht₁) ?_
      rintro _ t₂ ⟨rfl, ht₂⟩
      refine Safe.bind fixedTables_reading ?_
      rintro ⟨l, d⟩ t ⟨rfl, hl, hd⟩
      exact inflateCodes_reading hl hd hsymbols hroom ht₂
  | @coded codes bits litlen dist _ _ hcodes hsymbols =>
      simp only [List.cons_append, List.append_assoc] at ht₁
      refine Safe.bind (@getbits_reading src out cap [false, true] (codes ++ (bits ++ rest)) t₁ 2 rfl (by decide) ht₁) ?_
      rintro _ t₂ ⟨rfl, ht₂⟩
      refine Safe.bind (dynamicTables_reading hcodes ht₂) ?_
      rintro ⟨l, d⟩ t ⟨hl, hd, ht⟩
      exact inflateCodes_reading hl hd hsymbols hroom ht

/-- The loop reads the blocks up to the last one. -/
theorem blocks_reading {pos : Nat} (hblocks : Blocks pos bits out data) : ∀ {fuel : Nat} {s : Inflater}, data.length ≤ cap →
    bits.length < fuel → Behind src pos (bits ++ rest) → Reading src cap out (bits ++ rest) s →
      Safe (fun _ => False) (loop blockStep fuel ()) s (fun _ t => Reading src cap data rest t) := by
  induction hblocks with
  | last hblock =>
      intro fuel s hroom hfuel hbehind h
      obtain ⟨fuel, rfl⟩ : ∃ k, fuel = k + 1 := ⟨fuel - 1, by omega⟩
      rw [loop]
      refine Safe.bind (blockStep_reading hblock hroom hbehind h) ?_
      rintro _ t ⟨rfl, ht⟩
      exact Safe.pure ht
  | more hblock hrest ih =>
      intro fuel s hroom hfuel hbehind h
      obtain ⟨fuel, rfl⟩ : ∃ k, fuel = k + 1 := ⟨fuel - 1, by omega⟩
      rw [List.length_cons, List.length_append] at hfuel
      rw [List.cons_append, List.append_assoc] at hbehind h
      rw [loop]
      refine Safe.bind (blockStep_reading hblock (hrest.length_le.trans hroom) hbehind h) ?_
      rintro _ t ⟨rfl, ht⟩
      refine ih hroom (by omega) ?_ ht
      rw [Behind, List.length_cons, List.length_append] at hbehind
      rw [Behind]
      omega

/-- What the format says that bytes deflate is what they are inflated to. -/
theorem inflateRaw_eq (h : Deflates src data) (hroom : data.length ≤ cap) :
    ∃ t, inflateRaw src cap = .ok data.length t ∧ t.out = data := by
  obtain ⟨bits, rest, hbits, hblocks⟩ := h
  have hlen := congrArg List.length hbits
  rw [length_flatMap_byteBits, List.length_append] at hlen
  have hstart : Reading src cap [] (bits ++ rest) ⟨src, 0, 0, 0, [], cap⟩ := ⟨⟨⟨Nat.two_pow_pos 0⟩, Nat.zero_lt_succ 7⟩, rfl, rfl, rfl, hbits⟩
  have hrun : Safe (fun _ => False) (do
      loop blockStep (8 * src.length + 1) ()
      let s ← get
      pure s.out.length : Checked Inflater Nat) ⟨src, 0, 0, 0, [], cap⟩ (fun n t => n = data.length ∧ t.out = data) := by
    refine Safe.bind (blocks_reading hblocks hroom (by omega) (by rw [Behind, List.length_append]; omega) hstart) ?_
    rintro _ t ht
    refine Safe.step (Safe.get ?_)
    exact Safe.pure ⟨by rw [ht.out_eq], ht.out_eq⟩
  obtain ⟨n, t, hok, rfl, hout⟩ := Safe.result hrun
  exact ⟨t, hok, hout⟩

end Guppy.Archive.Inflate
