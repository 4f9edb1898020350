import Guppy.Archive.AcceptCodes

set_option autoImplicit false

/-! # Accepted streams

`inflate_codes` and `inflate_raw` of `src/gu_gzip.c` on any bytes. A round that goes on has read a symbol or a block of the format,
and so what is inflated without an error is a stream for the bytes that come out. With `inflateRaw_eq` the decoder accepts the
streams of the format that fit into the buffer and no others (`inflateRaw_ok_iff`).
-/

namespace Guppy.Archive.Inflate

open Checked
open Deflate

variable {src out data : List UInt8} {cap : Nat} {bits rest : List Bool} {s t : Inflater} {litlen dist : List Nat}

/-! ## Symbols -/

theorem Reading.ready (h : Reading src cap out rest t) (hok : Ok src cap t) : Ready src cap out rest t :=
  ⟨h, hok.pos_le, by rw [← h.out_eq]; exact hok.out_le⟩

/-- A part that cannot fail behind its checks. -/
theorem ready_of_safe {α : Type} {x : Checked Inflater α} {Q : α → Inflater → Prop}
    (hread : Safe (fun _ => False) x s (fun _ t => Reading src cap out rest t)) (hsafe : Safe (Within src cap) x s Q)
    (hok : ∀ a t, Q a t → Ok src cap t) : Safe (fun _ => True) x s (fun _ t => Ready src cap out rest t) := by
  have hboth := Safe.both (Safe.weaken hread) hsafe
  exact Safe.mono hboth fun a t h => h.1.ready (hok a t h.2)

theorem extraBits_ready {n : Nat} (h24 : n ≤ 24) (h : Ready src cap out rest s) :
    Safe (fun _ => True) (extraBits n) s (fun v t => ∃ bits left, rest = bits ++ left ∧ bits.length = n ∧ v = lsbValue bits ∧
      Ready src cap out left t) := by
  unfold extraBits
  split
  · rename_i h0
    exact Safe.pure ⟨[], rest, rfl, h0.symm, rfl, h⟩
  · exact getbits_ready h24 h

/-- A round reads a symbol that is in front. -/
theorem codesStep_ready {l d : Huffman} (hl : Spells l litlen) (hd : Spells d dist) (h : Ready src cap out rest s) :
    Safe (fun _ => True) (codesStep l d ()) s (fun r t => ∃ bits left next, rest = bits ++ left ∧ Ready src cap next left t ∧
      match r with
      | .inl _ => Symbol litlen dist bits out next
      | .inr _ => Symbols litlen dist bits out next) := by
  unfold codesStep
  refine Safe.bind (hl h) ?_
  rintro sym t ⟨left, rfl, hhas, ht⟩
  by_cases h256 : sym < 256
  · obtain ⟨b, rfl⟩ : ∃ b : UInt8, sym = b.toNat := ⟨UInt8.ofNat sym, by rw [UInt8.toNat_ofNat']; omega⟩
    rw [if_pos h256]
    refine Safe.step (Safe.get ?_)
    refine Safe.step (Safe.failIf (fun _ => trivial) fun hroom => ?_)
    rw [ht.out_eq, ht.cap_eq] at hroom
    rw [UInt8.ofNat_toNat]
    refine Safe.bind (ready_of_safe (putByte_reading (by omega) ht.toReading)
      (putByte_safe ht.ok (by rw [ht.out_eq]; omega)) fun _ _ hq => hq.1) ?_
    rintro _ u hu
    exact Safe.pure ⟨_, left, _, rfl, hu, .literal hhas⟩
  rw [if_neg h256]
  by_cases hend : sym = 256
  · subst hend
    rw [if_pos rfl]
    exact Safe.pure ⟨_, left, out, rfl, ht, .endOfBlock hhas⟩
  rw [if_neg hend]
  by_cases hlength : 257 ≤ sym ∧ sym ≤ 285
  · obtain ⟨li, rfl⟩ := Nat.exists_eq_add_of_le hlength.1
    have hli : li < 29 := by omega
    obtain ⟨hx, hlext⟩ := lext_eq hli
    obtain ⟨hb, hlbase⟩ := lbase_eq hli
    rw [if_pos hlength]
    dsimp only
    rw [Nat.add_sub_cancel_left]
    refine Safe.step (Safe.index hx ?_)
    rw [hlext]
    refine Safe.bind (extraBits_ready (lengthExtra_le li hli) ht) ?_
    rintro _ t₂ ⟨extra, left, rfl, hextra, rfl, ht₂⟩
    refine Safe.step (Safe.index hb ?_)
    rw [hlbase]
    refine Safe.bind (hd ht₂) ?_
    rintro di t₃ ⟨left, rfl, hhas', ht₃⟩
    refine Safe.step (Safe.failIf (fun _ => trivial) fun hdi => ?_)
    rw [Nat.not_le] at hdi
    obtain ⟨hy, hdext⟩ := dext_eq hdi
    obtain ⟨hc, hdbase⟩ := dbase_eq hdi
    refine Safe.step (Safe.index hy ?_)
    rw [hdext]
    refine Safe.bind (extraBits_ready (distExtra_le _ hdi) ht₃) ?_
    rintro _ t₄ ⟨dextra, left, rfl, hdextra, rfl, ht₄⟩
    refine Safe.step (Safe.index hc ?_)
    rw [hdbase]
    refine Safe.step (Safe.get ?_)
    rw [ht₄.out_eq, ht₄.cap_eq]
    refine Safe.step (Safe.failIf (fun _ => trivial) fun hback => ?_)
    rw [not_or, Nat.not_lt] at hback
    have hcap := ht₄.out_le
    refine Safe.step (Safe.sub hcap ?_)
    refine Safe.step (Safe.failIf (fun _ => trivial) fun hroom => ?_)
    refine Safe.step (Safe.sub hback.2 ?_)
    have hpos := Nat.pos_of_ne_zero hback.1
    refine Safe.bind (ready_of_safe (copyMatch_reading hpos hback.2 (by omega) ht₄.toReading)
      (copyMatch_safe ht₄.ok (by rw [ht₄.out_eq]; omega) (by rw [ht₄.out_eq]; omega)) fun _ _ hq => hq.1) ?_
    rintro _ u hu
    exact Safe.pure ⟨_, left, _, by simp only [List.append_assoc], hu, .copy hli hhas hextra hdi hhas' hdextra hback.2⟩
  · rw [if_neg hlength]
    exact Safe.fail trivial

theorem inflateCodes_ready {l d : Huffman} (hl : Spells l litlen) (hd : Spells d dist) (h : Ready src cap out rest s) :
    Safe (fun _ => True) (inflateCodes l d) s (fun _ t => ∃ bits left data, rest = bits ++ left ∧
      Symbols litlen dist bits out data ∧ Ready src cap data left t) := by
  unfold inflateCodes
  refine Safe.step (Safe.get ?_)
  -- what has been read so far is kept as a front that any further symbols complete
  refine Safe.loop (fun _ t => ∃ bits left next, rest = bits ++ left ∧ (∀ {more all}, Symbols litlen dist more next all →
    Symbols litlen dist (bits ++ more) out all) ∧ Ready src cap next left t) (fun _ t => bitsLeft t) ?_
    ⟨[], rest, out, rfl, fun hmore => hmore, h⟩ (by rw [h.src_eq]; exact bitsLeft_lt h.ok)
  rintro _ t ⟨bits, left, next, rfl, hbehind, ht⟩
  refine Safe.mono (codesStep_ready hl hd ht) fun r u hr => ?_
  obtain ⟨bits', left', next', rfl, hu, hsymbol⟩ := hr
  cases r with
  | inl _ =>
      refine ⟨⟨bits ++ bits', left', next', (List.append_assoc _ _ _).symm, fun hmore => ?_, hu⟩, ?_⟩
      · rw [List.append_assoc]
        exact hbehind (.symbol hsymbol hmore)
      · have hpos := hsymbol.bits_pos
        have hlen := ht.length_rest
        rw [List.length_append] at hlen
        have hlen' := hu.length_rest
        omega
  | inr _ => exact ⟨bits ++ bits', left', next', (List.append_assoc _ _ _).symm, hbehind hsymbol, hu⟩

/-! ## Blocks -/

theorem fixedTables_ready {E : Inflater → Prop} :
    Safe E fixedTables s (fun r t => t = s ∧ Spells r.1 fixedLitlen ∧ Spells r.2 fixedDist) := by
  have hlitlen : fixedLengths = fixedLitlen.map some := by
    simp only [fixedLengths, fixedLitlen, List.map_append, List.map_replicate]
  have hdist : List.replicate 32 (some 5) = fixedDist.map some := by simp [fixedDist]
  have hlen : fixedLitlen.length = maxLCodes := by
    simp only [fixedLitlen, List.length_append, List.length_replicate, maxLCodes]
  have hl : ∀ i, i < maxLCodes → (fixedLitlen.map some)[0 + i]? = some (some (fixedLitlen.getD i 0)) := fun i hi => by
    rw [Nat.zero_add]
    exact getElem?_map_some (by omega)
  have hd : ∀ i, i < 32 → (fixedDist.map some)[0 + i]? = some (some (fixedDist.getD i 0)) := fun i hi => by
    rw [Nat.zero_add]
    exact getElem?_map_some (by rw [fixedDist, List.length_replicate]; exact hi)
  unfold fixedTables
  rw [hlitlen, hdist]
  -- the fixed lengths are a code, so that the tables are not refused
  refine Safe.bind (Safe.both (huffBuild_ready hlen (by decide) isCode_fixedLitlen.le hl (E := E))
    (huffBuild_reading hlen (by decide) isCode_fixedLitlen hl (E := E))) ?_
  rintro ⟨rc, l⟩ _ ⟨⟨rfl, haccept⟩, -, hrc, -⟩
  refine Safe.bind (Safe.both (huffBuild_ready List.length_replicate (by decide) isCode_fixedDist.le hd (E := E))
    (huffBuild_reading List.length_replicate (by decide) isCode_fixedDist hd (E := E))) ?_
  rintro ⟨rc', d⟩ _ ⟨⟨rfl, haccept'⟩, -, hrc', -⟩
  exact Safe.pure ⟨rfl, (haccept (not_lt.mpr hrc)).2, (haccept' (not_lt.mpr hrc')).2⟩

theorem or_bytes (a b : UInt8) : a.toNat ||| b.toNat <<< 8 = leValue [a, b] := by
  have ha : a.toNat < 2 ^ 8 := a.toNat_lt
  rw [Nat.or_comm, Nat.shiftLeft_eq, Nat.mul_comm, ← Nat.two_pow_add_eq_or_of_lt ha, leValue, leValue, leValue]
  omega

theorem leBytes_two (a b : UInt8) : leBytes 2 (a.toNat ||| b.toNat <<< 8) = [a, b] := by
  rw [or_bytes]
  exact leBytes_leValue [a, b]

theorem or_bytes_lt (a b : UInt8) : a.toNat ||| b.toNat <<< 8 < 65536 := by
  rw [or_bytes]
  exact (leValue_lt [a, b]).trans_le (by simp)

theorem storedBlock_ready (h : Ready src cap out rest s) :
    Safe (fun _ => True) storedBlock s (fun _ t => ∃ pad bytes left, rest = pad ++ ((storedBytes bytes).flatMap byteBits ++ left) ∧
      pad.length = s.bitcnt ∧ bytes.length < 65536 ∧ Ready src cap (out ++ bytes) left t) := by
  have hstream := h.stream_eq
  have hpos := h.pos_le
  have hout := h.out_le
  obtain ⟨src', pos, bitbuf, bitcnt, out', outcap⟩ := s
  obtain ⟨⟨hsteady, rfl, rfl, rfl, -⟩, -, -⟩ := h
  dsimp only at hstream hpos hout
  unfold storedBlock byteAlign
  refine Safe.step (Safe.modify ?_)
  refine Safe.step (Safe.get ?_)
  dsimp only
  refine Safe.step (Safe.failIf (fun _ => trivial) fun hfour => ?_)
  have h0 : pos < src'.length := by omega
  have h1 : pos + 1 < src'.length := by omega
  have h2 : pos + 2 < src'.length := by omega
  have h3 : pos + 3 < src'.length := by omega
  refine Safe.step (Safe.index h0 ?_)
  refine Safe.step (Safe.index h1 ?_)
  refine Safe.step (Safe.index h2 ?_)
  refine Safe.step (Safe.index h3 ?_)
  refine Safe.step (Safe.modify ?_)
  dsimp only
  refine Safe.step (Safe.failIf (fun _ => trivial) fun hlens => ?_)
  have hlt := or_bytes_lt src'[pos] src'[pos + 1]
  have hlow := leBytes_two src'[pos] src'[pos + 1]
  have hhigh := leBytes_two src'[pos + 2] src'[pos + 3]
  -- the second length is the complement of the first, as the check says
  rw [← not_not.mp hlens, xor_complement hlt] at hhigh
  have hdrop : src'.drop pos = src'[pos] :: src'[pos + 1] :: src'[pos + 2] :: src'[pos + 3] :: src'.drop (pos + 4) := by
    rw [List.drop_eq_getElem_cons h0, List.drop_eq_getElem_cons h1, List.drop_eq_getElem_cons h2, List.drop_eq_getElem_cons h3]
  generalize src'[pos].toNat ||| src'[pos + 1].toNat <<< 8 = len at hlt hlow hhigh ⊢
  refine Safe.step (Safe.get ?_)
  dsimp only
  refine Safe.step (Safe.sub hout ?_)
  refine Safe.step (Safe.failIf (fun _ => trivial) fun hroom => ?_)
  refine Safe.step (Safe.require (by omega) ?_)
  have hsplit : src'.drop (pos + 4) = (src'.drop (pos + 4)).take len ++ src'.drop (pos + 4 + len) := by
    have htake := List.take_append_drop len (src'.drop (pos + 4))
    rw [List.drop_drop] at htake
    exact htake.symm
  have hlen : ((src'.drop (pos + 4)).take len).length = len := by
    rw [List.length_take, List.length_drop]
    omega
  refine Safe.modify ⟨(List.range bitcnt).map bitbuf.testBit, (src'.drop (pos + 4)).take len,
    (src'.drop (pos + 4 + len)).flatMap byteBits, ?_, by simp, by omega, ⟨⟨⟨⟨Nat.two_pow_pos 0⟩, Nat.zero_lt_succ 7⟩, rfl, rfl,
      rfl, rfl⟩, ?_, ?_⟩⟩
  -- the bits left of the last byte are skipped, and the bytes behind them are the stored ones
  · rw [← hstream, stream, ← List.flatMap_append]
    dsimp only
    rw [hdrop, storedBytes, hlen, hlow, hhigh, List.append_assoc, ← hsplit]
    rfl
  · dsimp only
    omega
  · rw [List.length_append, hlen]
    omega

/-- A round reads a block that is in front. -/
theorem blockStep_ready {pos : Nat} (hbehind : Behind src pos rest) (h : Ready src cap out rest s) :
    Safe (fun _ => True) (blockStep ()) s (fun r t => ∃ final bits left next, rest = final :: (bits ++ left) ∧
      Block (pos + 1) bits out next ∧ Ready src cap next left t ∧ r = if final = true then .inr () else .inl ()) := by
  unfold blockStep
  refine Safe.bind (getbits_ready (by decide) h) ?_
  rintro _ t₁ ⟨mark, left₁, rfl, hmark, rfl, ht₁⟩
  obtain ⟨final, rfl⟩ := List.length_eq_one_iff.mp hmark
  refine Safe.bind (getbits_ready (by decide) ht₁) ?_
  rintro _ t₂ ⟨kind, left₂, rfl, hkind, rfl, ht₂⟩
  obtain ⟨b, c, rfl⟩ := List.length_eq_two.mp hkind
  refine Safe.bind (R := fun _ t => ∃ bits left next, [b, c] ++ left₂ = bits ++ left ∧ Block (pos + 1) bits out next ∧
    Ready src cap next left t) ?_ ?_
  · have hcnt := ht₂.bitcnt_lt
    have hbits := length_stream t₂
    rw [ht₂.stream_eq, ht₂.src_eq] at hbits
    rw [Behind, List.length_append, List.length_append, hmark, hkind] at hbehind
    unfold block
    cases b with
    | false =>
        cases c with
        | false =>
            rw [if_pos (show lsbValue [false, false] = 0 by decide)]
            refine Safe.mono (storedBlock_ready ht₂) ?_
            rintro _ u ⟨pad, bytes, left, rfl, hpad, hlen, hu⟩
            refine ⟨_, left, _, ?_, @Block.stored _ pad bytes _ (by omega) (by omega) hlen, hu⟩
            simp
        | true =>
            rw [if_neg (by decide), if_neg (by decide), if_pos (show lsbValue [false, true] = 2 by decide)]
            refine Safe.bind (dynamicTables_ready ht₂) ?_
            rintro ⟨l, d⟩ t₃ ⟨codes, left, litlen, dist, rfl, hcodes, hl, hd, ht₃⟩
            refine Safe.mono (inflateCodes_ready hl hd ht₃) ?_
            rintro _ u ⟨bits, left, next, rfl, hsymbols, hu⟩
            exact ⟨_, left, next, by simp, .coded hcodes hsymbols, hu⟩
    | true =>
        cases c with
        | false =>
            rw [if_neg (by decide), if_pos (show lsbValue [true, false] = 1 by decide)]
            refine Safe.bind fixedTables_ready ?_
            rintro ⟨l, d⟩ _ ⟨rfl, hl, hd⟩
            refine Safe.mono (inflateCodes_ready hl hd ht₂) ?_
            rintro _ u ⟨bits, left, next, rfl, hsymbols, hu⟩
            exact ⟨_, left, next, by simp, .fixed hsymbols, hu⟩
        | true =>
            rw [if_neg (by decide), if_neg (by decide), if_neg (by decide)]
            exact Safe.fail trivial
  · rintro _ u ⟨bits, left, next, heq, hblock, hu⟩
    rw [heq]
    cases final with
    | false => exact Safe.pure ⟨false, bits, left, next, rfl, hblock, hu, rfl⟩
    | true => exact Safe.pure ⟨true, bits, left, next, rfl, hblock, hu, rfl⟩

/-- All bytes that are inflated are a stream for what they are inflated to. -/
theorem blocks_ready (h : Ready src cap [] rest s) (hrest : rest.length = 8 * src.length) :
    Safe (fun _ => True) (loop blockStep (8 * src.length + 1) ()) s (fun _ t => ∃ bits left data, rest = bits ++ left ∧
      Blocks 0 bits [] data ∧ Ready src cap data left t) := by
  refine Safe.loop (fun _ t => ∃ bits left next, rest = bits ++ left ∧ (∀ {more all}, Blocks bits.length more next all →
    Blocks 0 (bits ++ more) [] all) ∧ Ready src cap next left t) (fun _ t => bitsLeft t) ?_
    ⟨[], rest, [], rfl, fun hmore => hmore, h⟩ (by have hlen := h.length_rest; omega)
  rintro _ t ⟨bits, left, next, rfl, hbehind, ht⟩
  rw [List.length_append] at hrest
  refine Safe.mono (blockStep_ready hrest ht) ?_
  rintro _ u ⟨final, bits', left', next', rfl, hblock, hu, rfl⟩
  cases final with
  | false =>
      refine ⟨⟨bits ++ false :: bits', left', next', by simp, fun hmore => ?_, hu⟩, ?_⟩
      · rw [List.append_assoc]
        refine hbehind (.more hblock ?_)
        rwa [List.length_append, List.length_cons, Nat.add_comm bits'.length 1, ← Nat.add_assoc] at hmore
      · have hlen := ht.length_rest
        rw [List.length_cons, List.length_append] at hlen
        have hlen' := hu.length_rest
        omega
  | true => exact ⟨bits ++ true :: bits', left', next', by simp, hbehind (.last hblock), hu⟩

/-- What bytes are inflated to they deflate. -/
theorem deflates_of_ok {n : Nat} (hok : inflateRaw src cap = .ok n t) :
    Deflates src t.out ∧ t.out.length ≤ cap ∧ n = t.out.length := by
  have hstart : Ready src cap [] (src.flatMap byteBits) ⟨src, 0, 0, 0, [], cap⟩ :=
    ⟨⟨⟨⟨Nat.two_pow_pos 0⟩, Nat.zero_lt_succ 7⟩, rfl, rfl, rfl, rfl⟩, Nat.zero_le _, Nat.zero_le _⟩
  have hrun : Safe (fun _ => True) (do
      loop blockStep (8 * src.length + 1) ()
      let s ← get
      pure s.out.length : Checked Inflater Nat) ⟨src, 0, 0, 0, [], cap⟩ (fun n t =>
        Deflates src t.out ∧ t.out.length ≤ cap ∧ n = t.out.length) := by
    refine Safe.bind (blocks_ready hstart (length_flatMap_byteBits src)) ?_
    rintro _ t ⟨bits, left, data, hbits, hblocks, ht⟩
    refine Safe.step (Safe.get ?_)
    have hout := ht.out_eq
    have hle := ht.out_le
    refine Safe.pure ⟨⟨bits, left, hbits, ?_⟩, ?_, rfl⟩
    · rw [hout]
      exact hblocks
    · rw [hout]
      exact hle
  have hall := Safe.of_ok hrun hok
  exact hall

/-- Bytes are inflated without an error if and only if they are a stream for data that fit, and then to these data. -/
theorem inflateRaw_ok_iff (src : List UInt8) (cap n : Nat) (data : List UInt8) :
    (∃ t, inflateRaw src cap = .ok n t ∧ t.out = data) ↔ Deflates src data ∧ data.length ≤ cap ∧ n = data.length := by
  constructor
  · rintro ⟨t, hok, rfl⟩
    exact deflates_of_ok hok
  · rintro ⟨hdeflates, hroom, rfl⟩
    exact inflateRaw_eq hdeflates hroom

end Guppy.Archive.Inflate
