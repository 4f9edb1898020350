import Guppy.Archive.Deflate

set_option autoImplicit false

/-! # Reading the codes of a block

`getbits`, `huff_build`, `dynamic_tables` of `src/gu_gzip.c` on bits of the format: each part of the decoder takes the bits that
the format has for it, and leaves the rest. The code lengths that are written in front of a block are read run by run
(`lengths_reading`), and the tables that come out decode the two codes of the block (`dynamicTables_reading`).
-/

namespace Guppy.Archive.Inflate

open Checked
open Canonical (kraftSum endCode)
open Deflate

/-! ## The state of the reader -/

/-- The reader between two calls: what has been written, and the bits that are to come. -/
structure Reading (src : List UInt8) (cap : Nat) (out : List UInt8) (rest : List Bool) (s : Inflater) : Prop extends Steady s where
  src_eq : s.src = src
  cap_eq : s.outcap = cap
  out_eq : s.out = out
  stream_eq : stream s = rest

variable {src out : List UInt8} {cap : Nat} {bits rest : List Bool} {s t : Inflater}

/-- Only the reader has moved. -/
theorem Reading.move (h : Reading src cap out bits s) (ht : Steady t) (hstream : stream t = rest) (hsame : SameData s t) :
    Reading src cap out rest t :=
  ⟨ht, hsame.src.trans h.src_eq, hsame.outcap.trans h.cap_eq, hsame.out.trans h.out_eq, hstream⟩

theorem getbits_reading {n : Nat} (hn : bits.length = n) (h24 : n ≤ 24) (h : Reading src cap out (bits ++ rest) s) :
    Safe (fun _ => False) (getbits n) s (fun v t => v = lsbValue bits ∧ Reading src cap out rest t) := by
  subst hn
  refine Safe.mono (getbits_stream h24 h.toSteady h.stream_eq) ?_
  rintro v t ⟨hv, ht, hstream, hsame⟩
  exact ⟨hv, h.move ht hstream hsame⟩

/-! ## Codes -/

/-- The tables decode the codewords that the lengths give. -/
def Decodes (h : Huffman) (ls : List Nat) : Prop :=
  ∀ {src : List UInt8} {cap : Nat} {out : List UInt8} {rest : List Bool} {i : Nat} {s : Inflater}, Has ls i →
    Reading src cap out (codeBits ls i ++ rest) s →
      Safe (fun _ => False) (huffDecode h) s (fun v t => v = i ∧ Reading src cap out rest t)

theorem huffBuild_reading {E : Inflater → Prop} {ls : List Nat} {n : Nat} (hn : ls.length = n) (hmaxc : n ≤ maxCodes)
    (hcode : IsCode ls) {length : Table} {off : Nat} (hlength : ∀ i, i < n → length[off + i]? = some (some (ls.getD i 0))) :
    Safe E (huffBuild length off n) s (fun r t => t = s ∧ 0 ≤ r.1 ∧ Decodes r.2 ls) := by
  subst hn
  have hmax : ∀ i, i < ls.length → ls.getD i 0 ≤ maxBits := fun i hi => by
    rw [List.getD_eq_getElem _ _ hi]
    exact hcode.le _ (List.getElem_mem hi)
  have hfits : endCode (occurs (fun i => ls.getD i 0) ls.length) maxBits ≤ 2 ^ maxBits := by
    rw [occurs_eq_count, ← Canonical.kraftSum_eq hcode.le]
    exact Nat.not_lt.mp hcode.fits
  refine Safe.mono (@huffBuild_spec s (fun i => ls.getD i 0) ls.length E length off hmaxc hlength hmax) ?_
  rintro ⟨left, h⟩ t ⟨rfl, haccept, -⟩
  obtain ⟨hleft, hbuilt⟩ := haccept hfits
  refine ⟨rfl, hleft, fun {src cap out rest i s} hi hs => ?_⟩
  have hword : codeBits ls i = Canonical.msbBits (ls.getD i 0) (codeword (fun i => ls.getD i 0) ls.length i) := by
    rw [codeBits, codeword, occurs_eq_count, occurs_getD _ _ (by have := hi.lt; omega)]
  have hstream := hs.stream_eq
  rw [hword] at hstream
  refine Safe.mono (huffDecode_stream hbuilt hfits hi.lt hi (hmax i hi.lt) hs.toSteady hstream) ?_
  rintro v t ⟨hv, ht, hrest, hsame⟩
  exact ⟨hv, hs.move ht hrest hsame⟩

theorem getElem?_map_some {ls : List Nat} {i : Nat} (hi : i < ls.length) : (ls.map some)[i]? = some (some (ls.getD i 0)) := by
  rw [List.getElem?_map, List.getElem?_eq_getElem hi, List.getD_eq_getElem _ _ hi]
  rfl

theorem isCode_fixedLitlen : IsCode fixedLitlen := by
  refine ⟨fun l hl => ?_, ?_⟩
  · simp only [fixedLitlen, List.mem_append, List.mem_replicate] at hl
    unfold maxBits
    omega
  · simp only [Oversubscribed, fixedLitlen, kraftSum, List.filter_append, List.filter_replicate, List.map_append, List.sum_append]
    decide +kernel

theorem isCode_fixedDist : IsCode fixedDist := by
  refine ⟨fun l hl => ?_, ?_⟩
  · obtain ⟨-, rfl⟩ := List.mem_replicate.mp hl
    decide
  · simp [Oversubscribed, fixedDist, kraftSum, maxBits]

/-- The tables of the format are those of its fixed code. -/
theorem fixedTables_reading {E : Inflater → Prop} :
    Safe E fixedTables s (fun r t => t = s ∧ Decodes r.1 fixedLitlen ∧ Decodes r.2 fixedDist) := by
  have hlitlen : fixedLengths = fixedLitlen.map some := by
    simp only [fixedLengths, fixedLitlen, List.map_append, List.map_replicate]
  have hdist : List.replicate 32 (some 5) = fixedDist.map some := by simp [fixedDist]
  have hlen : fixedLitlen.length = maxLCodes := by
    simp only [fixedLitlen, List.length_append, List.length_replicate, maxLCodes]
  unfold fixedTables
  rw [hlitlen, hdist]
  refine Safe.bind (huffBuild_reading hlen (by decide) isCode_fixedLitlen fun i hi => ?_) ?_
  · rw [Nat.zero_add]
    exact getElem?_map_some (by omega)
  · rintro ⟨_, litlen⟩ t ⟨rfl, -, hl⟩
    refine Safe.bind (huffBuild_reading List.length_replicate (by decide) isCode_fixedDist fun i hi => ?_) ?_
    · rw [Nat.zero_add]
      exact getElem?_map_some (by rw [fixedDist, List.length_replicate]; exact hi)
    · rintro ⟨_, dist⟩ t ⟨rfl, -, hd⟩
      exact Safe.pure ⟨rfl, hl, hd⟩

/-! ## Written codes -/

theorem length_runLengths (groups : List (List Bool)) : (runLengths groups).length = 19 := by simp [runLengths]

/-- One more group puts its length at the place that the order has for it. -/
theorem runLengths_take {groups : List (List Bool)} {i : Nat} (hi : i < groups.length)
    (ho : i < order.length) : ((runLengths (groups.take i)).map some).set order[i] (some (lsbValue groups[i])) =
      (runLengths (groups.take (i + 1))).map some := by
  have hnodup : order.Nodup := by decide
  refine List.ext_getElem (by simp [runLengths]) fun j hj hj' => ?_
  rw [List.getElem_set]
  simp only [runLengths, List.getElem_map, List.getElem_range, List.map_take]
  split
  · rename_i h
    rw [← h, List.Nodup.idxOf_getElem hnodup, List.getD_eq_getElem _ _ (by simp; omega)]
    simp
  · rename_i h
    have hne : order.idxOf j ≠ i := by
      rintro rfl
      exact h (List.getElem_idxOf ho)
    by_cases hlt : order.idxOf j < i
    · rw [List.getD_eq_getElem _ _ (by simp; omega), List.getD_eq_getElem _ _ (by simp; omega)]
      simp
    · rw [List.getD_eq_default _ _ (by simp; omega), List.getD_eq_default _ _ (by simp; omega)]

theorem codeLengths_reading {groups : List (List Bool)} {n : Nat} (hn : groups.length = n) (hle : n ≤ 19)
    (hgroup : ∀ g ∈ groups, g.length = 3) (h : Reading src cap out (groups.flatten ++ rest) s) :
    Safe (fun _ => False) (codeLengths n) s (fun clen t => clen = (runLengths groups).map some ∧ Reading src cap out rest t) := by
  subst hn
  have hloop : Safe (fun _ => False) (codeLengths groups.length) s (fun clen t =>
      clen = (runLengths (groups.take (0 + groups.length))).map some ∧
        Reading src cap out ((groups.drop (0 + groups.length)).flatten ++ rest) t) := by
    refine Safe.forLoop (fun i (clen : Table) t => clen = (runLengths (groups.take i)).map some ∧
      Reading src cap out ((groups.drop i).flatten ++ rest) t) ⟨by rw [List.take_zero]; decide, h⟩ ?_
    rintro i clen t - hi ⟨rfl, ht⟩
    rw [Nat.zero_add] at hi
    have ho : i < order.length := by
      show i < 19
      omega
    have hat : order[i] < 19 := (by decide : ∀ x ∈ order, x < 19) _ (List.getElem_mem ho)
    rw [List.drop_eq_getElem_cons hi, List.flatten_cons, List.append_assoc] at ht
    refine Safe.bind (getbits_reading (hgroup _ (List.getElem_mem hi)) (by decide) ht) ?_
    rintro v u ⟨rfl, hu⟩
    refine Safe.step (Safe.index ho ?_)
    refine Safe.store (by rw [List.length_map, length_runLengths]; exact hat) ⟨?_, hu⟩
    exact runLengths_take hi ho
  rw [Nat.zero_add, List.take_length, List.drop_length] at hloop
  exact hloop

/-- The table of the lengths, filled up to a place. -/
structure Filled (ls : List Nat) (acc : Nat × Table) : Prop where
  count : acc.1 = ls.length
  size : acc.2.length = maxCodes
  written : ∀ i, i < ls.length → acc.2[i]? = some (some (ls.getD i 0))

variable {ls next all clen : List Nat}

theorem Filled.push {acc : Nat × Table} (h : Filled ls acc) (hlt : ls.length < maxCodes) (v : Nat) :
    Filled (ls ++ [v]) (acc.1 + 1, acc.2.set acc.1 (some v)) := by
  have hcount := h.count
  have hsize := h.size
  refine ⟨by simp [hcount], by simp [hsize], fun i hi => ?_⟩
  rw [List.length_append, List.length_singleton] at hi
  dsimp only
  by_cases hlast : i = ls.length
  · rw [hcount, hlast, List.getElem?_set_self (by omega), List.getD_append_right _ _ _ _ le_rfl, Nat.sub_self]
    rfl
  · rw [List.getElem?_set_ne (by omega), h.written i (by omega), List.getD_append _ _ _ _ (by omega)]

theorem repeatLength_reading {E : Inflater → Prop} {i : Nat} {lens : Table} (h : Filled ls (i, lens)) {rep v : Nat}
    (hroom : i + rep ≤ maxCodes) : Safe E (repeatLength lens i rep v) s (fun r t => t = s ∧
      Filled (ls ++ List.replicate rep v) (i + rep, r)) := by
  have hloop : Safe E (repeatLength lens i rep v) s (fun r t => t = s ∧
      Filled (ls ++ List.replicate (i + rep - i) v) (i + rep, r)) := by
    refine Safe.forLoop (fun k (r : Table) t => t = s ∧ Filled (ls ++ List.replicate (k - i) v) (k, r)) ⟨rfl, ?_⟩ ?_
    · rw [Nat.sub_self, List.replicate_zero, List.append_nil]
      exact h
    · rintro k r t hk hlt ⟨rfl, hr⟩
      have hcount := hr.count
      have hsize := hr.size
      dsimp only at hcount hsize
      have hpush := hr.push (by omega) v
      rw [List.append_assoc, ← List.replicate_succ', show k - i + 1 = k + 1 - i by omega] at hpush
      exact Safe.store (by omega) ⟨rfl, hpush⟩
  rw [Nat.add_sub_cancel_left] at hloop
  exact hloop

/-- A step of the loop over the lengths reads a length or a run. -/
theorem lengthsStep_reading {ch : Huffman} (hch : Decodes ch clen) (hrun : Run clen bits ls next) {total : Nat}
    (hfit : next.length ≤ total) (hmax : total ≤ maxCodes) {acc : Nat × Table} (hacc : Filled ls acc)
    (h : Reading src cap out (bits ++ rest) s) :
    Safe (fun _ => False) (lengthsStep ch total acc) s (fun r t => ∃ acc', r = .inl acc' ∧ Filled next acc' ∧
      Reading src cap out rest t) := by
  obtain ⟨i, lens⟩ := acc
  have hcount := hacc.count
  have hsize := hacc.size
  have hlt := hrun.length_lt
  dsimp only at hcount hsize
  -- a run of lengths, with room for it
  have hrep : ∀ {t : Inflater} {rep v : Nat}, Reading src cap out rest t → next = ls ++ List.replicate rep v →
      Safe (fun _ => False) (repeatLength lens i rep v >>= fun lens => pure (Sum.inl (i + rep, lens))) t (fun r t =>
        ∃ acc' : Nat × Table, (r : (Nat × Table) ⊕ Table) = .inl acc' ∧ Filled next acc' ∧ Reading src cap out rest t) := by
    rintro t rep v ht rfl
    rw [List.length_append, List.length_replicate] at hfit
    refine Safe.bind (repeatLength_reading hacc (by omega)) ?_
    rintro lens' u ⟨rfl, hfilled⟩
    exact Safe.pure ⟨_, rfl, hfilled, ht⟩
  unfold lengthsStep
  dsimp only
  rw [if_neg (by omega)]
  cases hrun with
  | length hl hhas =>
      refine Safe.bind (hch hhas h) ?_
      rintro _ t ⟨rfl, ht⟩
      rw [if_pos hl]
      refine Safe.step (Safe.store (by omega) ?_)
      exact Safe.pure ⟨_, rfl, hacc.push (by omega) _, ht⟩
  | previous hhas hextra hl =>
      rw [List.append_assoc] at h
      refine Safe.bind (hch hhas h) ?_
      rintro _ t ⟨rfl, ht⟩
      rw [if_neg (by decide), if_pos rfl]
      have hne : ls ≠ [] := by
        rintro rfl
        exact absurd hl (by simp)
      have hpos := List.length_pos_iff.mpr hne
      refine Safe.step (Safe.failIf (fun hz => absurd hz (by omega)) fun _ => ?_)
      refine Safe.bind (getbits_reading hextra (by decide) ht) ?_
      rintro _ u ⟨rfl, hu⟩
      rw [List.length_append, List.length_replicate] at hfit
      refine Safe.step (Safe.failIf (fun hz => absurd hz (by omega)) fun _ => ?_)
      refine Safe.step (Safe.fetch (hacc.written (i - 1) (by omega)) ?_)
      refine hrep hu ?_
      rw [List.getLast?_eq_getElem?, List.getElem?_eq_getElem (by omega)] at hl
      rw [hcount, List.getD_eq_getElem _ _ (by omega), Option.some.inj hl]
  | zeros hhas hextra =>
      rw [List.append_assoc] at h
      refine Safe.bind (hch hhas h) ?_
      rintro _ t ⟨rfl, ht⟩
      rw [if_neg (by decide), if_neg (by decide), if_pos rfl]
      refine Safe.bind (getbits_reading hextra (by decide) ht) ?_
      rintro _ u ⟨rfl, hu⟩
      rw [List.length_append, List.length_replicate] at hfit
      refine Safe.step (Safe.failIf (fun hz => absurd hz (by omega)) fun _ => ?_)
      exact hrep hu rfl
  | manyZeros hhas hextra =>
      rw [List.append_assoc] at h
      refine Safe.bind (hch hhas h) ?_
      rintro _ t ⟨rfl, ht⟩
      rw [if_neg (by decide), if_neg (by decide), if_neg (by decide), if_pos rfl]
      refine Safe.bind (getbits_reading hextra (by decide) ht) ?_
      rintro _ u ⟨rfl, hu⟩
      rw [List.length_append, List.length_replicate] at hfit
      refine Safe.step (Safe.failIf (fun hz => absurd hz (by omega)) fun _ => ?_)
      exact hrep hu rfl

/-- The loop reads all lengths that the runs give. -/
theorem lengths_reading {ch : Huffman} (hch : Decodes ch clen) (hruns : Runs clen bits ls all) {total : Nat}
    (htotal : all.length = total) (hmax : total ≤ maxCodes) : ∀ {fuel : Nat} {acc : Nat × Table} {s : Inflater},
      Filled ls acc → total - ls.length < fuel → Reading src cap out (bits ++ rest) s →
        Safe (fun _ => False) (loop (lengthsStep ch total) fuel acc) s (fun lens t =>
          (∀ i, i < total → lens[i]? = some (some (all.getD i 0))) ∧ Reading src cap out rest t) := by
  induction hruns with
  | done =>
      intro fuel acc s hacc hfuel h
      obtain ⟨fuel, rfl⟩ : ∃ k, fuel = k + 1 := ⟨fuel - 1, by omega⟩
      obtain ⟨i, lens⟩ := acc
      have hcount := hacc.count
      dsimp only at hcount
      rw [loop, lengthsStep]
      dsimp only
      rw [if_pos (by omega)]
      refine Safe.bind (Safe.pure (Q := fun r t => r = .inr lens ∧ Reading src cap out rest t) ⟨rfl, h⟩) ?_
      rintro _ t ⟨rfl, ht⟩
      exact Safe.pure ⟨fun j hj => hacc.written j (by omega), ht⟩
  | run hrun hrest ih =>
      intro fuel acc s hacc hfuel h
      obtain ⟨fuel, rfl⟩ : ∃ k, fuel = k + 1 := ⟨fuel - 1, by omega⟩
      have hle := hrest.length_le
      have hlt := hrun.length_lt
      rw [List.append_assoc] at h
      rw [loop]
      refine Safe.bind (lengthsStep_reading hch hrun (by omega) hmax hacc h) ?_
      rintro _ t ⟨acc', rfl, hacc', ht⟩
      exact ih htotal hacc' (by omega) ht

theorem lsbValue_lt (bits : List Bool) : lsbValue bits < 2 ^ bits.length := by
  induction bits with
  | nil => decide
  | cons b bits ih =>
      have hb := Bool.toNat_lt b
      rw [lsbValue, List.length_cons, Nat.pow_succ]
      omega

theorem lsbValue_lt_of_length {n : Nat} (h : bits.length = n) : lsbValue bits < 2 ^ n := h ▸ lsbValue_lt bits

/-- The tables are those of the codes that are written in front of a block. -/
theorem dynamicTables_reading {litlen dist : List Nat} (hcodes : Codes bits litlen dist)
    (h : Reading src cap out (bits ++ rest) s) :
    Safe (fun _ => False) dynamicTables s (fun r t => Decodes r.1 litlen ∧ Decodes r.2 dist ∧ Reading src cap out rest t) := by
  cases hcodes with
  | @mk hlit hdist hclen runs groups _ _ h₁ h₂ h₃ hgroups hgroup hruns hlitlen hmax hdistance hrun hend hl hd =>
      have h5 := lsbValue_lt_of_length h₂
      have h4 := lsbValue_lt_of_length h₃
      simp only [List.append_assoc] at h
      unfold dynamicTables
      refine Safe.bind (getbits_reading h₁ (by decide) h) ?_
      rintro _ t₁ ⟨rfl, ht₁⟩
      refine Safe.bind (getbits_reading h₂ (by decide) ht₁) ?_
      rintro _ t₂ ⟨rfl, ht₂⟩
      refine Safe.bind (getbits_reading h₃ (by decide) ht₂) ?_
      rintro _ t₃ ⟨rfl, ht₃⟩
      dsimp only
      refine Safe.step (Safe.failIf (fun hz => absurd hz (by omega)) fun _ => ?_)
      refine Safe.bind (codeLengths_reading hgroups (by omega) hgroup ht₃) ?_
      rintro _ t₄ ⟨rfl, ht₄⟩
      have hlen := length_runLengths groups
      refine Safe.bind (huffBuild_reading hlen (by decide) hruns fun i hi => ?_) ?_
      · rw [Nat.zero_add]
        exact getElem?_map_some (by omega)
      rintro ⟨rc, ch⟩ _ ⟨rfl, hrc, hch⟩
      refine Safe.step (Safe.failIf (fun hz => absurd hz (by dsimp only at hrc ⊢; omega)) fun _ => ?_)
      have hsum : lsbValue hlit + 257 + (lsbValue hdist + 1) ≤ maxCodes := by
        unfold maxCodes
        omega
      refine Safe.bind (lengths_reading hch hrun (by rw [List.length_append]; omega) hsum
        ⟨rfl, List.length_replicate, fun i hi => absurd hi (Nat.not_lt_zero i)⟩ (by simp) ht₄) ?_
      rintro lens t₅ ⟨hlens, ht₅⟩
      refine Safe.step (Safe.fetch (hlens 256 (by omega)) ?_)
      rw [List.getD_append _ _ _ _ hend.lt]
      refine Safe.step (Safe.failIf (fun hz => absurd hz hend) fun _ => ?_)
      refine Safe.bind (huffBuild_reading hlitlen (by unfold maxCodes; omega) hl fun i hi => ?_) ?_
      · rw [Nat.zero_add, hlens i (by omega), List.getD_append _ _ _ _ (by omega)]
      rintro ⟨rc₁, l⟩ _ ⟨rfl, hrc₁, hl'⟩
      refine Safe.step (Safe.failIf (fun hz => absurd hz (by dsimp only at hrc₁ ⊢; omega)) fun _ => ?_)
      refine Safe.bind (huffBuild_reading hdistance (by unfold maxCodes; omega) hd fun i hi => ?_) ?_
      · rw [hlens _ (by omega), List.getD_append_right _ _ _ _ (by omega), show lsbValue hlit + 257 + i - litlen.length = i by omega]
      rintro ⟨rc₂, d⟩ _ ⟨rfl, hrc₂, hd'⟩
      refine Safe.step (Safe.failIf (fun hz => absurd hz (by dsimp only at hrc₂ ⊢; omega)) fun _ => ?_)
      exact Safe.pure ⟨hl', hd', ht₅⟩

end Guppy.Archive.Inflate
