import Guppy.Archive.ReadBlocks

set_option autoImplicit false

/-! # The codes of an accepted block

`getbits`, `huff_build`, `huff_decode`, `dynamic_tables` of `src/gu_gzip.c` on any bytes: what they read without a failure is what the
format has there. A value that a table decodes has its codeword in front (`decodeFrom_ready`), and code lengths that are accepted
are written as runs for two codes (`dynamicTables_ready`).
-/

namespace Guppy.Archive.Inflate

open Checked
open Canonical (msbBits firstCode endCode)
open Deflate

/-! ## The reader -/

/-- The reader within its input and its buffer. -/
structure Ready (src : List UInt8) (cap : Nat) (out : List UInt8) (rest : List Bool) (s : Inflater) : Prop
    extends Reading src cap out rest s where
  pos_le : s.pos ≤ src.length
  out_le : out.length ≤ cap

variable {src out data : List UInt8} {cap : Nat} {bits rest : List Bool} {s t : Inflater}

theorem Ready.ok (h : Ready src cap out rest s) : Ok src cap s :=
  ⟨⟨h.src_eq, h.cap_eq, h.pos_le, by rw [h.out_eq]; exact h.out_le⟩, h.bitcnt_lt⟩

theorem Ready.length_rest (h : Ready src cap out rest s) : rest.length = bitsLeft s := by
  rw [← h.stream_eq, length_stream, bitsLeft, Nat.add_comm]

/-- Without the bits there is no result. -/
theorem getbits_ready {n : Nat} (h24 : n ≤ 24) (h : Ready src cap out rest s) :
    Safe (fun _ => True) (getbits n) s (fun v t => ∃ bits left, rest = bits ++ left ∧ bits.length = n ∧ v = lsbValue bits ∧
      Ready src cap out left t) := by
  have hsafe := Safe.weaken (getbits_safe h24 h.ok)
  by_cases hn : n ≤ rest.length
  · have htake : (rest.take n).length = n := List.length_take_of_le hn
    have hread := h.toReading
    rw [← List.take_append_drop n rest] at hread
    refine Safe.mono (Safe.both hsafe (getbits_reading htake h24 hread)) ?_
    rintro v t ⟨⟨hok, -, -⟩, hv, ht⟩
    exact ⟨_, _, (List.take_append_drop n rest).symm, htake, hv, ht, hok.pos_le, h.out_le⟩
  -- a value takes all of its bits, so that there is none when they run out
  · refine Safe.mono hsafe ?_
    rintro v t ⟨-, hleft, -⟩
    have hlen := h.length_rest
    omega

/-! ## Codes -/

theorem msbBits_snoc (n c : Nat) (b : Bool) : msbBits (n + 1) (2 * c + b.toNat) = msbBits n c ++ [b] := by
  induction n with
  | zero =>
      have hbit : (2 * c + b.toNat).testBit 0 = b := by
        rw [Nat.testBit_zero]
        cases b <;> simp
      rw [msbBits, msbBits, msbBits, hbit]
      rfl
  | succ n ih =>
      have hbit : (2 * c + b.toNat).testBit (n + 1) = c.testBit n := by
        have hb := Bool.toNat_lt b
        rw [Nat.testBit_succ, show (2 * c + b.toNat) / 2 = c by omega]
      rw [msbBits, hbit, ih]
      rfl

/-- Each place among the symbols of a length is that of a symbol. -/
theorem exists_occurs {f : Nat → Nat} {n l p : Nat} (hp : p < occurs f n l) : ∃ i, i < n ∧ f i = l ∧ occurs f i l = p := by
  induction n with
  | zero => exact absurd hp (Nat.not_lt_zero p)
  | succ n ih =>
      rw [occurs_succ] at hp
      by_cases hlt : p < occurs f n l
      · obtain ⟨i, hi, hfi⟩ := ih hlt
        exact ⟨i, by omega, hfi⟩
      · by_cases hn : f n = l
        · rw [if_pos hn] at hp
          exact ⟨n, by omega, hn, by omega⟩
        · rw [if_neg hn] at hp
          omega

/-- The decoder has read `c`, which is behind all shorter codewords, and what it decodes starts with it. -/
theorem decodeFrom_ready {h : Huffman} {f : Nat → Nat} {n : Nat} (hb : Built h f n) (k : Nat) : ∀ {len c : Nat} {s : Inflater}
    {rest : List Bool}, len + k = maxBits → endCode (occurs f n) len ≤ c → Ready src cap out rest s →
      Safe (fun _ => True) (decodeFrom h k (len + 1) (2 * c) (firstCode (occurs f n) (len + 1)) (base (occurs f n) (len + 1))) s
        (fun v t => ∃ bits left, rest = bits ++ left ∧ v < n ∧ f v ≠ 0 ∧
          msbBits len c ++ bits = msbBits (f v) (codeword f n v) ∧ Ready src cap out left t) := by
  induction k with
  | zero => exact fun _ _ _ => Safe.fail trivial
  | succ k ih =>
      intro len c s rest hk hc hs
      rw [decodeFrom]
      refine Safe.bind (getbits_ready (by decide) hs) ?_
      rintro v t ⟨bits, left, rfl, hbits, rfl, ht⟩
      obtain ⟨b, rfl⟩ := List.length_eq_one_iff.mp hbits
      have hcode : 2 * c ||| lsbValue [b] = 2 * c + b.toNat := by
        have hbit : b.toNat < 2 ^ 1 := Bool.toNat_lt _
        have hor := Nat.two_pow_add_eq_or_of_lt hbit c
        rw [Nat.pow_one] at hor
        exact hor.symm
      dsimp only
      rw [hcode]
      refine Safe.step (Safe.fetch (hb.counts (len + 1) (by omega) (by omega)) ?_)
      have hfirst : firstCode (occurs f n) (len + 1) ≤ 2 * c + b.toNat := by
        rw [Canonical.firstCode_succ]
        omega
      by_cases hlast : 2 * c + b.toNat - firstCode (occurs f n) (len + 1) < occurs f n (len + 1)
      -- the code is one of this length: its place among them gives the symbol
      · rw [if_pos ⟨hfirst, hlast⟩]
        obtain ⟨i, hi, hfi, hplace⟩ := exists_occurs hlast
        have h0 : f i ≠ 0 := by omega
        have hsymbol := hb.symbols i hi h0
        rw [hfi, hplace] at hsymbol
        refine Safe.fetch hsymbol ⟨[b], left, rfl, hi, h0, ?_, ht⟩
        rw [hfi, codeword, hfi, hplace, Nat.add_sub_cancel' hfirst, msbBits_snoc]
      -- it is behind all codes of this length, and so behind those of the shorter ones, too
      · rw [if_neg (fun hand => hlast hand.2), Nat.shiftLeft_eq, Nat.shiftLeft_eq, Nat.pow_one, Nat.mul_comm _ 2, Nat.mul_comm _ 2]
        have hend : endCode (occurs f n) (len + 1) ≤ 2 * c + b.toNat := by
          rw [endCode, Canonical.used_succ]
          omega
        have hnext := ih (by omega) hend ht
        rw [Canonical.firstCode_succ, endCode, Canonical.used_succ, base_succ _ (by omega)] at hnext
        refine Safe.mono hnext ?_
        rintro v u ⟨bits, left', rfl, hv, h0, hword, hu⟩
        refine ⟨b :: bits, left', rfl, hv, h0, ?_, hu⟩
        rw [← hword, msbBits_snoc, List.append_assoc]
        rfl

/-- What the tables decode is in front. -/
def Spells (h : Huffman) (ls : List Nat) : Prop :=
  ∀ {src : List UInt8} {cap : Nat} {out : List UInt8} {rest : List Bool} {s : Inflater}, Ready src cap out rest s →
    Safe (fun _ => True) (huffDecode h) s (fun v t => ∃ left, rest = codeBits ls v ++ left ∧ Has ls v ∧
      Ready src cap out left t)

theorem huffBuild_ready {ls : List Nat} {n : Nat} (hn : ls.length = n) (hmaxc : n ≤ maxCodes) (hmax : ∀ l ∈ ls, l ≤ maxBits)
    {length : Table} {off : Nat} (hlength : ∀ i, i < n → length[off + i]? = some (some (ls.getD i 0))) {E : Inflater → Prop} :
    Safe E (huffBuild length off n) s (fun r t => t = s ∧ (¬ r.1 < 0 → IsCode ls ∧ Spells r.2 ls)) := by
  subst hn
  have hmax' : ∀ i, i < ls.length → ls.getD i 0 ≤ maxBits := fun i hi => by
    rw [List.getD_eq_getElem _ _ hi]
    exact hmax _ (List.getElem_mem hi)
  refine Safe.mono (@huffBuild_spec s (fun i => ls.getD i 0) ls.length E length off hmaxc hlength hmax') ?_
  rintro ⟨left, h⟩ t ⟨rfl, haccept, hreject⟩
  refine ⟨rfl, fun hleft => ?_⟩
  have hfits : endCode (occurs (fun i => ls.getD i 0) ls.length) maxBits ≤ 2 ^ maxBits := by
    by_contra hover
    have hneg := hreject (Nat.not_le.mp hover)
    dsimp only at hneg hleft
    omega
  obtain ⟨-, hbuilt⟩ := haccept hfits
  refine ⟨⟨hmax, ?_⟩, fun {src cap out rest s} hs => ?_⟩
  · rw [occurs_eq_count, ← Canonical.kraftSum_eq hmax] at hfits
    exact Nat.not_lt.mpr hfits
  · refine Safe.mono (@decodeFrom_ready src out cap h _ _ hbuilt maxBits 0 0 s rest (Nat.zero_add _) (Nat.zero_le _) hs) ?_
    rintro v t ⟨bits, left, rfl, hv, h0, hword, ht⟩
    refine ⟨left, ?_, h0, ht⟩
    rw [codeBits, ← occurs_getD v _ hv.le, ← occurs_eq_count]
    exact congrArg (· ++ left) hword

/-! ## Written codes -/

theorem codeLengths_ready {n : Nat} (hle : n ≤ 19) (h : Ready src cap out rest s) :
    Safe (fun _ => True) (codeLengths n) s (fun clen t => ∃ (groups : List (List Bool)) (left : List Bool),
      rest = groups.flatten ++ left ∧ groups.length = n ∧ (∀ g ∈ groups, g.length = 3) ∧
        clen = (runLengths groups).map some ∧ Ready src cap out left t) := by
  have hloop : Safe (fun _ => True) (codeLengths n) s (fun clen t => ∃ (groups : List (List Bool)) (left : List Bool),
      rest = groups.flatten ++ left ∧ groups.length = 0 + n ∧ (∀ g ∈ groups, g.length = 3) ∧
        clen = (runLengths groups).map some ∧ Ready src cap out left t) := by
    refine Safe.forLoop (fun i (clen : Table) t => ∃ (groups : List (List Bool)) (left : List Bool),
      rest = groups.flatten ++ left ∧ groups.length = i ∧ (∀ g ∈ groups, g.length = 3) ∧
        clen = (runLengths groups).map some ∧ Ready src cap out left t) ⟨[], rest, rfl, rfl, by simp, by decide, h⟩ ?_
    rintro i clen t - hi ⟨groups, left, rfl, rfl, hgroup, rfl, ht⟩
    have ho : groups.length < order.length := by
      show groups.length < 19
      omega
    have hat : order[groups.length] < 19 := (by decide : ∀ x ∈ order, x < 19) _ (List.getElem_mem ho)
    refine Safe.bind (getbits_ready (by decide) ht) ?_
    rintro v u ⟨g, left, rfl, hg, rfl, hu⟩
    refine Safe.step (Safe.index ho ?_)
    refine Safe.store (by rw [List.length_map, length_runLengths]; exact hat) ⟨groups ++ [g], left, ?_, by simp, ?_, ?_, hu⟩
    · simp
    · intro x hx
      rcases List.mem_append.mp hx with hx | hx
      · exact hgroup x hx
      · rw [List.mem_singleton.mp hx, hg]
    · have hlast : groups.length < (groups ++ [g]).length := by simp
      have htake := runLengths_take hlast ho
      have hall : (groups ++ [g]).take (groups.length + 1) = groups ++ [g] := List.take_of_length_le (by simp)
      rw [List.take_left, hall, List.getElem_append_right le_rfl] at htake
      simpa using htake
  rw [Nat.zero_add] at hloop
  exact hloop

/-- Behind a round of `lengths`: a run was in front of the rest, or all lengths have been read. -/
def LengthsRead (src : List UInt8) (cap : Nat) (out : List UInt8) (rest : List Bool) (clen : List Nat) (total : Nat) (ls : List Nat) :
    (Nat × Table) ⊕ Table → Inflater → Prop
  | .inl acc, t => ∃ bits left next, rest = bits ++ left ∧ Run clen bits ls next ∧ Filled next acc ∧ next.length ≤ total ∧
      (∀ l ∈ next, l ≤ maxBits) ∧ Ready src cap out left t
  | .inr lens, t => ls.length = total ∧ Filled ls (total, lens) ∧ Ready src cap out rest t

/-- The lengths and the runs that were read are in front of those that are still to come. -/
theorem lengthsStep_ready {ch : Huffman} {clen ls : List Nat} (hch : Spells ch clen) {total : Nat} (hmax : total ≤ maxCodes)
    {acc : Nat × Table} (hacc : Filled ls acc) (hle : ls.length ≤ total) (hls : ∀ l ∈ ls, l ≤ maxBits)
    (h : Ready src cap out rest s) :
    Safe (fun _ => True) (lengthsStep ch total acc) s (LengthsRead src cap out rest clen total ls) := by
  obtain ⟨i, lens⟩ := acc
  have hcount := hacc.count
  have hsize := hacc.size
  dsimp only at hcount hsize
  -- a run of lengths, with room for it
  have hrep : ∀ {t : Inflater} {bits left : List Bool} {rep v : Nat}, rest = bits ++ left → Ready src cap out left t →
      Run clen bits ls (ls ++ List.replicate rep v) → ¬ total < i + rep → v ≤ maxBits →
      Safe (fun _ => True) (repeatLength lens i rep v >>= fun lens => pure (Sum.inl (i + rep, lens))) t (LengthsRead src cap out rest clen total ls) := by
    intro t bits left rep v hrest ht hrun hroom hv
    refine Safe.bind (repeatLength_reading hacc (by omega)) ?_
    rintro lens' u ⟨rfl, hfilled⟩
    refine Safe.pure ⟨bits, left, _, hrest, hrun, hfilled, ?_, ?_, ht⟩
    · rw [List.length_append, List.length_replicate]
      omega
    · intro l hl
      rcases List.mem_append.mp hl with hl | hl
      · exact hls l hl
      · rw [(List.mem_replicate.mp hl).2]
        exact hv
  unfold lengthsStep
  dsimp only
  by_cases hdone : total ≤ i
  · rw [if_pos hdone]
    obtain rfl : i = total := by omega
    exact Safe.pure ⟨hcount.symm, hacc, h⟩
  rw [if_neg hdone]
  refine Safe.bind (hch h) ?_
  rintro sym t ⟨left, rfl, hhas, ht⟩
  by_cases h15 : sym ≤ 15
  · rw [if_pos h15]
    refine Safe.step (Safe.store (by omega) ?_)
    refine Safe.pure ⟨_, left, _, rfl, .length h15 hhas, hacc.push (by omega) sym, ?_, ?_, ht⟩
    · rw [List.length_append, List.length_singleton]
      omega
    · intro l hl
      rcases List.mem_append.mp hl with hl | hl
      · exact hls l hl
      · rw [List.mem_singleton.mp hl]
        exact h15
  rw [if_neg h15]
  by_cases h16 : sym = 16
  · subst h16
    rw [if_pos rfl]
    refine Safe.step (Safe.failIf (fun _ => trivial) fun hfirst => ?_)
    refine Safe.bind (getbits_ready (by decide) ht) ?_
    rintro _ u ⟨extra, left, rfl, hextra, rfl, hu⟩
    refine Safe.step (Safe.failIf (fun _ => trivial) fun hroom => ?_)
    refine Safe.step (Safe.fetch (hacc.written (i - 1) (by omega)) ?_)
    have hlast : ls.getLast? = some (ls.getD (i - 1) 0) := by
      rw [List.getLast?_eq_getElem?, ← hcount, List.getElem?_eq_getElem (by omega), List.getD_eq_getElem _ _ (by omega)]
    have hprev := hls _ (List.mem_of_getLast? hlast)
    exact hrep (List.append_assoc _ _ _).symm hu (.previous hhas hextra hlast) hroom hprev
  rw [if_neg h16]
  by_cases h17 : sym = 17
  · subst h17
    rw [if_pos rfl]
    refine Safe.bind (getbits_ready (by decide) ht) ?_
    rintro _ u ⟨extra, left, rfl, hextra, rfl, hu⟩
    refine Safe.step (Safe.failIf (fun _ => trivial) fun hroom => ?_)
    exact hrep (List.append_assoc _ _ _).symm hu (.zeros hhas hextra) hroom (Nat.zero_le _)
  rw [if_neg h17]
  by_cases h18 : sym = 18
  · subst h18
    rw [if_pos rfl]
    refine Safe.bind (getbits_ready (by decide) ht) ?_
    rintro _ u ⟨extra, left, rfl, hextra, rfl, hu⟩
    refine Safe.step (Safe.failIf (fun _ => trivial) fun hroom => ?_)
    exact hrep (List.append_assoc _ _ _).symm hu (.manyZeros hhas hextra) hroom (Nat.zero_le _)
  · rw [if_neg h18]
    exact Safe.fail trivial

theorem lengths_ready {ch : Huffman} {clen : List Nat} (hch : Spells ch clen) {total : Nat} (hmax : total ≤ maxCodes)
    (h : Ready src cap out rest s) :
    Safe (fun _ => True) (loop (lengthsStep ch total) (total + 1) (0, List.replicate maxCodes none)) s (fun lens t =>
      ∃ bits left all, rest = bits ++ left ∧ Runs clen bits [] all ∧ all.length = total ∧ Filled all (total, lens) ∧
        (∀ l ∈ all, l ≤ maxBits) ∧ Ready src cap out left t) := by
  refine Safe.loop (fun acc t => ∃ bits left ls, rest = bits ++ left ∧ (∀ {more all}, Runs clen more ls all →
      Runs clen (bits ++ more) [] all) ∧ Filled ls acc ∧ ls.length ≤ total ∧ (∀ l ∈ ls, l ≤ maxBits) ∧
      Ready src cap out left t) (fun acc _ => total - acc.1) ?_ ⟨[], rest, [], rfl, fun hmore => hmore,
      ⟨rfl, List.length_replicate, fun i hi => absurd hi (Nat.not_lt_zero i)⟩, Nat.zero_le _, by simp, h⟩ (Nat.lt_succ_self _)
  rintro acc t ⟨bits, left, ls, rfl, hbehind, hacc, hle, hls, ht⟩
  refine Safe.mono (lengthsStep_ready hch hmax hacc hle hls ht) fun r u hr => ?_
  cases r with
  | inl acc' =>
      obtain ⟨bits', left, next, rfl, hrun, hacc', hle', hls', hu⟩ := hr
      refine ⟨⟨bits ++ bits', left, next, (List.append_assoc _ _ _).symm, fun hmore => ?_, hacc', hle', hls', hu⟩, ?_⟩
      · rw [List.append_assoc]
        exact hbehind (.run hrun hmore)
      · have hlt := hrun.length_lt
        have hcount := hacc.count
        have hcount' := hacc'.count
        omega
  | inr lens =>
      obtain ⟨hlen, hfilled, hu⟩ := hr
      refine ⟨bits, left, ls, rfl, ?_, hlen, hfilled, hls, hu⟩
      have hall := hbehind .done
      rw [List.append_nil] at hall
      exact hall

theorem dynamicTables_ready (h : Ready src cap out rest s) :
    Safe (fun _ => True) dynamicTables s (fun r t => ∃ bits left litlen dist, rest = bits ++ left ∧ Codes bits litlen dist ∧
      Spells r.1 litlen ∧ Spells r.2 dist ∧ Ready src cap out left t) := by
  unfold dynamicTables
  refine Safe.bind (getbits_ready (by decide) h) ?_
  rintro _ t₁ ⟨hlit, left₁, rfl, h₁, rfl, ht₁⟩
  refine Safe.bind (getbits_ready (by decide) ht₁) ?_
  rintro _ t₂ ⟨hdist, left₂, rfl, h₂, rfl, ht₂⟩
  refine Safe.bind (getbits_ready (by decide) ht₂) ?_
  rintro _ t₃ ⟨hclen, left₃, rfl, h₃, rfl, ht₃⟩
  have h4 := lsbValue_lt_of_length h₃
  dsimp only
  refine Safe.step (Safe.failIf (fun _ => trivial) fun hsizes => ?_)
  refine Safe.bind (codeLengths_ready (by omega) ht₃) ?_
  rintro _ t₄ ⟨groups, left₄, rfl, hgroups, hgroup, rfl, ht₄⟩
  have hruns : ∀ l ∈ runLengths groups, l ≤ maxBits := by
    intro l hl
    obtain ⟨i, -, rfl⟩ := List.mem_map.mp hl
    by_cases hi : order.idxOf i < (groups.map lsbValue).length
    · rw [List.getD_eq_getElem _ _ hi, List.getElem_map]
      have hlt := lsbValue_lt_of_length (hgroup _ (List.getElem_mem (by simpa using hi)))
      unfold maxBits
      omega
    · rw [List.getD_eq_default _ _ (Nat.not_lt.mp hi)]
      exact Nat.zero_le _
  have hlen := length_runLengths groups
  refine Safe.bind (huffBuild_ready hlen (by decide) hruns fun i hi => ?_) ?_
  · rw [Nat.zero_add]
    exact getElem?_map_some (by omega)
  rintro ⟨rc, ch⟩ _ ⟨rfl, haccept⟩
  refine Safe.step (Safe.failIf (fun _ => trivial) fun hrc => ?_)
  obtain ⟨hcode, hch⟩ := haccept hrc
  have hsum : lsbValue hlit + 257 + (lsbValue hdist + 1) ≤ maxCodes := by
    unfold maxCodes
    omega
  refine Safe.bind (lengths_ready hch hsum ht₄) ?_
  rintro lens t₅ ⟨runs, left₅, all, rfl, hrun, hall, hfilled, hmax, ht₅⟩
  have hwritten := hfilled.written
  dsimp only at hwritten
  refine Safe.step (Safe.fetch (hwritten 256 (by omega)) ?_)
  refine Safe.step (Safe.failIf (fun _ => trivial) fun hend => ?_)
  -- the lengths of the first code, and those of the second
  obtain ⟨litlen, dist, rfl, hlitlen⟩ : ∃ litlen dist, all = litlen ++ dist ∧ litlen.length = lsbValue hlit + 257 :=
    ⟨_, _, (List.take_append_drop (lsbValue hlit + 257) all).symm, List.length_take_of_le (by omega)⟩
  rw [List.length_append] at hall hwritten
  refine Safe.bind (huffBuild_ready hlitlen (by unfold maxCodes; omega)
    (fun l hl => hmax l (List.mem_append_left _ hl)) fun i hi => ?_) ?_
  · rw [Nat.zero_add, hwritten i (by omega), List.getD_append _ _ _ _ (by omega)]
  rintro ⟨rc₁, l⟩ _ ⟨rfl, haccept₁⟩
  refine Safe.step (Safe.failIf (fun _ => trivial) fun hrc₁ => ?_)
  refine Safe.bind (huffBuild_ready (show dist.length = lsbValue hdist + 1 by omega) (by unfold maxCodes; omega)
    (fun l hl => hmax l (List.mem_append_right _ hl)) fun i hi => ?_) ?_
  · rw [hwritten _ (by omega), List.getD_append_right _ _ _ _ (by omega), show lsbValue hlit + 257 + i - litlen.length = i by omega]
  rintro ⟨rc₂, d⟩ _ ⟨rfl, haccept₂⟩
  refine Safe.step (Safe.failIf (fun _ => trivial) fun hrc₂ => ?_)
  obtain ⟨hl, hl'⟩ := haccept₁ hrc₁
  obtain ⟨hd, hd'⟩ := haccept₂ hrc₂
  have hhas : Has litlen 256 := by
    rw [List.getD_append _ _ _ _ (by omega)] at hend
    exact hend
  exact Safe.pure ⟨_, left₅, litlen, dist, by simp only [List.append_assoc],
    .mk h₁ h₂ h₃ hgroups hgroup hcode hlitlen (by omega) (by omega) hrun hhas hl hd, hl', hd', ht₅⟩

end Guppy.Archive.Inflate
