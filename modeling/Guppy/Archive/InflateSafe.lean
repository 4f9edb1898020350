import Guppy.Archive.Inflate
import Guppy.Lib.Canonical

set_option autoImplicit false

/-! # Inflating stays within its buffers

Whatever the input is, `inflate_raw` comes to an end, and all it reads and writes is there. Each part
of the decoder has one lemma. It says what the part needs of its tables and what it leaves of the bits
of the input; the loops end since a round takes a bit at least, or fills a place of a table.
-/

namespace Guppy.Archive.Inflate

open Checked
open Canonical (endCode endCode_zero endCode_succ)

/-! ## The reader -/

section

variable (src : List UInt8) (cap : Nat)

/-- The input and the capacity are those of the call, and the positions are within them. -/
structure Within (s : Inflater) : Prop where
  src_eq : s.src = src
  cap_eq : s.outcap = cap
  pos_le : s.pos ≤ src.length
  out_le : s.out.length ≤ cap

/-- Between two calls of the reader less than a byte is in the bit buffer. -/
structure Ok (s : Inflater) : Prop extends Within src cap s where
  bitcnt_lt : s.bitcnt < 8

end

/-- The bits of the input that are to come. -/
def bitsLeft (s : Inflater) : Nat := 8 * (s.src.length - s.pos) + s.bitcnt

section

variable {src : List UInt8} {cap : Nat} {s : Inflater}

theorem Ok.within (h : Ok src cap s) : Within src cap s := h.toWithin

/-- A round that adds a byte to the bit buffer. -/
theorem fillBits_safe {need : Nat} (hneed : need ≤ 24) (h : Ok src cap s) :
    Safe (Within src cap) (loop (fillBits need) (need + 1) ()) s (fun _ t =>
      Within src cap t ∧ bitsLeft t = bitsLeft s ∧ need ≤ t.bitcnt ∧ t.bitcnt < need + 8) := by
  refine Safe.loop (fun _ t => Within src cap t ∧ bitsLeft t = bitsLeft s ∧ t.bitcnt < need + 8)
    (fun _ t => need - t.bitcnt) ?_ ⟨h.within, rfl, by have := h.bitcnt_lt; omega⟩ (by omega)
  rintro _ t ⟨hw, hbits, hcnt⟩
  unfold fillBits
  refine Safe.step (Safe.get ?_)
  by_cases hdone : need ≤ t.bitcnt
  · rw [if_pos hdone]
    exact Safe.pure ⟨hw, hbits, hdone, hcnt⟩
  · rw [if_neg hdone]
    refine Safe.step (Safe.failIf (fun _ => hw) fun hmore => ?_)
    have hpos : t.pos < t.src.length := by omega
    refine Safe.step (Safe.index hpos ?_)
    refine Safe.step (Safe.require (by omega) ?_)
    refine Safe.step (Safe.modify ?_)
    refine Safe.pure ⟨⟨⟨hw.src_eq, hw.cap_eq, ?_, hw.out_le⟩, ?_, ?_⟩, ?_⟩
    · rw [hw.src_eq] at hpos
      exact hpos
    · rw [← hbits]
      show 8 * (t.src.length - (t.pos + 1)) + (t.bitcnt + 8) = 8 * (t.src.length - t.pos) + t.bitcnt
      omega
    · show t.bitcnt + 8 < need + 8
      omega
    · show need - (t.bitcnt + 8) < need - t.bitcnt
      omega

theorem getbits_safe {need : Nat} (hneed : need ≤ 24) (h : Ok src cap s) :
    Safe (Within src cap) (getbits need) s (fun v t => Ok src cap t ∧ bitsLeft t + need = bitsLeft s ∧ v < 2 ^ need) := by
  unfold getbits
  refine Safe.bind (fillBits_safe hneed h) ?_
  rintro _ t ⟨hw, hbits, hge, hlt⟩
  refine Safe.step (Safe.get ?_)
  refine Safe.step (Safe.require (by omega) ?_)
  refine Safe.step (Safe.sub hge ?_)
  refine Safe.step (Safe.modify ?_)
  refine Safe.pure ⟨⟨⟨hw.src_eq, hw.cap_eq, hw.pos_le, hw.out_le⟩, ?_⟩, ?_, ?_⟩
  · show t.bitcnt - need < 8
    omega
  · rw [← hbits]
    show 8 * (t.src.length - t.pos) + (t.bitcnt - need) + need = 8 * (t.src.length - t.pos) + t.bitcnt
    omega
  · split
    · exact Nat.two_pow_pos need
    · rw [Nat.one_shiftLeft]
      have hpow := Nat.two_pow_pos need
      have hand : t.bitbuf &&& (2 ^ need - 1) ≤ 2 ^ need - 1 := Nat.and_le_right
      omega

/-! ## Tables -/

/-- The first `n` places of a table are written. -/
def Written (t : Table) (n : Nat) : Prop := ∀ i, i < n → ∃ v, t[i]? = some (some v)

theorem Written.le_length {t : Table} {n : Nat} (h : Written t n) : n ≤ t.length := by
  by_contra hlt
  obtain ⟨v, hv⟩ := h t.length (by omega)
  rw [List.getElem?_eq_none (Nat.le_refl _)] at hv
  cases hv

theorem Written.mono {t : Table} {m n : Nat} (h : Written t n) (hmn : m ≤ n) : Written t m :=
  fun i hi => h i (by omega)

theorem written_replicate (n v : Nat) : Written (List.replicate n (some v)) n := by
  intro i hi
  exact ⟨v, by rw [List.getElem?_replicate, if_pos hi]⟩

theorem Written.set {t : Table} {n i : Nat} (h : Written t n) (v : Nat) : Written (t.set i (some v)) n := by
  intro j hj
  by_cases hij : i = j
  · subst hij
    exact ⟨v, List.getElem?_set_self (by have := h.le_length; omega)⟩
  · rw [List.getElem?_set_ne hij]
    exact h j hj

/-- The next place. -/
theorem Written.push {t : Table} {n : Nat} (h : Written t n) (hn : n < t.length) (v : Nat) :
    Written (t.set n (some v)) (n + 1) := by
  intro j hj
  by_cases hij : n = j
  · subst hij
    exact ⟨v, List.getElem?_set_self hn⟩
  · rw [List.getElem?_set_ne hij]
    exact h j (by omega)

end

/-! ## Building a code -/

section

/-- A table of numbers for the lengths of codes. -/
def Numbers (t : Table) (g : Nat → Nat) : Prop := ∀ l, 1 ≤ l → l ≤ maxBits → t[l]? = some (some (g l))

theorem Numbers.lt_length {t : Table} {g : Nat → Nat} (h : Numbers t g) : maxBits < t.length := by
  by_contra hlt
  have h15 := h maxBits (by decide) (Nat.le_refl _)
  rw [List.getElem?_eq_none (by omega)] at h15
  cases h15

/-- A new number for one length. -/
theorem Numbers.set {t : Table} {g g' : Nat → Nat} {l v : Nat} (h : Numbers t g) (hl : l ≤ maxBits)
    (hg : ∀ j, 1 ≤ j → j ≤ maxBits → g' j = if l = j then v else g j) : Numbers (t.set l (some v)) g' := by
  intro j hj hj'
  rw [hg j hj hj']
  by_cases hlj : l = j
  · subst hlj
    rw [if_pos rfl]
    exact List.getElem?_set_self (by have := h.lt_length; omega)
  · rw [if_neg hlj, List.getElem?_set_ne hlj]
    exact h j hj hj'

/-- How many of the first `m` lengths are `l`. -/
def occurs (f : Nat → Nat) (m l : Nat) : Nat := Nat.count (fun i => f i = l) m

theorem occurs_succ (f : Nat → Nat) (m l : Nat) : occurs f (m + 1) l = occurs f m l + if f m = l then 1 else 0 :=
  Nat.count_succ _ m

/-- Where the symbols of a length start. -/
def base (g : Nat → Nat) (l : Nat) : Nat := ∑ j ∈ Finset.range (l - 1), g (j + 1)

theorem base_succ (g : Nat → Nat) {l : Nat} (hl : 1 ≤ l) : base g (l + 1) = base g l + g l := by
  obtain ⟨l, rfl⟩ : ∃ k, l = k + 1 := ⟨l - 1, by omega⟩
  exact Finset.sum_range_succ _ l

theorem base_mono (g : Nat → Nat) {l l' : Nat} (h : l ≤ l') : base g l ≤ base g l' :=
  Finset.sum_le_sum_of_subset (Finset.range_mono (by omega))

/-- Each place has one length. -/
theorem base_occurs_le (f : Nat → Nat) (m l : Nat) : base (occurs f m) l ≤ m := by
  induction m with
  | zero => exact Nat.le_of_eq (Finset.sum_eq_zero (fun j _ => rfl))
  | succ m ih =>
      have hone : ∑ j ∈ Finset.range (l - 1), (if f m = j + 1 then 1 else 0) ≤ 1 := by
        rw [← Finset.card_filter]
        refine Finset.card_le_one.mpr fun a ha b hb => ?_
        have ha' := (Finset.mem_filter.mp ha).2
        have hb' := (Finset.mem_filter.mp hb).2
        omega
      calc base (occurs f (m + 1)) l
          = base (occurs f m) l + ∑ j ∈ Finset.range (l - 1), (if f m = j + 1 then 1 else 0) := by
            unfold base
            rw [← Finset.sum_add_distrib]
            exact Finset.sum_congr rfl (fun j _ => occurs_succ f m (j + 1))
        _ ≤ m + 1 := by omega

variable {E : Inflater → Prop} {s : Inflater} {length : Table} {off n : Nat} {f : Nat → Nat}

theorem countLengths_safe (hf : ∀ i, i < n → length[off + i]? = some (some (f i))) :
    Safe E (countLengths length off n) s (fun r t => t = s ∧ ∃ m, m ≤ n ∧ r.2[0]? = some (some (occurs f m 0)) ∧
      Numbers r.2 (occurs f m) ∧ (r.1 = true → m = n) ∧ (r.1 = true ↔ ∀ i, i < n → f i ≤ maxBits)) := by
  have hloop : Safe E (countLengths length off n) s (fun r t => t = s ∧ ∃ m, m ≤ 0 + n ∧ r.2[0]? = some (some (occurs f m 0)) ∧
      Numbers r.2 (occurs f m) ∧ (r.1 = true → m = 0 + n) ∧ (r.1 = true ↔ ∀ i, i < 0 + n → f i ≤ maxBits)) := by
    refine Safe.forLoop (fun i (r : Bool × Table) t => t = s ∧ ∃ m, m ≤ i ∧ r.2[0]? = some (some (occurs f m 0)) ∧
      Numbers r.2 (occurs f m) ∧ (r.1 = true → m = i) ∧ (r.1 = true ↔ ∀ k, k < i → f k ≤ maxBits))
      ⟨rfl, 0, Nat.le_refl 0, rfl, ?_, fun _ => rfl, ?_⟩ ?_
    · intro l _ hl
      rw [List.getElem?_replicate, if_pos (by omega)]
      rfl
    · exact iff_of_true rfl fun k hk => absurd hk (Nat.not_lt_zero k)
    · rintro i ⟨ok, count⟩ t _ hi ⟨rfl, m, hm, hzero, hnum, hall, hok⟩
      by_cases hfail : ok = false
      · rw [if_pos hfail]
        have hno : ¬ ok = true := by simp [hfail]
        exact Safe.pure ⟨rfl, m, by omega, hzero, hnum, fun h => absurd h hno, iff_of_false hno fun h =>
          hno (hok.mpr fun k hk => h k (by omega))⟩
      · have htrue : ok = true := by simpa using hfail
        obtain rfl := hall htrue
        have hsmall := hok.mp htrue
        rw [if_neg hfail]
        refine Safe.step (Safe.fetch (hf m (by omega)) ?_)
        by_cases hbig : maxBits < f m
        · rw [if_pos hbig]
          exact Safe.pure ⟨rfl, m, by omega, hzero, hnum, fun h => absurd h Bool.false_ne_true,
            iff_of_false Bool.false_ne_true fun h => absurd (h m (Nat.lt_succ_self m)) (by omega)⟩
        · rw [if_neg hbig]
          -- the counter of this length, or that of the places without a code
          have hcell : count[f m]? = some (some (occurs f m (f m))) := by
            by_cases h0 : f m = 0
            · rw [h0]
              exact hzero
            · exact hnum (f m) (by omega) (by omega)
          have hlen := hnum.lt_length
          refine Safe.step (Safe.fetch hcell ?_)
          refine Safe.step (Safe.store (by omega) ?_)
          refine Safe.pure ⟨rfl, m + 1, Nat.le_refl _, ?_, ?_, fun _ => rfl, iff_of_true rfl fun j hj => ?_⟩
          · rw [occurs_succ]
            by_cases h0 : f m = 0
            · rw [if_pos h0, h0]
              exact List.getElem?_set_self (by omega)
            · rw [if_neg h0, List.getElem?_set_ne h0]
              exact hzero
          · refine hnum.set (by omega) fun l hl hl' => ?_
            rw [occurs_succ]
            by_cases h0 : f m = l
            · subst h0
              rw [if_pos rfl, if_pos rfl]
            · rw [if_neg h0, if_neg h0, Nat.add_zero]
          · by_cases hjm : j = m
            · rw [hjm]
              omega
            · exact hsmall j (by omega)
  simpa using hloop

/-- What is left is not negative exactly if the codes fit their lengths. -/
theorem codesLeft_safe {count : Table} {g : Nat → Nat} (hg : Numbers count g) :
    Safe E (codesLeft count) s (fun left t => t = s ∧ (0 ≤ left ↔ endCode g maxBits ≤ 2 ^ maxBits)) := by
  refine Safe.mono (Safe.forLoop (fun l (left : Int) t => t = s ∧
    (left = 2 ^ (l - 1) - endCode g (l - 1) ∧ 0 ≤ left ∨ left < 0 ∧ 2 ^ (l - 1) < endCode g (l - 1)))
    ⟨rfl, Or.inl ⟨by simp [endCode_zero], by decide⟩⟩ ?_) ?_
  · rintro l left t hl hl' ⟨rfl, hleft⟩
    obtain ⟨l, rfl⟩ : ∃ k, l = k + 1 := ⟨l - 1, by omega⟩
    rw [Nat.add_sub_cancel] at hleft
    have hpow : 2 ^ (l + 1) = 2 * 2 ^ l := Nat.pow_succ'
    rcases hleft with ⟨heq, hpos⟩ | ⟨hneg, hover⟩
    · rw [if_neg (by omega)]
      refine Safe.step (Safe.fetch (hg (l + 1) hl (by unfold maxBits at *; omega)) ?_)
      refine Safe.pure ⟨rfl, ?_⟩
      have hcast : ((2 ^ l : Nat) : Int) = 2 ^ l := Nat.cast_pow 2 l
      rw [Nat.add_sub_cancel, endCode_succ, hpow, Int.pow_succ, ← hcast]
      rw [← hcast] at heq
      generalize 2 ^ l = p at heq ⊢
      push_cast
      omega
    · rw [if_pos hneg]
      refine Safe.pure ⟨rfl, Or.inr ⟨hneg, ?_⟩⟩
      rw [Nat.add_sub_cancel, endCode_succ, hpow]
      omega
  · rintro left t ⟨rfl, hleft⟩
    refine ⟨rfl, ?_⟩
    change left = 2 ^ 15 - endCode g 15 ∧ 0 ≤ left ∨ left < 0 ∧ 2 ^ 15 < endCode g 15 at hleft
    change 0 ≤ left ↔ endCode g 15 ≤ 2 ^ 15
    omega

theorem symbolOffsets_safe {count : Table} {g : Nat → Nat} (hg : Numbers count g) :
    Safe E (symbolOffsets count) s (fun offs t => t = s ∧ Numbers offs (base g)) := by
  unfold symbolOffsets
  refine Safe.step (Safe.store (by decide) ?_)
  refine Safe.mono (Safe.forLoop (fun l (offs : Table) t => t = s ∧ maxBits < offs.length ∧
    ∀ j, 1 ≤ j → j ≤ l → offs[j]? = some (some (base g j))) ⟨rfl, by decide, ?_⟩ ?_) ?_
  · intro j hj hj'
    obtain rfl : j = 1 := by omega
    rfl
  · rintro l offs t hl hl' ⟨rfl, hlen, hoffs⟩
    unfold maxBits at hl' hlen
    refine Safe.step (Safe.fetch (hoffs l hl (Nat.le_refl l)) ?_)
    refine Safe.step (Safe.fetch (hg l hl (by unfold maxBits; omega)) ?_)
    refine Safe.store (by omega) ⟨rfl, by rw [List.length_set]; exact hlen, fun j hj hj' => ?_⟩
    by_cases hlast : l + 1 = j
    · subst hlast
      rw [base_succ g hl]
      exact List.getElem?_set_self (by omega)
    · rw [List.getElem?_set_ne hlast]
      exact hoffs j hj (by omega)
  · rintro offs t ⟨rfl, _, hoffs⟩
    exact ⟨rfl, fun l hl hl' => hoffs l hl (by unfold maxBits at *; omega)⟩

theorem occurs_mono (f : Nat → Nat) {m m' : Nat} (h : m ≤ m') (l : Nat) : occurs f m l ≤ occurs f m' l :=
  Nat.count_monotone _ h

/-- No two symbols have the same place. -/
theorem place_ne {i j : Nat} (hi : i < j) (hj : j < n) (hfi : f i ≠ 0) (hfj : f j ≠ 0) :
    base (occurs f n) (f i) + occurs f i (f i) ≠ base (occurs f n) (f j) + occurs f j (f j) := by
  -- a symbol is counted behind its own place
  have hnext (k : Nat) : occurs f (k + 1) (f k) = occurs f k (f k) + 1 := by rw [occurs_succ, if_pos rfl]
  have hbound (k : Nat) (hk : k < n) : occurs f k (f k) < occurs f n (f k) := by
    have := occurs_mono f (show k + 1 ≤ n by omega) (f k)
    rw [hnext] at this
    exact this
  have hbi := hbound i (by omega)
  have hbj := hbound j hj
  have hsi := base_succ (occurs f n) (show 1 ≤ f i by omega)
  have hsj := base_succ (occurs f n) (show 1 ≤ f j by omega)
  rcases Nat.lt_trichotomy (f i) (f j) with hlt | heq | hgt
  · have := base_mono (occurs f n) (show f i + 1 ≤ f j by omega)
    omega
  · have := occurs_mono f (show i + 1 ≤ j by omega) (f i)
    rw [hnext] at this
    rw [← heq]
    omega
  · have := base_mono (occurs f n) (show f j + 1 ≤ f i by omega)
    omega

/-- The symbol table has a place for each symbol, and the symbols are in their places. -/
theorem placeSymbols_safe (hn : n ≤ maxCodes) (hf : ∀ i, i < n → length[off + i]? = some (some (f i)))
    (hmax : ∀ i, i < n → f i ≤ maxBits) {offs : Table} (hoffs : Numbers offs (base (occurs f n))) :
    Safe E (placeSymbols length off n offs) s (fun r t => t = s ∧ Written r.2 maxCodes ∧
      ∀ i, i < n → f i ≠ 0 → r.2[base (occurs f n) (f i) + occurs f i (f i)]? = some (some i)) := by
  refine Safe.mono (Safe.forLoop (fun i (r : Table × Table) t => t = s ∧ Written r.2 maxCodes ∧
    (∀ j, j < i → f j ≠ 0 → r.2[base (occurs f n) (f j) + occurs f j (f j)]? = some (some j)) ∧
    Numbers r.1 (fun l => base (occurs f n) l + occurs f i l)) ⟨rfl, written_replicate _ _, ?_, ?_⟩ ?_) ?_
  · exact fun j hj => absurd hj (Nat.not_lt_zero j)
  · intro l hl hl'
    exact hoffs l hl hl'
  · rintro i ⟨offs, symbol⟩ t _ hi ⟨rfl, hsymbol, hplaced, hplaces⟩
    rw [Nat.zero_add] at hi
    refine Safe.step (Safe.fetch (hf i hi) ?_)
    by_cases h0 : f i = 0
    · rw [if_pos h0]
      refine Safe.pure ⟨rfl, hsymbol, fun j hj hj0 => ?_, fun l hl hl' => ?_⟩
      · exact hplaced j (Nat.lt_of_le_of_ne (Nat.lt_succ_iff.mp hj) fun he => hj0 (he ▸ h0)) hj0
      · show offs[l]? = some (some (base (occurs f n) l + occurs f (i + 1) l))
        rw [occurs_succ, if_neg (by omega)]
        exact hplaces l hl hl'
    · rw [if_neg h0]
      have hl := hmax i hi
      -- the place is below that of the next length, and so below the number of lengths
      have hplace : base (occurs f n) (f i) + occurs f i (f i) < maxCodes := by
        have hthis : occurs f (i + 1) (f i) = occurs f i (f i) + 1 := by rw [occurs_succ, if_pos rfl]
        have hmono := occurs_mono f (show i + 1 ≤ n by omega) (f i)
        have hnext := base_succ (occurs f n) (show 1 ≤ f i by omega)
        have hall := base_occurs_le f n (f i + 1)
        omega
      refine Safe.step (Safe.fetch (hplaces (f i) (by omega) hl) ?_)
      have hlen : maxCodes ≤ symbol.length := hsymbol.le_length
      have hlen' : maxBits < offs.length := hplaces.lt_length
      refine Safe.step (Safe.store (Nat.lt_of_lt_of_le hplace hlen) ?_)
      refine Safe.step (Safe.store (Nat.lt_of_le_of_lt hl hlen') ?_)
      refine Safe.pure ⟨rfl, hsymbol.set _, fun j hj hj0 => ?_, hplaces.set hl fun j _ _ => ?_⟩
      · rcases Nat.lt_or_eq_of_le (Nat.lt_succ_iff.mp hj) with hlt | rfl
        · rw [List.getElem?_set_ne (place_ne hlt hi hj0 h0).symm]
          exact hplaced j hlt hj0
        · exact List.getElem?_set_self (Nat.lt_of_lt_of_le hplace hlen)
      · rw [occurs_succ]
        by_cases hj : f i = j
        · subst hj
          rw [if_pos rfl, if_pos rfl, Nat.add_assoc]
        · rw [if_neg hj, if_neg hj, Nat.add_zero]
  · rintro r t ⟨rfl, hsymbol, hplaced, _⟩
    rw [Nat.zero_add] at hplaced
    exact ⟨rfl, hsymbol, hplaced⟩

/-- What the decoder needs of its tables. -/
structure Usable (h : Huffman) (g : Nat → Nat) : Prop where
  counts : Numbers h.count g
  fits : base g (maxBits + 1) ≤ maxCodes
  symbols : Written h.symbol maxCodes

theorem huffBuild_safe (hn : n ≤ maxCodes) (hlength : ∀ i, i < n → ∃ v, length[off + i]? = some (some v)) :
    Safe E (huffBuild length off n) s (fun r t => t = s ∧ ∃ g, Usable r.2 g) := by
  obtain ⟨f, hf⟩ : ∃ f : Nat → Nat, ∀ i, i < n → length[off + i]? = some (some (f i)) := by
    refine ⟨fun i => (length[off + i]?.join).getD 0, fun i hi => ?_⟩
    obtain ⟨v, hv⟩ := hlength i hi
    show length[off + i]? = some (some ((length[off + i]?.join).getD 0))
    rw [hv]
    rfl
  have hunused : Written (List.replicate maxCodes (some 0)) maxCodes := written_replicate _ _
  unfold huffBuild
  refine Safe.bind (countLengths_safe hf) ?_
  rintro ⟨ok, count⟩ t ⟨rfl, m, hm, hzeros, hcounts, hall, hok⟩
  have hfits : base (occurs f m) (maxBits + 1) ≤ maxCodes := Nat.le_trans (base_occurs_le f m _) (Nat.le_trans hm hn)
  dsimp only []
  by_cases hfail : ok = false
  · rw [if_pos hfail]
    exact Safe.pure ⟨rfl, _, hcounts, hfits, hunused⟩
  · rw [if_neg hfail]
    have htrue : ok = true := by simpa using hfail
    obtain rfl := hall htrue
    have hmax := hok.mp htrue
    refine Safe.step (Safe.fetch hzeros ?_)
    split
    · exact Safe.pure ⟨rfl, _, hcounts, hfits, hunused⟩
    · refine Safe.bind (codesLeft_safe hcounts) ?_
      rintro left t ⟨rfl, -⟩
      split
      · exact Safe.pure ⟨rfl, _, hcounts, hfits, hunused⟩
      · refine Safe.bind (symbolOffsets_safe hcounts) ?_
        rintro offs t ⟨rfl, hoffs⟩
        refine Safe.bind (placeSymbols_safe hn hf hmax hoffs) ?_
        rintro ⟨_, symbol⟩ t ⟨rfl, hsymbol, -⟩
        exact Safe.pure ⟨rfl, _, hcounts, hfits, hsymbol⟩

end

/-! ## Decoding -/

section

variable {src : List UInt8} {cap : Nat} {s : Inflater}

/-- A symbol costs a bit at least. -/
theorem decodeFrom_safe {h : Huffman} {g : Nat → Nat} (hu : Usable h g) (k : Nat) : ∀ {len code first idx : Nat} {s : Inflater},
    1 ≤ len → len + k = maxBits + 1 → idx = base g len → Ok src cap s →
    Safe (Within src cap) (decodeFrom h k len code first idx) s (fun _ t => Ok src cap t ∧ bitsLeft t < bitsLeft s) := by
  induction k with
  | zero => exact fun _ _ _ hs => Safe.fail hs.within
  | succ k ih =>
      intro len code first idx s hlen hk hidx hs
      unfold decodeFrom
      refine Safe.bind (getbits_safe (by decide) hs) ?_
      rintro bit t ⟨ht, hbits, _⟩
      dsimp only []
      refine Safe.step (Safe.fetch (hu.counts len hlen (by omega)) ?_)
      have hnext := base_succ g hlen
      split
      · rename_i hcode
        -- the place is below that of the next length
        have hplace : idx + ((code ||| bit) - first) < maxCodes := by
          have hmono := base_mono g (show len + 1 ≤ maxBits + 1 by omega)
          have hfits := hu.fits
          omega
        obtain ⟨v, hv⟩ := hu.symbols _ hplace
        exact Safe.fetch hv ⟨ht, by omega⟩
      · refine Safe.mono (ih (by omega) (by omega) (by omega) ht) ?_
        rintro _ u ⟨hu', hlt⟩
        exact ⟨hu', by omega⟩

theorem huffDecode_safe {h : Huffman} {g : Nat → Nat} (hu : Usable h g) (hs : Ok src cap s) :
    Safe (Within src cap) (huffDecode h) s (fun _ t => Ok src cap t ∧ bitsLeft t < bitsLeft s) :=
  decodeFrom_safe hu maxBits (Nat.le_refl 1) rfl rfl hs

/-! ## The tables of a block -/

theorem Written.append {t u : Table} (ht : Written t t.length) (hu : Written u u.length) :
    Written (t ++ u) (t ++ u).length := by
  intro i hi
  rw [List.length_append] at hi
  by_cases hit : i < t.length
  · rw [List.getElem?_append_left hit]
    exact ht i hit
  · rw [List.getElem?_append_right (by omega)]
    exact hu (i - t.length) (by omega)

theorem fixedLengths_written : Written fixedLengths maxLCodes := by
  have hrun : ∀ n v : Nat, Written (List.replicate n (some v)) (List.replicate n (some v)).length := by
    intro n v
    rw [List.length_replicate]
    exact written_replicate n v
  have hlen : fixedLengths.length = maxLCodes := by
    unfold fixedLengths maxLCodes
    simp only [List.length_append, List.length_replicate]
  rw [← hlen]
  exact (((hrun 144 8).append (hrun 112 9)).append (hrun 24 7)).append (hrun 8 8)

theorem fixedTables_safe {E : Inflater → Prop} :
    Safe E fixedTables s (fun r t => t = s ∧ (∃ g, Usable r.1 g) ∧ ∃ g, Usable r.2 g) := by
  have hsize : maxLCodes ≤ maxCodes ∧ 32 ≤ maxCodes := by
    unfold maxLCodes maxCodes
    omega
  unfold fixedTables
  refine Safe.bind (huffBuild_safe hsize.1 fun i hi => (Nat.zero_add i).symm ▸ fixedLengths_written i hi) ?_
  rintro ⟨_, litlen⟩ t ⟨rfl, hlitlen⟩
  refine Safe.bind (huffBuild_safe hsize.2 fun i hi => (Nat.zero_add i).symm ▸ written_replicate 32 5 i hi) ?_
  rintro ⟨_, dist⟩ t ⟨rfl, hdist⟩
  exact Safe.pure ⟨rfl, hlitlen, hdist⟩

theorem codeLengths_safe {hclen : Nat} (hle : hclen ≤ 19) (hs : Ok src cap s) :
    Safe (Within src cap) (codeLengths hclen) s (fun clen t => Ok src cap t ∧ bitsLeft t ≤ bitsLeft s ∧ Written clen 19) := by
  have horder : ∀ x ∈ order, x < 19 := by decide
  refine Safe.forLoop (fun _ clen t => Ok src cap t ∧ bitsLeft t ≤ bitsLeft s ∧ Written clen 19)
    ⟨hs, Nat.le_refl _, written_replicate 19 0⟩ ?_
  rintro i clen t _ hi ⟨ht, hbits, hclen⟩
  refine Safe.bind (getbits_safe (by decide) ht) ?_
  rintro v u ⟨hu, hbits', _⟩
  have hi' : i < order.length := by
    show i < 19
    omega
  refine Safe.step (Safe.index hi' ?_)
  have hlen := hclen.le_length
  have hat := horder _ (List.getElem_mem hi')
  exact Safe.store (by omega) ⟨hu, by omega, hclen.set v⟩

theorem repeatLength_safe {E : Inflater → Prop} {lens : Table} {i rep v : Nat} (hlens : Written lens i)
    (hroom : i + rep ≤ lens.length) : Safe E (repeatLength lens i rep v) s (fun r t => t = s ∧ Written r (i + rep) ∧
      r.length = lens.length) := by
  refine Safe.forLoop (fun k (r : Table) t => t = s ∧ Written r k ∧ r.length = lens.length) ⟨rfl, hlens, rfl⟩ ?_
  rintro k r t _ hk ⟨rfl, hr, hlen⟩
  exact Safe.store (by omega) ⟨rfl, hr.push (by omega) v, by rw [List.length_set, hlen]⟩

/-- The table of lengths, filled up to a place. -/
def LengthsTo (total : Nat) (acc : Nat × Table) : Prop :=
  acc.1 ≤ total ∧ acc.2.length = maxCodes ∧ Written acc.2 acc.1

theorem lengthsStep_safe {ch : Huffman} {g : Nat → Nat} (hu : Usable ch g) {total : Nat} (htotal : total ≤ maxCodes)
    {acc : Nat × Table} (hacc : LengthsTo total acc) (hs : Ok src cap s) :
    Safe (Within src cap) (lengthsStep ch total acc) s (fun r t =>
      match r with
      | .inl acc' => LengthsTo total acc' ∧ acc.1 < acc'.1 ∧ Ok src cap t ∧ bitsLeft t ≤ bitsLeft s
      | .inr lens => Written lens total ∧ Ok src cap t ∧ bitsLeft t ≤ bitsLeft s) := by
  obtain ⟨i, lens⟩ := acc
  obtain ⟨hi, hlen, hwritten⟩ := hacc
  dsimp only [] at hi hlen hwritten
  -- a run of lengths, with room for it
  have hrun : ∀ {t : Inflater} {rep v : Nat}, Ok src cap t → bitsLeft t ≤ bitsLeft s → 0 < rep → ¬ total < i + rep →
      Safe (Within src cap) (repeatLength lens i rep v >>= fun lens => pure (Sum.inl (i + rep, lens))) t (fun r t =>
        match r with
        | .inl acc' => LengthsTo total acc' ∧ i < acc'.1 ∧ Ok src cap t ∧ bitsLeft t ≤ bitsLeft s
        | .inr lens => Written lens total ∧ Ok src cap t ∧ bitsLeft t ≤ bitsLeft s) := by
    intro t rep v ht hbits hrep hroom
    refine Safe.bind (repeatLength_safe hwritten (by omega)) ?_
    rintro lens' u ⟨rfl, hwritten', hlen'⟩
    exact Safe.pure ⟨⟨by dsimp only []; omega, hlen'.trans hlen, hwritten'⟩, by dsimp only []; omega, ht, hbits⟩
  unfold lengthsStep
  dsimp only []
  by_cases hdone : total ≤ i
  · rw [if_pos hdone]
    exact Safe.pure ⟨hwritten.mono hdone, hs, Nat.le_refl _⟩
  · rw [if_neg hdone]
    refine Safe.bind (huffDecode_safe hu hs) ?_
    rintro sym t ⟨ht, hbits⟩
    by_cases h15 : sym ≤ 15
    · rw [if_pos h15]
      refine Safe.step (Safe.store (by omega) ?_)
      refine Safe.pure ⟨⟨by dsimp only []; omega, ?_, hwritten.push (by omega) sym⟩, Nat.lt_succ_self i, ht, by omega⟩
      dsimp only []
      rw [List.length_set]
      exact hlen
    · rw [if_neg h15]
      by_cases h16 : sym = 16
      · rw [if_pos h16]
        refine Safe.step (Safe.failIf (fun _ => ht.within) fun hfirst => ?_)
        refine Safe.bind (getbits_safe (by decide) ht) ?_
        rintro extra u ⟨hu', hbits', _⟩
        refine Safe.step (Safe.failIf (fun _ => hu'.within) fun hroom => ?_)
        obtain ⟨prev, hprev⟩ := hwritten (i - 1) (by omega)
        refine Safe.step (Safe.fetch hprev ?_)
        exact hrun hu' (by omega) (by omega) hroom
      · rw [if_neg h16]
        by_cases h17 : sym = 17
        · rw [if_pos h17]
          refine Safe.bind (getbits_safe (by decide) ht) ?_
          rintro extra u ⟨hu', hbits', _⟩
          refine Safe.step (Safe.failIf (fun _ => hu'.within) fun hroom => ?_)
          exact hrun hu' (by omega) (by omega) hroom
        · rw [if_neg h17]
          by_cases h18 : sym = 18
          · rw [if_pos h18]
            refine Safe.bind (getbits_safe (by decide) ht) ?_
            rintro extra u ⟨hu', hbits', _⟩
            refine Safe.step (Safe.failIf (fun _ => hu'.within) fun hroom => ?_)
            exact hrun hu' (by omega) (by omega) hroom
          · rw [if_neg h18]
            exact Safe.fail ht.within

theorem lengths_safe {ch : Huffman} {g : Nat → Nat} (hu : Usable ch g) {total : Nat} (htotal : total ≤ maxCodes)
    (hs : Ok src cap s) :
    Safe (Within src cap) (loop (lengthsStep ch total) (total + 1) (0, List.replicate maxCodes none)) s
      (fun lens t => Written lens total ∧ Ok src cap t ∧ bitsLeft t ≤ bitsLeft s) := by
  refine Safe.loop (fun acc t => LengthsTo total acc ∧ Ok src cap t ∧ bitsLeft t ≤ bitsLeft s) (fun acc _ => total - acc.1)
    ?_ ⟨⟨Nat.zero_le _, List.length_replicate, fun i hi => absurd hi (Nat.not_lt_zero i)⟩, hs, Nat.le_refl _⟩ ?_
  · rintro acc t ⟨hacc, ht, hbits⟩
    refine Safe.mono (lengthsStep_safe hu htotal hacc ht) fun r u hr => ?_
    cases r with
    | inl acc' =>
        obtain ⟨hacc', hlt, hu', hbits'⟩ := hr
        have hle := hacc'.1
        exact ⟨⟨hacc', hu', by omega⟩, by omega⟩
    | inr lens =>
        obtain ⟨hlens, hu', hbits'⟩ := hr
        exact ⟨hlens, hu', by omega⟩
  · dsimp only []
    omega

theorem dynamicTables_safe (hs : Ok src cap s) :
    Safe (Within src cap) dynamicTables s (fun r t => (∃ g, Usable r.1 g) ∧ (∃ g, Usable r.2 g) ∧ Ok src cap t ∧
      bitsLeft t ≤ bitsLeft s) := by
  unfold dynamicTables
  refine Safe.bind (getbits_safe (by decide) hs) ?_
  rintro hlit t₁ ⟨ht₁, hbits₁, _⟩
  refine Safe.bind (getbits_safe (by decide) ht₁) ?_
  rintro hdist t₂ ⟨ht₂, hbits₂, _⟩
  refine Safe.bind (getbits_safe (by decide) ht₂) ?_
  rintro hclen t₃ ⟨ht₃, hbits₃, hclen_lt⟩
  dsimp only []
  refine Safe.step (Safe.failIf (fun _ => ht₃.within) fun hsizes => ?_)
  refine Safe.bind (codeLengths_safe (by omega) ht₃) ?_
  rintro clen t₄ ⟨ht₄, hbits₄, hclen⟩
  refine Safe.bind (huffBuild_safe (by unfold maxCodes; omega) fun i hi => (Nat.zero_add i).symm ▸ hclen i hi) ?_
  rintro ⟨rc, ch⟩ t ⟨rfl, g, hch⟩
  refine Safe.step (Safe.failIf (fun _ => ht₄.within) fun _ => ?_)
  refine Safe.bind (lengths_safe hch (by unfold maxCodes; omega) ht₄) ?_
  rintro lens t₅ ⟨hlens, ht₅, hbits₅⟩
  -- the end of a block is among the lengths that are written
  obtain ⟨v, hv⟩ := hlens 256 (by omega)
  refine Safe.step (Safe.fetch hv ?_)
  refine Safe.step (Safe.failIf (fun _ => ht₅.within) fun _ => ?_)
  refine Safe.bind (huffBuild_safe (by unfold maxCodes; omega) fun i hi => hlens (0 + i) (by omega)) ?_
  rintro ⟨rc₁, litlen⟩ t ⟨rfl, hlitlen⟩
  refine Safe.step (Safe.failIf (fun _ => ht₅.within) fun _ => ?_)
  refine Safe.bind (huffBuild_safe (by unfold maxCodes; omega) fun i hi => hlens (hlit + 257 + i) (by omega)) ?_
  rintro ⟨rc₂, dist⟩ t ⟨rfl, hdist⟩
  refine Safe.step (Safe.failIf (fun _ => ht₅.within) fun _ => ?_)
  exact Safe.pure ⟨hlitlen, hdist, ht₅, by omega⟩

/-! ## Blocks -/

theorem putByte_safe {byte : UInt8} (hs : Ok src cap s) (hroom : s.out.length < cap) :
    Safe (Within src cap) (putByte byte) s (fun _ t => Ok src cap t ∧ bitsLeft t = bitsLeft s ∧
      t.out.length = s.out.length + 1) := by
  unfold putByte
  refine Safe.step (Safe.get ?_)
  refine Safe.step (Safe.require (by rw [hs.cap_eq]; exact hroom) ?_)
  have hlen : (s.out ++ [byte]).length = s.out.length + 1 := by simp
  refine Safe.modify ⟨⟨⟨hs.src_eq, hs.cap_eq, hs.pos_le, ?_⟩, hs.bitcnt_lt⟩, rfl, hlen⟩
  show (s.out ++ [byte]).length ≤ cap
  omega

theorem extraBits_safe {n : Nat} (hn : n ≤ 24) (hs : Ok src cap s) :
    Safe (Within src cap) (extraBits n) s (fun _ t => Ok src cap t ∧ bitsLeft t ≤ bitsLeft s) := by
  unfold extraBits
  split
  · exact Safe.pure ⟨hs, Nat.le_refl _⟩
  · refine Safe.mono (getbits_safe hn hs) ?_
    rintro v t ⟨ht, hbits, _⟩
    exact ⟨ht, by omega⟩

/-- The source of a copy is behind its target by a byte at least. -/
theorem copyMatch_safe {srcpos length : Nat} (hs : Ok src cap s) (hsrc : srcpos < s.out.length)
    (hroom : s.out.length + length ≤ cap) :
    Safe (Within src cap) (copyMatch srcpos length) s (fun _ t => Ok src cap t ∧ bitsLeft t = bitsLeft s) := by
  refine Safe.mono (Safe.forLoop (fun k (_ : Unit) t => Ok src cap t ∧ bitsLeft t = bitsLeft s ∧
    t.out.length + srcpos = s.out.length + k) ⟨hs, rfl, rfl⟩ ?_) ?_
  · rintro k _ t hk hk' ⟨ht, hbits, hout⟩
    refine Safe.step (Safe.get ?_)
    refine Safe.step (Safe.index (by omega) ?_)
    refine Safe.mono (putByte_safe ht (by omega)) ?_
    rintro _ u ⟨hu, hbits', hout'⟩
    exact ⟨hu, by omega, by omega⟩
  · rintro _ t ⟨ht, hbits, _⟩
    exact ⟨ht, hbits⟩

theorem codesStep_safe {litlen dist : Huffman} {g g' : Nat → Nat} (hl : Usable litlen g) (hd : Usable dist g')
    (hs : Ok src cap s) :
    Safe (Within src cap) (codesStep litlen dist ()) s (fun _ t => Ok src cap t ∧ bitsLeft t < bitsLeft s) := by
  have hlext : ∀ x ∈ lext, x ≤ 24 := by decide
  have hdext : ∀ x ∈ dext, x ≤ 24 := by decide
  unfold codesStep
  refine Safe.bind (huffDecode_safe hl hs) ?_
  rintro sym t ⟨ht, hbits⟩
  by_cases hbyte : sym < 256
  · rw [if_pos hbyte]
    refine Safe.step (Safe.get ?_)
    refine Safe.step (Safe.failIf (fun _ => ht.within) fun hroom => ?_)
    refine Safe.bind (putByte_safe ht (by rw [ht.cap_eq] at hroom; omega)) ?_
    rintro _ u ⟨hu, hbits', _⟩
    exact Safe.pure ⟨hu, by omega⟩
  · rw [if_neg hbyte]
    by_cases hend : sym = 256
    · rw [if_pos hend]
      exact Safe.pure ⟨ht, hbits⟩
    · rw [if_neg hend]
      by_cases hmatch : 257 ≤ sym ∧ sym ≤ 285
      · rw [if_pos hmatch]
        have hli : sym - 257 < lext.length ∧ sym - 257 < lbase.length := by
          show sym - 257 < 29 ∧ sym - 257 < 29
          omega
        dsimp only []
        refine Safe.step (Safe.index hli.1 ?_)
        refine Safe.bind (extraBits_safe (hlext _ (List.getElem_mem hli.1)) ht) ?_
        rintro extra t₁ ⟨ht₁, hbits₁⟩
        refine Safe.step (Safe.index hli.2 ?_)
        refine Safe.bind (huffDecode_safe hd ht₁) ?_
        rintro dsym t₂ ⟨ht₂, hbits₂⟩
        refine Safe.step (Safe.failIf (fun _ => ht₂.within) fun hdsym => ?_)
        have hdi : dsym < dext.length ∧ dsym < dbase.length := by
          show dsym < 30 ∧ dsym < 30
          omega
        refine Safe.step (Safe.index hdi.1 ?_)
        refine Safe.bind (extraBits_safe (hdext _ (List.getElem_mem hdi.1)) ht₂) ?_
        rintro dextra t₃ ⟨ht₃, hbits₃⟩
        refine Safe.step (Safe.index hdi.2 ?_)
        refine Safe.step (Safe.get ?_)
        refine Safe.step (Safe.failIf (fun _ => ht₃.within) fun hdistance => ?_)
        have hout := ht₃.out_le
        have hcap := ht₃.cap_eq
        refine Safe.step (Safe.sub (by omega) ?_)
        refine Safe.step (Safe.failIf (fun _ => ht₃.within) fun hroom => ?_)
        refine Safe.step (Safe.sub (by omega) ?_)
        refine Safe.bind (copyMatch_safe ht₃ (by omega) (by omega)) ?_
        rintro _ t₄ ⟨ht₄, hbits₄⟩
        exact Safe.pure ⟨ht₄, by omega⟩
      · rw [if_neg hmatch]
        exact Safe.fail ht.within

theorem bitsLeft_lt (hs : Ok src cap s) : bitsLeft s < 8 * src.length + 8 := by
  have hpos := hs.pos_le
  have hcnt := hs.bitcnt_lt
  unfold bitsLeft
  rw [hs.src_eq]
  omega

theorem inflateCodes_safe {litlen dist : Huffman} {g g' : Nat → Nat} (hl : Usable litlen g) (hd : Usable dist g')
    (hs : Ok src cap s) :
    Safe (Within src cap) (inflateCodes litlen dist) s (fun _ t => Ok src cap t ∧ bitsLeft t ≤ bitsLeft s) := by
  unfold inflateCodes
  refine Safe.step (Safe.get ?_)
  refine Safe.loop (fun _ t => Ok src cap t ∧ bitsLeft t ≤ bitsLeft s) (fun _ t => bitsLeft t) ?_ ⟨hs, Nat.le_refl _⟩ ?_
  · rintro _ t ⟨ht, hbits⟩
    refine Safe.mono (codesStep_safe hl hd ht) ?_
    rintro r u ⟨hu, hlt⟩
    cases r with
    | inl _ => exact ⟨⟨hu, by omega⟩, hlt⟩
    | inr _ => exact ⟨hu, by omega⟩
  · rw [hs.src_eq]
    exact bitsLeft_lt hs

theorem storedBlock_safe (hs : Ok src cap s) :
    Safe (Within src cap) storedBlock s (fun _ t => Ok src cap t ∧ bitsLeft t ≤ bitsLeft s) := by
  have hsrc := hs.src_eq
  have hcap := hs.cap_eq
  have hout := hs.out_le
  unfold storedBlock byteAlign
  refine Safe.step (Safe.modify ?_)
  refine Safe.step (Safe.get ?_)
  have hw : Within src cap { s with bitbuf := 0, bitcnt := 0 } := ⟨hs.src_eq, hs.cap_eq, hs.pos_le, hs.out_le⟩
  refine Safe.step (Safe.failIf (fun _ => hw) fun hheader => ?_)
  dsimp only [] at hheader
  refine Safe.step (Safe.index (show s.pos < s.src.length by omega) ?_)
  refine Safe.step (Safe.index (show s.pos + 1 < s.src.length by omega) ?_)
  refine Safe.step (Safe.index (show s.pos + 2 < s.src.length by omega) ?_)
  refine Safe.step (Safe.index (show s.pos + 3 < s.src.length by omega) ?_)
  refine Safe.step (Safe.modify ?_)
  have hw' : Within src cap { s with bitbuf := 0, bitcnt := 0, pos := s.pos + 4 } :=
    ⟨hs.src_eq, hs.cap_eq, by show s.pos + 4 ≤ src.length; rw [← hsrc]; omega, hs.out_le⟩
  refine Safe.step (Safe.failIf (fun _ => hw') fun _ => ?_)
  refine Safe.step (Safe.get ?_)
  refine Safe.step (Safe.sub (show s.out.length ≤ s.outcap by omega) ?_)
  refine Safe.step (Safe.failIf (fun _ => hw') fun hroom => ?_)
  dsimp only [] at hroom
  have hsource := not_lt.mp (not_or.mp hroom).1
  have htarget := not_lt.mp (not_or.mp hroom).2
  refine Safe.step (Safe.require ⟨hsource, by dsimp only []; omega⟩ ?_)
  refine Safe.modify ⟨⟨⟨hsrc, hcap, ?_, ?_⟩, Nat.zero_lt_succ 7⟩, ?_⟩
  · rw [← hsrc]
    exact hsource
  · dsimp only []
    rw [List.length_append, List.length_take]
    omega
  · unfold bitsLeft
    dsimp only []
    omega

theorem block_safe {type : Nat} (hs : Ok src cap s) :
    Safe (Within src cap) (block type) s (fun _ t => Ok src cap t ∧ bitsLeft t ≤ bitsLeft s) := by
  unfold block
  by_cases h0 : type = 0
  · rw [if_pos h0]
    exact storedBlock_safe hs
  · rw [if_neg h0]
    by_cases h1 : type = 1
    · rw [if_pos h1]
      refine Safe.bind fixedTables_safe ?_
      rintro ⟨litlen, dist⟩ t ⟨rfl, ⟨g, hl⟩, g', hd⟩
      exact inflateCodes_safe hl hd hs
    · rw [if_neg h1]
      by_cases h2 : type = 2
      · rw [if_pos h2]
        refine Safe.bind (dynamicTables_safe hs) ?_
        rintro ⟨litlen, dist⟩ t ⟨⟨g, hl⟩, ⟨g', hd⟩, ht, hle⟩
        refine Safe.mono (inflateCodes_safe hl hd ht) ?_
        rintro _ u ⟨hu, hle'⟩
        exact ⟨hu, by omega⟩
      · rw [if_neg h2]
        exact Safe.fail hs.within

/-- Every round takes the bit that marks the final block. -/
theorem blockStep_safe (hs : Ok src cap s) :
    Safe (Within src cap) (blockStep ()) s (fun _ t => Ok src cap t ∧ bitsLeft t < bitsLeft s) := by
  unfold blockStep
  refine Safe.bind (getbits_safe (by decide) hs) ?_
  rintro final t ⟨ht, hbits, _⟩
  refine Safe.bind (getbits_safe (by decide) ht) ?_
  rintro type u ⟨hu, hbits', _⟩
  refine Safe.bind (block_safe hu) ?_
  rintro _ v ⟨hv, hle⟩
  split
  · exact Safe.pure ⟨hv, by omega⟩
  · exact Safe.pure ⟨hv, by omega⟩

end

/-- For every input and every capacity `inflate_raw` ends without a fault, its fuel is enough, and it
ends within the input and the buffer. -/
theorem inflateRaw_safe (src : List UInt8) (cap : Nat) :
    match inflateRaw src cap with
    | .ok written s => written = s.out.length ∧ Within src cap s
    | .error (.code _) s => Within src cap s
    | .error .fault _ => False
    | .error .fuel _ => False := by
  have hstart : Ok src cap ⟨src, 0, 0, 0, [], cap⟩ := ⟨⟨rfl, rfl, Nat.zero_le _, Nat.zero_le _⟩, Nat.zero_lt_succ 7⟩
  have hrun : Safe (Within src cap) (do
      loop blockStep (8 * src.length + 1) ()
      let s ← get
      pure s.out.length) ⟨src, 0, 0, 0, [], cap⟩ (fun written t => written = t.out.length ∧ Within src cap t) := by
    refine Safe.bind (Safe.loop (Q := fun _ t => Within src cap t) (fun _ t => Ok src cap t) (fun _ t => bitsLeft t) ?_
      hstart (Nat.lt_succ_self _)) ?_
    · rintro _ t ht
      refine Safe.mono (blockStep_safe ht) ?_
      rintro r u ⟨hu, hlt⟩
      cases r with
      | inl _ => exact ⟨hu, hlt⟩
      | inr _ => exact hu.within
    · intro _ t ht
      refine Safe.step (Safe.get ?_)
      exact Safe.pure ⟨rfl, ht⟩
  unfold Safe at hrun
  unfold inflateRaw
  split at hrun
  · rename_i h
    rw [h]
    exact hrun
  · rename_i h
    rw [h]
    exact hrun
  · rename_i e t hcode h
    exact hrun.elim

end Guppy.Archive.Inflate
