import Guppy.Block.Number
import Guppy.Block.Regions

set_option autoImplicit false

/-! # The range that options ask for

`gpt_cmd_add_opts` turns `--start` and `--end`, or `--start` and `--size`, into a first and a last
sector. All of it is arithmetic in 64 bits on what the user typed.

A percentage given to `--end` becomes the sector that a following range starts with, since nothing
is subtracted from it; so ranges between increasing percentages overlap in one sector
(`percent_ranges_contiguous_iff`). The end that `--size` asks for is the one of unbounded
arithmetic but for two inputs: a byte count that wraps when it is rounded up, and a percentage
that comes to no sector at the start of the disk (`size_end_exact_iff`).
-/

namespace Guppy.Block

open Vfs Prog

/-! ## From options to a range -/

section Options

variable {parseSize : Text → Option Nat} {k : Disk} {h : GptHdr}

/-- An option begins with `--`. -/
theorem readOpts_dashes {args : List Text} {o o' : AddOpts} (hne : args ≠ []) (ho : readOpts args o = some o') :
    args.any (fun a => a.take 2 = [45, 45]) = true := by
  match args with
  | [] => exact absurd rfl hne
  | [_] => cases ho
  | a :: v :: rest =>
      have ha : a.take 2 = [45, 45] := by
        unfold readOpts at ho
        split_ifs at ho with h₁ h₂ h₃ h₄ h₅
        · rw [h₁]
          rfl
        · rw [h₂]
          rfl
        · rw [h₃]
          rfl
        · rw [h₄]
          rfl
        · rw [h₅]
          rfl
      rw [List.any_cons, decide_eq_true ha, Bool.true_or]

/-- The range of a command with options, from the start and the end that they ask for. -/
theorem addRange_opts {args : List Text} {o : AddOpts} {type name a : Text} {start : SizeSpec} {stop : Nat}
    (ho : readOpts args ⟨none, none, none, none, none⟩ = some o) (htype : o.type = some type)
    (hname : o.name = some name) (ha : o.start = some a)
    (hh : gptReadHeader k 1 (k.size / lsec) = some h) (hstart : parseSizeSpec parseSize a = some start)
    (hstop : rangeEnd parseSize h (startLba h start) o = some stop) :
    addRange parseSize k args =
      if min stop h.lastUsableLba < startLba h start then none
      else some ⟨type, name, startLba h start, min stop h.lastUsableLba⟩ := by
  have hne : args ≠ [] := by
    rintro rfl
    cases ho
    cases htype
  have hend : ¬ (o.size = none ∧ o.stop = none) := by
    rintro ⟨hsize, hno⟩
    unfold rangeEnd at hstop
    rw [hsize, hno] at hstop
    cases hstop
  have hcut : (if h.lastUsableLba < stop then h.lastUsableLba else stop) = min stop h.lastUsableLba := by
    split
    · exact (min_eq_right (by omega)).symm
    · exact (min_eq_left (by omega)).symm
  unfold addRange
  rw [if_pos (readOpts_dashes hne ho), ho, some_bind, htype, some_bind, hname, some_bind, ha, some_bind,
    guard_bind hend, hh, some_bind, hstart, some_bind]
  dsimp only []
  rw [hstop, some_bind, hcut]
  by_cases hlt : min stop h.lastUsableLba < startLba h start
  · rw [if_pos hlt]
    unfold guard
    rw [if_neg (not_not.mpr hlt)]
    rfl
  · rw [if_neg hlt, guard_bind hlt]

/-- The start is cut to the usable area. -/
theorem firstUsable_le_startLba {s : SizeSpec} : h.firstUsableLba ≤ startLba h s := by
  unfold startLba
  dsimp only []
  split_ifs <;> omega

/-- A header that was accepted has its usable area below 2^55. -/
theorem gptReadHeader_lastUsable (hh : gptReadHeader k 1 (k.size / lsec) = some h) :
    h.lastUsableLba < k.size / 512 ∧ k.size / 512 < 36028797018963968 := by
  have hsize := k.size_lt
  unfold uint64 at hsize
  -- LBA 1 was read, so it is on the disk
  have hsector : 1 < k.size / 512 := by
    unfold gptReadHeader at hh
    obtain ⟨sec, hread, -⟩ := Option.bind_eq_some_iff.mp hh
    have hone : 1 * lsec % uint64 = 512 := by decide
    rw [hone] at hread
    unfold Disk.read lsec at hread
    split at hread
    · omega
    · cases hread
  exact ⟨(gptReadHeader_good hsector hh).bounds.2.2.2.2.2.2.1, by omega⟩

end Options

/-! ## Ranges between percentages -/

section Percent

variable {parseSize : Text → Option Nat} {k : Disk} {h : GptHdr}

/-- `"<p>%"` -/
def percentText (p : Nat) : Text := decimal p ++ [37]

/-- `--type <type> --name <name> --start <p>% --end <q>%` -/
def percentArgs (type name : Text) (p q : Nat) : List Text :=
  [optType, type, optName, name, optStart, percentText p, optEnd, percentText q]

theorem strtol_percentText : ∀ p, p ≤ 100 → strtol 10 (percentText p) = ((p : Int), [37]) ∧
    (percentText p).getLast? = some 37 ∧ (percentText p).dropWhile (fun c => c = 32 ∨ c = 9) = percentText p := by
  decide +kernel

theorem parseSizeSpec_percentText {p : Nat} (hp : p ≤ 100) :
    parseSizeSpec parseSize (percentText p) = some ⟨0, p, 0⟩ := by
  obtain ⟨hval, hlast, hdrop⟩ := strtol_percentText p hp
  have hne : percentText p ≠ [] := by
    unfold percentText
    simp
  unfold parseSizeSpec
  rw [if_neg hne, hdrop]
  dsimp only []
  rw [hlast, hval, if_pos ⟨rfl, Int.natCast_nonneg p, by omega⟩, Int.toNat_natCast]
  rfl

/-- The sector at a percentage of the usable area. -/
def sectorAt (h : GptHdr) (p : Nat) : Nat :=
  h.firstUsableLba + (h.lastUsableLba - h.firstUsableLba + 1) * p / 100

theorem sectorAt_mono {p q : Nat} (hpq : p ≤ q) : sectorAt h p ≤ sectorAt h q :=
  Nat.add_le_add_left (Nat.div_le_div_right (Nat.mul_le_mul_left _ hpq)) _

/-- Below 100% the sector is in the usable area. -/
theorem sectorAt_le {p : Nat} (hp : p < 100) (hspan : h.firstUsableLba ≤ h.lastUsableLba) :
    sectorAt h p ≤ h.lastUsableLba := by
  have hmul := Nat.mul_le_mul_left (h.lastUsableLba - h.firstUsableLba + 1) (Nat.le_sub_one_of_lt hp)
  unfold sectorAt
  omega

/-- The range between two percentages ends with the sector at the second one. -/
theorem addRange_percentArgs (hh : gptReadHeader k 1 (k.size / lsec) = some h) {type name : Text} {p q : Nat}
    (hpq : p < q) (hq : q ≤ 100) : addRange parseSize k (percentArgs type name p q) =
      if h.lastUsableLba < h.firstUsableLba then none
      else some ⟨type, name, sectorAt h p, min (sectorAt h q) h.lastUsableLba⟩ := by
  obtain ⟨hlast, h55⟩ := gptReadHeader_lastUsable hh
  have hopts : readOpts (percentArgs type name p q) ⟨none, none, none, none, none⟩ =
      some ⟨some type, some name, some (percentText p), none, some (percentText q)⟩ := rfl
  have hend : rangeEnd parseSize h (startLba h ⟨0, p, 0⟩)
      ⟨some type, some name, some (percentText p), none, some (percentText q)⟩ = some (endLba h ⟨0, q, 0⟩) := by
    show (parseSizeSpec parseSize (percentText q)).map (endLba h) = _
    rw [parseSizeSpec_percentText hq]
    rfl
  rw [addRange_opts hopts rfl rfl rfl hh (parseSizeSpec_percentText (by omega)) hend]
  by_cases hspan : h.lastUsableLba < h.firstUsableLba
  · -- nothing is usable: the start is above the end
    have hstart := firstUsable_le_startLba (h := h) (s := ⟨0, p, 0⟩)
    rw [if_pos hspan, if_pos (by omega)]
  · have hspan64 : spanSectors h.firstUsableLba h.lastUsableLba = h.lastUsableLba - h.firstUsableLba + 1 := by
      unfold spanSectors uint64
      rw [if_pos (by omega), Nat.mod_eq_of_lt (by omega)]
    -- no product of a span and a percentage reaches 2^64
    have hprod : ∀ r, r ≤ 100 →
        (h.firstUsableLba + (h.lastUsableLba - h.firstUsableLba + 1) * r % uint64 / 100) % uint64 =
          sectorAt h r := by
      intro r hr
      have hmul := Nat.mul_le_mul_left (h.lastUsableLba - h.firstUsableLba + 1) hr
      have hdiv := Nat.div_mul_le_self ((h.lastUsableLba - h.firstUsableLba + 1) * r) 100
      unfold sectorAt uint64
      rw [Nat.mod_eq_of_lt (a := (h.lastUsableLba - h.firstUsableLba + 1) * r) (by omega),
        Nat.mod_eq_of_lt (by omega)]
    have hstart : startLba h ⟨0, p, 0⟩ = sectorAt h p := by
      unfold startLba
      dsimp only []
      by_cases hp : p = 0
      · subst hp
        have hzero : sectorAt h 0 = h.firstUsableLba := by
          unfold sectorAt
          simp
        simp only [ne_eq, not_true_eq_false, if_false, Nat.zero_div]
        rw [hzero]
        split <;> omega
      · simp only [ne_eq, not_true_eq_false, if_false, hp, not_false_eq_true, if_true]
        rw [hspan64, hprod p (by omega), if_neg (by unfold sectorAt; omega)]
    have hstop : endLba h ⟨0, q, 0⟩ = sectorAt h q := by
      unfold endLba
      simp only [ne_eq, not_true_eq_false, if_false, show ¬ q = 0 by omega, not_false_eq_true, if_true]
      rw [hspan64, hprod q hq]
    have hmono := sectorAt_mono (h := h) hpq.le
    have hin := sectorAt_le (h := h) (lt_of_lt_of_le hpq hq) (Nat.le_of_not_lt hspan)
    rw [hstart, hstop, if_neg hspan, if_neg (by omega)]

/-- The ranges between one percentage and the next, as far as they are not empty. -/
def percentRanges (parseSize : Text → Option Nat) (k : Disk) (type name : Text) (ps : List Nat) :
    List AddRange :=
  (ps.zip ps.tail).filterMap (fun e => addRange parseSize k (percentArgs type name e.1 e.2))

theorem percentRanges_cons {type name : Text} {p q : Nat} {ps : List Nat} {a : AddRange}
    (ha : addRange parseSize k (percentArgs type name p q) = some a) :
    percentRanges parseSize k type name (p :: q :: ps) = a :: percentRanges parseSize k type name (q :: ps) := by
  unfold percentRanges
  rw [List.tail_cons, List.zip_cons_cons, List.filterMap_cons, ha]
  rfl

/-- Neighbours in an increasing list. -/
theorem zip_tail_lt {ps : List Nat} (hps : ps.Pairwise (· < ·)) : ∀ e ∈ ps.zip ps.tail, e.1 < e.2 ∧ e.2 ∈ ps := by
  induction ps with
  | nil => simp
  | cons p ps ih =>
      cases ps with
      | nil => simp
      | cons q ps =>
          intro e he
          rw [List.tail_cons, List.zip_cons_cons, List.mem_cons] at he
          rcases he with rfl | he
          · exact ⟨List.rel_of_pairwise_cons hps (List.mem_cons_self ..), by simp⟩
          · obtain ⟨hlt, hmem⟩ := ih (List.Pairwise.of_cons hps) e he
            exact ⟨hlt, List.mem_cons_of_mem _ hmem⟩

theorem percentRanges_empty (hh : gptReadHeader k 1 (k.size / lsec) = some h) (type name : Text) {ps : List Nat}
    (hps : ps.Pairwise (· < ·)) (hle : ∀ p ∈ ps, p ≤ 100) (hspan : h.lastUsableLba < h.firstUsableLba) :
    percentRanges parseSize k type name ps = [] := by
  unfold percentRanges
  rw [List.filterMap_eq_nil_iff]
  intro e he
  obtain ⟨hlt, hmem⟩ := zip_tail_lt hps e he
  rw [addRange_percentArgs hh hlt (hle _ hmem), if_pos hspan]

/-- Every range begins right after the one before it, and no two have a sector in common. -/
structure Contiguous (rs : List AddRange) : Prop where
  next : rs.IsChain (fun a b => b.first = a.last + 1)
  apart : rs.Pairwise (fun a b => Span.Apart (a.first, a.last) (b.first, b.last))

theorem contiguous_short {rs : List AddRange} (hlen : rs.length ≤ 1) : Contiguous rs := by
  match rs with
  | [] => exact ⟨List.IsChain.nil, List.Pairwise.nil⟩
  | [a] => exact ⟨List.IsChain.singleton a, List.pairwise_singleton _ a⟩

/-- The ranges between increasing percentages are contiguous only where there is at most one of
them: a range ends with the sector that the next one begins with. -/
theorem percent_ranges_contiguous_iff (hh : gptReadHeader k 1 (k.size / lsec) = some h) (type name : Text)
    {ps : List Nat} (hps : ps.Pairwise (· < ·)) (hle : ∀ p ∈ ps, p ≤ 100) :
    Contiguous (percentRanges parseSize k type name ps) ↔
      ps.length ≤ 2 ∨ h.lastUsableLba < h.firstUsableLba := by
  match ps with
  | [] => exact iff_of_true (contiguous_short (Nat.zero_le _)) (Or.inl (by simp))
  | [p] => exact iff_of_true (contiguous_short (Nat.zero_le _)) (Or.inl (by simp))
  | [p, q] =>
      refine iff_of_true (contiguous_short ?_) (Or.inl (by simp))
      exact List.length_filterMap_le _ _
  | p :: q :: r :: ps =>
      by_cases hspan : h.lastUsableLba < h.firstUsableLba
      · refine iff_of_true (contiguous_short ?_) (Or.inr hspan)
        rw [percentRanges_empty hh type name hps hle hspan]
        exact Nat.zero_le _
      · have hpq : p < q := List.rel_of_pairwise_cons hps (List.mem_cons_self ..)
        have hqr : q < r := List.rel_of_pairwise_cons (List.Pairwise.of_cons hps) (List.mem_cons_self ..)
        have hr : r ≤ 100 := hle r (by simp)
        refine iff_of_false ?_ (by simp [hspan])
        intro hcont
        have hranges : percentRanges parseSize k type name (p :: q :: r :: ps) =
            ⟨type, name, sectorAt h p, min (sectorAt h q) h.lastUsableLba⟩ ::
              ⟨type, name, sectorAt h q, min (sectorAt h r) h.lastUsableLba⟩ ::
              percentRanges parseSize k type name (r :: ps) := by
          have hfirst := @addRange_percentArgs parseSize k h hh type name p q hpq (by omega)
          have hsecond := @addRange_percentArgs parseSize k h hh type name q r hqr hr
          rw [if_neg hspan] at hfirst hsecond
          rw [percentRanges_cons hfirst, percentRanges_cons hsecond]
        -- the second range begins with the last sector of the first one
        have hnext := hcont.next
        rw [hranges, List.isChain_cons_cons] at hnext
        have hin := sectorAt_le (h := h) (lt_of_lt_of_le hqr hr) (Nat.le_of_not_lt hspan)
        have hstep := hnext.1
        dsimp only at hstep
        rw [min_eq_left hin] at hstep
        omega

/-- `linux` and `a` -/
def linuxText : Text := [108, 105, 110, 117, 120]
def nameA : Text := [97]

theorem percent_ranges_contiguous_iff_half :
    Contiguous (percentRanges (fun _ => none) freshDisk linuxText nameA [0, 50]) ↔
      [0, 50].length ≤ 2 ∨ freshPrimary.lastUsableLba < freshPrimary.firstUsableLba :=
  percent_ranges_contiguous_iff freshDisk_gpt.1.primary linuxText nameA (by decide) (by decide)

/-- The halves of the usable sectors 34 to 36 both have sector 35. -/
theorem halves_overlap : percentRanges (fun _ => none) freshDisk linuxText nameA [0, 50, 100] =
      [⟨linuxText, nameA, 34, 35⟩, ⟨linuxText, nameA, 35, 36⟩] ∧
    ¬ Contiguous (percentRanges (fun _ => none) freshDisk linuxText nameA [0, 50, 100]) := by
  obtain ⟨hg, -, -, hlo, hhi⟩ := freshDisk_gpt
  have hrange : ∀ p q, p < q → q ≤ 100 → addRange (fun _ => none) freshDisk (percentArgs linuxText nameA p q) =
      some ⟨linuxText, nameA, 34 + 3 * p / 100, min (34 + 3 * q / 100) 36⟩ := by
    intro p q hpq hq
    rw [addRange_percentArgs hg.primary hpq hq, if_neg (by omega)]
    unfold sectorAt
    rw [hlo, hhi]
  have heq : percentRanges (fun _ => none) freshDisk linuxText nameA [0, 50, 100] =
      [⟨linuxText, nameA, 34, 35⟩, ⟨linuxText, nameA, 35, 36⟩] := by
    rw [percentRanges_cons (hrange 0 50 (by decide) (by decide)),
      percentRanges_cons (hrange 50 100 (by decide) (by decide))]
    rfl
  refine ⟨heq, ?_⟩
  intro hcont
  have hnext := hcont.next
  rw [heq, List.isChain_cons_cons] at hnext
  exact absurd hnext.1 (by decide)

end Percent

/-! ## Sizes -/

deriving instance DecidableEq for SizeSpec

/-- What a `--size` argument denotes: sectors, bytes, or a percentage of what is left. -/
inductive Amount
  | sectors (n : Nat)
  | bytes (n : Nat)
  | percent (p : Nat)
  deriving DecidableEq

namespace Amount

/-- The number of sectors, for a range that starts at `start`. -/
def count (last start : Nat) : Amount → Nat
  | sectors n => n
  | bytes b => (b + 511) / 512
  | percent p => (last + 1 - start) * p / 100

/-- What `parse_size_spec` returns for it. `strtoull` saturates. -/
def spec : Amount → SizeSpec
  | sectors n => ⟨0, 0, min n (uint64 - 1)⟩
  | bytes b => ⟨b, 0, 0⟩
  | percent p => ⟨0, p, 0⟩

/-- The amount is positive, and a byte count has 64 bits. -/
def Positive : Amount → Prop
  | sectors n => 0 < n
  | bytes b => 0 < b ∧ b < uint64
  | percent p => 0 < p ∧ p ≤ 100

/-- Rounding the bytes up does not wrap, or nothing follows the start that could be lost; and a
percentage comes to a sector, or there is one before the start. -/
def Exact (last start : Nat) : Amount → Prop
  | sectors _ => True
  | bytes b => b + 511 < uint64 ∨ last ≤ start
  | percent p => 0 < start ∨ 100 ≤ (last + 1) * p

end Amount

/-- The positive amount that a text denotes, if it does. A number of sectors is as large as the
digits say; a number of bytes is what `parse_size` returns. -/
def denotes (parseSize : Text → Option Nat) (s : Text) : Option Amount :=
  if s = [] then none
  else
    let s := s.dropWhile (fun c => c = 32 ∨ c = 9)
    match s.getLast? with
    | some 37 =>
        let (p, rest) := strtol 10 s
        if rest = [37] ∧ 0 < p ∧ p ≤ 100 then some (.percent p.toNat) else none
    | some 115 | some 83 =>
        match readNumber 10 s with
        | some (false, n, rest) =>
            if (rest = [115] ∨ rest = [83]) ∧ 0 < n then some (.sectors n) else none
        | _ => none
    | _ => (parseSize s).bind (fun b => if 0 < b % uint64 then some (.bytes (b % uint64)) else none)

section Size

variable {parseSize : Text → Option Nat} {k : Disk} {h : GptHdr}

/-- A number without a sign, as `strtoull` returns it. -/
theorem strtoull_saturates {s rest : Text} {n : Nat} (hs : readNumber 10 s = some (false, n, rest)) :
    strtoull 10 s = (min n (uint64 - 1), rest) := by
  unfold strtoull
  rw [hs]
  unfold uint64
  by_cases hn : 18446744073709551616 ≤ n
  · simp only [if_pos hn]
    rw [min_eq_right (by omega)]
  · simp only [if_neg hn]
    rw [min_eq_left (by omega)]
    rfl

/-- The texts that denote an amount: a percentage, a number of sectors, or what `parse_size` reads. -/
theorem denotes_cases {s : Text} {m : Amount} (hs : denotes parseSize s = some m) : s ≠ [] ∧
    ∃ t, t = s.dropWhile (fun c => c = 32 ∨ c = 9) ∧
      ((t.getLast? = some 37 ∧ (strtol 10 t).2 = [37] ∧ 0 < (strtol 10 t).1 ∧ (strtol 10 t).1 ≤ 100 ∧
        m = .percent (strtol 10 t).1.toNat) ∨
      ((t.getLast? = some 115 ∨ t.getLast? = some 83) ∧
        ∃ n rest, readNumber 10 t = some (false, n, rest) ∧ (rest = [115] ∨ rest = [83]) ∧ 0 < n ∧ m = .sectors n) ∨
      ((t.getLast? ≠ some 37 ∧ t.getLast? ≠ some 115 ∧ t.getLast? ≠ some 83) ∧
        ∃ b, parseSize t = some b ∧ 0 < b % uint64 ∧ m = .bytes (b % uint64))) := by
  unfold denotes at hs
  split at hs
  · cases hs
  · rename_i hne
    refine ⟨hne, _, rfl, ?_⟩
    dsimp only [] at hs
    generalize s.dropWhile (fun c => c = 32 ∨ c = 9) = t at hs ⊢
    -- a number of sectors, whichever letter it ends with
    have hsectors : (match readNumber 10 t with
        | some (false, n, rest) =>
            if (rest = [115] ∨ rest = [83]) ∧ 0 < n then some (Amount.sectors n) else none
        | _ => none) = some m →
        ∃ n rest, readNumber 10 t = some (false, n, rest) ∧ (rest = [115] ∨ rest = [83]) ∧ 0 < n ∧ m = .sectors n := by
      intro hs
      split at hs
      · rename_i n rest hnum
        split at hs
        · rename_i hif
          cases hs
          exact ⟨n, rest, hnum, hif.1, hif.2, rfl⟩
        · cases hs
      · cases hs
    split at hs
    · rename_i hlast
      split at hs
      · rename_i hif
        cases hs
        exact Or.inl ⟨hlast, hif.1, hif.2.1, hif.2.2, rfl⟩
      · cases hs
    · rename_i hlast
      exact Or.inr (Or.inl ⟨Or.inl hlast, hsectors hs⟩)
    · rename_i hlast
      exact Or.inr (Or.inl ⟨Or.inr hlast, hsectors hs⟩)
    · rename_i h₁ h₂ h₃
      obtain ⟨b, hb, hm⟩ := Option.bind_eq_some_iff.mp hs
      split at hm
      · rename_i hpos
        cases hm
        exact Or.inr (Or.inr ⟨⟨h₁, h₂, h₃⟩, b, hb, hpos, rfl⟩)
      · cases hm

theorem parseSizeSpec_of_denotes {s : Text} {m : Amount} (hs : denotes parseSize s = some m) :
    m.Positive ∧ parseSizeSpec parseSize s = some m.spec := by
  obtain ⟨hne, t, ht, hcases⟩ := denotes_cases hs
  unfold parseSizeSpec
  rw [if_neg hne, ← ht]
  dsimp only []
  rcases hcases with ⟨hlast, hrest, hpos, hle, rfl⟩ | ⟨hlast, n, rest, hnum, hrest, hpos, rfl⟩ | ⟨hlast, b, hb, hpos, rfl⟩
  · rw [hlast]
    have hpositive : (Amount.percent (strtol 10 t).1.toNat).Positive := ⟨by omega, by omega⟩
    exact ⟨hpositive, if_pos ⟨hrest, by omega, hle⟩⟩
  · rcases hlast with hlast | hlast
    · rw [hlast, strtoull_saturates hnum]
      exact ⟨hpos, if_pos hrest⟩
    · rw [hlast, strtoull_saturates hnum]
      exact ⟨hpos, if_pos hrest⟩
  · refine ⟨⟨hpos, Nat.mod_lt _ (by decide)⟩, ?_⟩
    split
    · exact absurd ‹_› hlast.1
    · exact absurd ‹_› hlast.2.1
    · exact absurd ‹_› hlast.2.2
    · rw [hb]
      rfl

theorem strtoull_lt (base : Nat) (s : Text) : (strtoull base s).1 < uint64 := by
  unfold strtoull uint64
  cases readNumber base s with
  | none => exact (by decide : 0 < 18446744073709551616)
  | some r =>
      obtain ⟨neg, v, rest⟩ := r
      dsimp only []
      split_ifs <;> dsimp only [] <;> omega

/-- What `parse_size_spec` returns has 64 bits. -/
theorem parseSizeSpec_lt {s : Text} {spec : SizeSpec} (hs : parseSizeSpec parseSize s = some spec) :
    spec.sectors < uint64 ∧ spec.bytes < uint64 := by
  have hzero : 0 < uint64 := by decide
  unfold parseSizeSpec at hs
  split at hs
  · cases hs
  · dsimp only [] at hs
    split at hs
    · split at hs
      · cases hs
        exact ⟨hzero, hzero⟩
      · cases hs
    · split at hs
      · cases hs
        exact ⟨strtoull_lt _ _, hzero⟩
      · cases hs
    · split at hs
      · cases hs
        exact ⟨strtoull_lt _ _, hzero⟩
      · cases hs
    · obtain ⟨b, -, rfl⟩ := Option.map_eq_some_iff.mp hs
      exact ⟨hzero, Nat.mod_lt _ hzero⟩

theorem startLba_lt {s : Text} {spec : SizeSpec} (hs : parseSizeSpec parseSize s = some spec) :
    startLba h spec < uint64 := by
  obtain ⟨hsectors, hbytes⟩ := parseSizeSpec_lt hs
  have hfirst : h.firstUsableLba < uint64 := Mem.rd64_lt _ _
  have hdiv := Nat.div_le_self spec.bytes lsec
  have hmod : ∀ n, n % uint64 < uint64 := fun n => Nat.mod_lt n (by decide)
  unfold startLba
  dsimp only []
  split_ifs
  · exact hfirst
  · exact hsectors
  · exact hfirst
  · exact hmod _
  · exact hfirst
  · exact lt_of_le_of_lt hdiv hbytes

section Arithmetic

variable {last start : Nat} (hstart : start < uint64) (hlast : last < 36028797018963968)

include hstart hlast

/-- Counting sectors from the start: a sum that wraps is below the start. -/
theorem sectors_exact {n : Nat} (hn : 0 < n)
    (hle : start ≤ min ((start + min n (uint64 - 1) + uint64 - 1) % uint64) last) :
    ((min ((start + min n (uint64 - 1) + uint64 - 1) % uint64) last : Nat) : Int) =
      min (last : Int) (start + n - 1) := by
  unfold uint64 at *
  omega

theorem bytes_exact_iff {b : Nat} (hb : 0 < b) (h64 : b < uint64) {stop : Nat}
    (hstop : stop = (start + (if (b + 511) % uint64 / 512 ≠ 0 then (b + 511) % uint64 / 512 else 1) +
      uint64 - 1) % uint64) :
    (start ≤ min stop last → ((min stop last : Nat) : Int) = min (last : Int) (start + ((b + 511) / 512 : Nat) - 1)) ↔
      b + 511 < uint64 ∨ last ≤ start := by
  unfold uint64 at *
  by_cases hwrap : b + 511 < 18446744073709551616
  · refine iff_of_true ?_ (Or.inl hwrap)
    rw [Nat.mod_eq_of_lt hwrap, if_pos (by omega)] at hstop
    omega
  · -- the rounded number of sectors is 0, for which the code takes 1
    have hzero : (b + 511) % 18446744073709551616 / 512 = 0 := by omega
    rw [hzero, if_neg (by decide)] at hstop
    omega

theorem percent_exact_iff {p : Nat} (hp : p ≤ 100) {rem stop : Nat}
    (hrem : rem = last + 1 - start) (hstop : stop = (start + rem * p / 100 + uint64 - 1) % uint64) :
    (start ≤ min stop last → ((min stop last : Nat) : Int) = min (last : Int) (start + (rem * p / 100 : Nat) - 1)) ↔
      0 < start ∨ 100 ≤ (last + 1) * p := by
  have hmul := Nat.mul_le_mul_left rem hp
  unfold uint64 at *
  by_cases h0 : start = 0
  · subst h0
    rw [Nat.sub_zero] at hrem
    subst hrem
    generalize (last + 1) * p = n at *
    omega
  · refine iff_of_true ?_ (Or.inl (Nat.pos_of_ne_zero h0))
    generalize rem * p = n at *
    omega

end Arithmetic

theorem sizeLba_bytes {start : Nat} {s : SizeSpec} (hs : s.sectors = 0) (hp : s.pct = 0) :
    sizeLba h start s = (start + (if (s.bytes + 511) % uint64 / 512 ≠ 0 then (s.bytes + 511) % uint64 / 512
      else 1) + uint64 - 1) % uint64 := by
  have hround : s.bytes + 512 - 1 = s.bytes + 511 := by omega
  unfold sizeLba lsec
  rw [if_neg (not_not.mpr hs), if_neg (not_not.mpr hp), hround]

theorem sizeLba_percent {start : Nat} {s : SizeSpec} (hs : s.sectors = 0) (hp : s.pct ≠ 0) :
    sizeLba h start s =
      (start + spanSectors start h.lastUsableLba * s.pct % uint64 / 100 + uint64 - 1) % uint64 := by
  unfold sizeLba
  rw [if_neg (not_not.mpr hs), if_pos hp]

/-- The end that `--size` asks for, in unbounded arithmetic. -/
theorem sizeLba_exact_iff {start : Nat} (hstart : start < uint64)
    (hlast : h.lastUsableLba < 36028797018963968) {m : Amount} (hm : m.Positive) :
    (start ≤ min (sizeLba h start m.spec) h.lastUsableLba →
      ((min (sizeLba h start m.spec) h.lastUsableLba : Nat) : Int) =
        min (h.lastUsableLba : Int) (start + m.count h.lastUsableLba start - 1)) ↔
      m.Exact h.lastUsableLba start := by
  cases m with
  | sectors n =>
      have hn : min n (uint64 - 1) ≠ 0 := by
        have hpos : 0 < n := hm
        unfold uint64
        omega
      have hstop : sizeLba h start (Amount.sectors n).spec =
          (start + min n (uint64 - 1) + uint64 - 1) % uint64 := if_pos hn
      rw [hstop]
      exact iff_of_true (sectors_exact hstart hlast hm) trivial
  | bytes b =>
      have hstop := @sizeLba_bytes h start (Amount.bytes b).spec rfl rfl
      have hbytes : (Amount.bytes b).spec.bytes = b := rfl
      rw [hbytes] at hstop
      exact bytes_exact_iff hstart hlast hm.1 hm.2 hstop
  | percent p =>
      have hp : p ≠ 0 := Nat.pos_iff_ne_zero.mp hm.1
      have hrem : spanSectors start h.lastUsableLba = h.lastUsableLba + 1 - start := by
        unfold spanSectors uint64
        split
        · rw [Nat.mod_eq_of_lt (by omega)]
          omega
        · omega
      have hprod : (h.lastUsableLba + 1 - start) * p < uint64 := by
        have hmul := Nat.mul_le_mul_left (h.lastUsableLba + 1 - start) hm.2
        unfold uint64
        omega
      have hpct : (Amount.percent p).spec.pct = p := rfl
      have hstop := @sizeLba_percent h start (Amount.percent p).spec rfl hp
      rw [hpct, hrem, Nat.mod_eq_of_lt hprod] at hstop
      exact percent_exact_iff hstart hlast hm.2 rfl hstop

/-- With `--start` and a `--size` that denotes a positive amount, `gpt add` passes on the smaller of
the last usable sector and `start + n - 1`, or rejects the command, exactly when rounding does not
wrap and a percentage at sector 0 is not empty. -/
theorem size_end_exact_iff {args : List Text} {type name a z : Text} {start : SizeSpec} {m : Amount}
    (hargs : readOpts args ⟨none, none, none, none, none⟩ = some ⟨some type, some name, some a, some z, none⟩)
    (hh : gptReadHeader k 1 (k.size / lsec) = some h) (ha : parseSizeSpec parseSize a = some start)
    (hz : denotes parseSize z = some m) :
    (∀ r, addRange parseSize k args = some r → r.first = startLba h start ∧
      (r.last : Int) = min (h.lastUsableLba : Int)
        (startLba h start + m.count h.lastUsableLba (startLba h start) - 1)) ↔
      m.Exact h.lastUsableLba (startLba h start) := by
  obtain ⟨hlast, h55⟩ := gptReadHeader_lastUsable hh
  obtain ⟨hm, hspec⟩ := parseSizeSpec_of_denotes hz
  have hstop : rangeEnd parseSize h (startLba h start) ⟨some type, some name, some a, some z, none⟩ =
      some (sizeLba h (startLba h start) m.spec) := by
    unfold rangeEnd
    dsimp only []
    rw [hspec, Option.map_some]
  rw [addRange_opts hargs rfl rfl rfl hh ha hstop,
    ← sizeLba_exact_iff (startLba_lt ha) (lt_trans hlast h55) hm]
  constructor
  · intro hall hle
    have hr := hall _ (if_neg (Nat.not_lt.mpr hle))
    exact hr.2
  · intro hend r hr
    split at hr
    · cases hr
    · rename_i hle
      cases hr
      exact ⟨rfl, hend (Nat.le_of_not_lt hle)⟩

/-- `--type linux --name a --start 34s --size <z>` -/
def sizeArgs (z : Text) : List Text :=
  [optType, linuxText, optName, nameA, optStart, [51, 52, 115], optSize, z]

/-- Two sectors from the first usable one. -/
theorem size_end_exact_iff_two : (∀ r, addRange (fun _ => none) freshDisk (sizeArgs [50, 115]) = some r →
      r.first = startLba freshPrimary ⟨0, 0, 34⟩ ∧ (r.last : Int) = min (freshPrimary.lastUsableLba : Int)
        (startLba freshPrimary ⟨0, 0, 34⟩ + (Amount.sectors 2).count freshPrimary.lastUsableLba
          (startLba freshPrimary ⟨0, 0, 34⟩) - 1)) ↔
      (Amount.sectors 2).Exact freshPrimary.lastUsableLba (startLba freshPrimary ⟨0, 0, 34⟩) := by
  have hopts : readOpts (sizeArgs [50, 115]) ⟨none, none, none, none, none⟩ =
      some ⟨some linuxText, some nameA, some [51, 52, 115], some [50, 115], none⟩ := rfl
  have hstart : parseSizeSpec (fun _ => none) [51, 52, 115] = some ⟨0, 0, 34⟩ := by decide +kernel
  have hsize : denotes (fun _ => none) [50, 115] = some (.sectors 2) := by decide +kernel
  exact size_end_exact_iff hopts freshDisk_gpt.1.primary hstart hsize

/-- `"18446744073709551614"`, for which `parse_size` returns 2^64 - 2. -/
def hugeText : Text :=
  [49, 56, 52, 52, 54, 55, 52, 52, 48, 55, 51, 55, 48, 57, 53, 53, 49, 54, 49, 52]

def parseHuge (s : Text) : Option Nat := if s = hugeText then some 18446744073709551614 else none

/-- A size of 2^55 sectors becomes a partition of one sector, where two more are usable. -/
theorem huge_size_one_sector : denotes parseHuge hugeText = some (.bytes 18446744073709551614) ∧
    addRange parseHuge freshDisk (sizeArgs hugeText) = some ⟨linuxText, nameA, 34, 34⟩ ∧
    ¬ (34 : Int) = min (freshPrimary.lastUsableLba : Int)
      (34 + (Amount.bytes 18446744073709551614).count freshPrimary.lastUsableLba 34 - 1) := by
  obtain ⟨hg, -, -, hlo, hhi⟩ := freshDisk_gpt
  have hspec : parseSizeSpec parseHuge hugeText = some ⟨18446744073709551614, 0, 0⟩ := by decide +kernel
  have hspec₀ : parseSizeSpec parseHuge [51, 52, 115] = some ⟨0, 0, 34⟩ := by decide +kernel
  have hstart : startLba freshPrimary ⟨0, 0, 34⟩ = 34 := by
    unfold startLba
    rw [hlo]
    rfl
  -- 2^64 - 2 and 511 is 509 in 64 bits
  have hsize : sizeLba freshPrimary 34 ⟨18446744073709551614, 0, 0⟩ = 34 := by
    unfold sizeLba
    simp only [ne_eq, not_true_eq_false, if_false]
    norm_num [uint64, lsec]
  have hend : rangeEnd parseHuge freshPrimary 34 ⟨some linuxText, some nameA, some [51, 52, 115], some hugeText, none⟩ =
      some 34 := by
    show (parseSizeSpec parseHuge hugeText).map (sizeLba freshPrimary 34) = some 34
    rw [hspec, Option.map_some, hsize]
  have hcount : (Amount.bytes 18446744073709551614).count 36 34 = 36028797018963968 := by
    norm_num [Amount.count]
  have hopts : readOpts (sizeArgs hugeText) ⟨none, none, none, none, none⟩ =
      some ⟨some linuxText, some nameA, some [51, 52, 115], some hugeText, none⟩ := rfl
  rw [← hstart] at hend
  refine ⟨by decide +kernel, ?_, ?_⟩
  · rw [addRange_opts hopts rfl rfl rfl hg.primary hspec₀ hend, hstart, hhi]
    rfl
  · rw [hhi, hcount]
    norm_num

end Size

end Guppy.Block
