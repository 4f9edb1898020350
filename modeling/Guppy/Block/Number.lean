import Guppy.Block.Layout

set_option autoImplicit false

/-! # Partition numbers

`gpt add` reports the slot of the new entry, `gpt print` counts the used entries, and the
partition scan counts the entries it takes in the order of their first sectors. The first two
agree on every GPT disk, since `gpt add` takes the first free slot. The third agrees as long as
every added range begins above the entries in the slots before its own and below those in the
slots after it.
-/

namespace Guppy.Block

open Vfs Prog

/-! ## `gpt print` -/

/-- A line that `gpt print` prints, before it is formatted. -/
structure PrintRow where
  idx : Nat
  first : Nat
  last : Nat
  blks : Nat
  type : Text
  name : Text

/-- `from_utf16le`, for the name of the entry at an offset. -/
def fromUtf16le (ents : Mem) (o : Nat) : Text :=
  (((List.range 36).map (fun i => ents.rd16 (o + 2 * i))).takeWhile (fun c => c ≠ 0)).map
    (fun c => UInt8.ofNat c)

/-- `"unknown"`, `"linuxfs"`, `"biosboot"` or `"msbasic"`. -/
def typeLabel (guid : Text) : Text :=
  if guid = typeLinuxfs then [108, 105, 110, 117, 120, 102, 115]
  else if guid = typeBiosboot then [98, 105, 111, 115, 98, 111, 111, 116]
  else if guid = typeMsBasic then [109, 115, 98, 97, 115, 105, 99]
  else [117, 110, 107, 110, 111, 119, 110]

/-- The line for the entry in slot `i`. -/
def printRow (ents : Mem) (size idx i : Nat) : PrintRow :=
  let first := entFirstLba ents (i * size)
  let last := entLastLba ents (i * size)
  { idx := idx
    first := first
    last := last
    blks := if first ≤ last then (last - first + 1) % uint64 else 0
    type := typeLabel (ents.toList (i * size) 16)
    name := fromUtf16le ents (i * size + 56) }

/-- The loop of `gpt_cmd_print` over the slots `i`, `i + 1`, ... -/
def gptPrintFrom (ents : Mem) (size : Nat) : (count i idx : Nat) → List PrintRow
  | 0, _, _ => []
  | count + 1, i, idx =>
      if entEmpty ents (i * size) = true then gptPrintFrom ents size count (i + 1) idx
      else printRow ents size idx i :: gptPrintFrom ents size count (i + 1) (idx + 1)

/-- `gpt_cmd_print`: the lines of the table, when there is a GPT and its entries are read. -/
def gptCmdPrint (k : Disk) : Option (List PrintRow) := do
  let h ← gptReadHeader k 1 (k.size / lsec)
  let ents ← gptReadEntries k h
  some (gptPrintFrom ents h.entrySize h.numEntries 0 1)

section Print

variable {ents : Mem} {size : Nat}

/-- The used slots from `i` on, below `j`. -/
def usedCount (ents : Mem) (size i j : Nat) : Nat := (List.range' i (j - i)).countP (usedAt ents size)

/-- Every line is for a used slot, and counts the used slots before it. -/
theorem mem_gptPrintFrom {row : PrintRow} (count : Nat) : ∀ {i idx : Nat},
    row ∈ gptPrintFrom ents size count i idx ↔
      ∃ j, i ≤ j ∧ j < i + count ∧ usedAt ents size j = true ∧
        row = printRow ents size (idx + usedCount ents size i j) j := by
  induction count with
  | zero =>
      intro i idx
      simp only [gptPrintFrom, List.not_mem_nil, false_iff, not_exists]
      rintro j ⟨h₁, h₂, -⟩
      omega
  | succ count ih =>
      intro i idx
      have hstep : ∀ {j : Nat}, i + 1 ≤ j → usedCount ents size i j =
          (if usedAt ents size i then 1 else 0) + usedCount ents size (i + 1) j := by
        intro j hj
        unfold usedCount
        obtain ⟨n, rfl⟩ : ∃ n, j = i + 1 + n := ⟨j - (i + 1), by omega⟩
        rw [show i + 1 + n - i = n + 1 by omega, show i + 1 + n - (i + 1) = n by omega,
          List.range'_succ, List.countP_cons, Nat.add_comm]
      unfold gptPrintFrom
      by_cases hempty : entEmpty ents (i * size) = true
      · have hunused : usedAt ents size i = false := by simp [usedAt, hempty]
        rw [if_pos hempty, ih]
        constructor
        · rintro ⟨j, h₁, h₂, hused, rfl⟩
          refine ⟨j, by omega, by omega, hused, ?_⟩
          rw [hstep h₁, hunused]
          simp
        · rintro ⟨j, h₁, h₂, hused, rfl⟩
          have hne : j ≠ i := by
            rintro rfl
            rw [hunused] at hused
            cases hused
          have hj : i + 1 ≤ j := by omega
          refine ⟨j, hj, by omega, hused, ?_⟩
          rw [hstep hj, hunused]
          simp
      · have hisused : usedAt ents size i = true := by simpa [usedAt] using hempty
        rw [if_neg hempty, List.mem_cons, ih]
        constructor
        · rintro (rfl | ⟨j, h₁, h₂, hused, rfl⟩)
          · exact ⟨i, le_refl _, by omega, hisused, by simp [usedCount]⟩
          · refine ⟨j, by omega, by omega, hused, ?_⟩
            rw [hstep h₁, hisused, if_pos rfl, Nat.add_assoc]
        · rintro ⟨j, h₁, h₂, hused, rfl⟩
          by_cases hj : j = i
          · subst hj
            exact Or.inl (by simp [usedCount])
          · refine Or.inr ⟨j, by omega, by omega, hused, ?_⟩
            rw [hstep (by omega), hisused, if_pos rfl, Nat.add_assoc]

/-- A slot with none but used slots before it. -/
theorem usedCount_full {j : Nat} (h : ∀ i, i < j → usedAt ents size i = true) :
    usedCount ents size 0 j = j := by
  unfold usedCount
  rw [List.countP_eq_length.mpr, List.length_range', Nat.sub_zero]
  intro i hi
  exact h i (by simpa using hi)

end Print

/-! ## The order of the scan -/

/-- The scan takes the entry in slot `i`. -/
def seenAt (total : Nat) (ents : Mem) (size i : Nat) : Bool :=
  usedAt ents size i && decide ((spanAt ents size i).1 ≤ (spanAt ents size i).2) &&
    decide (total = 0 ∨ (spanAt ents size i).2 < total)

section Scan

variable {ents : Mem} {size total : Nat}

/-- The scan takes the first entries that it can take, at most 128. -/
theorem scanGptFrom_eq (count : Nat) : ∀ {i : Nat} {found : List Span}, found.length ≤ maxParts →
    scanGptFrom ents size total count i found =
      (found ++ ((List.range' i count).filter (seenAt total ents size)).map (spanAt ents size)).take
        maxParts := by
  induction count with
  | zero =>
      intro i found hlen
      simp [scanGptFrom, List.take_of_length_le hlen]
  | succ count ih =>
      intro i found hlen
      unfold scanGptFrom
      dsimp only []
      rw [List.range'_succ, List.filter_cons]
      by_cases hroom : found.length < maxParts
      · rw [if_pos hroom]
        have hseen : (entEmpty ents (i * size) = true ∨
            entLastLba ents (i * size) < entFirstLba ents (i * size) ∨
            (total ≠ 0 ∧ total ≤ entLastLba ents (i * size))) ↔ seenAt total ents size i = false := by
          unfold seenAt usedAt spanAt
          cases entEmpty ents (i * size) with
          | true => simp
          | false => simp; omega
        by_cases hs : seenAt total ents size i = true
        · rw [if_neg (fun h => by rw [hseen.mp h] at hs; cases hs), if_pos hs,
            ih (by rw [List.length_append, List.length_singleton]; omega), List.map_cons,
            List.append_assoc]
          rfl
        · have hs : seenAt total ents size i = false := by simpa using hs
          rw [if_pos (hseen.mpr hs), if_neg (by rw [hs]; decide), ih hlen]
      · rw [if_neg hroom, List.take_append_of_le_length (by omega), List.take_of_length_le hlen]

/-! ### Sorting -/

theorem sortInner_least (l : List Span) : ∀ x : Span, (sortInner x l).1.1 ≤ x.1 ∧
    ∀ y ∈ (sortInner x l).2, (sortInner x l).1.1 ≤ y.1 := by
  induction l with
  | nil =>
      intro x
      exact ⟨le_refl _, by simp [sortInner]⟩
  | cons z zs ih =>
      intro x
      unfold sortInner
      by_cases hz : z.1 < x.1
      · rw [if_pos hz]
        obtain ⟨h₁, h₂⟩ := ih z
        refine ⟨le_trans h₁ (le_of_lt hz), ?_⟩
        intro y hy
        rcases List.mem_cons.mp hy with rfl | hy
        · exact le_trans h₁ (le_of_lt hz)
        · exact h₂ y hy
      · rw [if_neg hz]
        obtain ⟨h₁, h₂⟩ := ih x
        refine ⟨h₁, ?_⟩
        intro y hy
        rcases List.mem_cons.mp hy with rfl | hy
        · exact le_trans h₁ (Nat.le_of_not_lt hz)
        · exact h₂ y hy

theorem sortPairs_sorted (fuel : Nat) : ∀ l : List Span, l.length ≤ fuel →
    (sortPairs fuel l).Pairwise (fun a b => a.1 ≤ b.1) := by
  induction fuel with
  | zero =>
      intro l hl
      rw [List.length_eq_zero_iff.mp (Nat.le_zero.mp hl)]
      exact List.Pairwise.nil
  | succ fuel ih =>
      intro l hl
      cases l with
      | nil => exact List.Pairwise.nil
      | cons x xs =>
          have hlen := (sortInner_perm xs x).length_eq
          rw [List.length_cons, List.length_cons] at hlen
          rw [List.length_cons] at hl
          refine List.Pairwise.cons ?_ (ih _ (by omega))
          intro y hy
          exact (sortInner_least xs x).2 y ((sortPairs_perm fuel _).mem_iff.mp hy)

/-- In a sorted list, the entries with a key below a bound are the first ones. -/
theorem sorted_lt_iff {l : List Span} (h : l.Pairwise (fun a b => a.1 ≤ b.1)) {n b : Nat} :
    ∀ {y : Span}, l[n]? = some y → (y.1 < b ↔ n < l.countP (fun z => z.1 < b)) := by
  induction l generalizing n with
  | nil =>
      intro y hy
      simp at hy
  | cons x xs ih =>
      intro y hy
      obtain ⟨hx, hxs⟩ := List.pairwise_cons.mp h
      rw [List.countP_cons]
      cases n with
      | zero =>
          rw [List.getElem?_cons_zero, Option.some.injEq] at hy
          subst hy
          by_cases hb : x.1 < b
          · simp [hb]
          · -- then no entry is below the bound
            have hnone : xs.countP (fun z => decide (z.1 < b)) = 0 := by
              rw [List.countP_eq_zero]
              intro z hz
              have := hx z hz
              simp only [decide_eq_true_eq]
              omega
            simp [hb, hnone]
      | succ n =>
          rw [List.getElem?_cons_succ] at hy
          rw [ih hxs hy]
          by_cases hb : x.1 < b
          · simp [hb]
          · have hnone : xs.countP (fun z => decide (z.1 < b)) = 0 := by
              rw [List.countP_eq_zero]
              intro z hz
              have := hx z hz
              simp only [decide_eq_true_eq]
              omega
            simp [hb, hnone]

/-- The place of an entry among sorted ones, when exactly `n` of them begin before it. -/
theorem sortPairs_place {before after : List Span} {x : Span} (hbefore : ∀ y ∈ before, y.1 < x.1)
    (hafter : ∀ y ∈ after, x.1 < y.1) {m : Nat} {y : Span} {l : List Span}
    (hl : l = before ++ x :: after) :
    ((sortPairs l.length l)[m]? = some y ∧ y.1 = x.1) ↔ (m = before.length ∧ y = x) := by
  have hperm := sortPairs_perm l.length l
  have hsorted := sortPairs_sorted l.length l (le_refl _)
  have hcount : ∀ b : Nat, (sortPairs l.length l).countP (fun z => z.1 < b) =
      l.countP (fun z => z.1 < b) := fun b => hperm.countP_eq _
  have hlt : l.countP (fun z => z.1 < x.1) = before.length := by
    rw [hl, List.countP_append, List.countP_cons]
    have h₁ : before.countP (fun z => decide (z.1 < x.1)) = before.length :=
      List.countP_eq_length.mpr (fun z hz => by simpa using hbefore z hz)
    have h₂ : after.countP (fun z => decide (z.1 < x.1)) = 0 :=
      List.countP_eq_zero.mpr (fun z hz => by have := hafter z hz; simp; omega)
    rw [h₁, h₂]
    simp
  have hle : l.countP (fun z => z.1 < x.1 + 1) = before.length + 1 := by
    rw [hl, List.countP_append, List.countP_cons]
    have h₁ : before.countP (fun z => decide (z.1 < x.1 + 1)) = before.length :=
      List.countP_eq_length.mpr (fun z hz => by have := hbefore z hz; simp; omega)
    have h₂ : after.countP (fun z => decide (z.1 < x.1 + 1)) = 0 :=
      List.countP_eq_zero.mpr (fun z hz => by have := hafter z hz; simp; omega)
    rw [h₁, h₂]
    simp
  have hunique : ∀ y ∈ l, y.1 = x.1 → y = x := by
    intro y hy heq
    rw [hl] at hy
    rcases List.mem_append.mp hy with hy | hy
    · have := hbefore y hy
      omega
    · rcases List.mem_cons.mp hy with hy | hy
      · exact hy
      · have := hafter y hy
        omega
  constructor
  · rintro ⟨hget, heq⟩
    have h₁ := @sorted_lt_iff _ hsorted m x.1 y hget
    have h₂ := @sorted_lt_iff _ hsorted m (x.1 + 1) y hget
    rw [hcount, hlt] at h₁
    rw [hcount, hle] at h₂
    refine ⟨by omega, hunique y (hperm.mem_iff.mp (List.mem_of_getElem? hget)) heq⟩
  · rintro ⟨rfl, rfl⟩
    have hlen : before.length < (sortPairs l.length l).length := by
      rw [hperm.length_eq, hl, List.length_append, List.length_cons]
      omega
    obtain ⟨z, hz⟩ : ∃ z, (sortPairs l.length l)[before.length]? = some z :=
      ⟨_, List.getElem?_eq_getElem hlen⟩
    have h₁ := @sorted_lt_iff _ hsorted before.length y.1 z hz
    have h₂ := @sorted_lt_iff _ hsorted before.length (y.1 + 1) z hz
    rw [hcount, hlt] at h₁
    rw [hcount, hle] at h₂
    rw [hz, hunique z (hperm.mem_iff.mp (List.mem_of_getElem? hz)) (by omega)]
    exact ⟨rfl, rfl⟩

end Scan

/-! ### The scan of a GPT disk -/

section Found

variable {k : Disk} {hp hb : GptHdr} {ents : Mem} {io : Diskio} {dev : Vblk}

/-- The slots of a protective MBR. -/
theorem scanMbrFrom_gpt {mbr : Mem} {fuel : Nat}
    (h : ∀ i, i < 4 → (∀ j, j < i → slotUnused mbr j) → slotUnused mbr i ∨ slotType mbr i = 0xEE)
    (count : Nat) : ∀ {i : Nat}, i + count = 4 → (∀ j, j < i → slotUnused mbr j) →
      scanMbrFrom io dev fuel mbr count i [] = some (.parts []) ∨
        scanMbrFrom io dev fuel mbr count i [] = some .protective := by
  induction count with
  | zero =>
      intro i _ _
      exact Or.inl rfl
  | succ count ih =>
      intro i hi hbefore
      unfold scanMbrFrom
      by_cases hunused : slotUnused mbr i
      · have hall : ∀ j, j < i + 1 → slotUnused mbr j := by
          intro j hj
          rcases Nat.lt_or_eq_of_le (Nat.le_of_lt_succ hj) with hj | rfl
          · exact hbefore j hj
          · exact hunused
        rw [if_pos (show slotType mbr i = 0 ∨ slotCount mbr i = 0 from hunused)]
        exact ih (by omega) hall
      · rcases h i (by omega) hbefore with hu | hee
        · exact absurd hu hunused
        · rw [if_neg (show ¬ (slotType mbr i = 0 ∨ slotCount mbr i = 0) from hunused), if_pos hee]
          exact Or.inr rfl

/-- The scanner accepts the primary header of a GPT disk. -/
theorem GptDisk.validate (hg : GptDisk k hp hb ents) :
    gptValidateAt (alone k) (aloneDev k) (k.size / 512) 1 = some hp := by
  obtain ⟨⟨h₁, h₂, -⟩, -⟩ := hg.areas
  have hround := Nat.div_mul_le_self k.size 512
  have hsize := k.size_lt
  obtain ⟨hfit, hents, hsum⟩ := gptReadEntries_some hg.entries (le_trans h₂ hround)
  obtain ⟨hsig, hslice, hfields, hdrbuf, hbuf, hcrc⟩ :=
    gptReadHeader_sector (by omega) hg.primary rfl
  rw [hg.length.1] at hbuf hcrc
  have hbuf' : gptHdrBuf (alone k) (aloneDev k) 1 (k.bytes.slice (1 * 512) 512) 92 = some hdrbuf := by
    rw [← hbuf]
    exact (if_pos (by omega)).trans (if_pos (by omega)).symm
  have hread : vblkReadBytes (alone k) (aloneDev k) (hp.entriesLba * 512) hp.arrayBytes = some ents := by
    rw [hents]
    exact aloneDev_readBytes h₂ (Nat.pos_of_ne_zero hfit.1)
  have hfits : gptEntriesFit hp (k.size / 512) = true := by
    unfold gptEntriesFit lsec
    dsimp only []
    rw [decide_eq_true_eq]
    refine ⟨hfit.1, hfit.2, Or.inr ?_⟩
    have hlt : hp.entriesLba * 512 + hp.numEntries * hp.entrySize < uint64 :=
      lt_of_le_of_lt (le_trans h₂ hround) hsize
    rw [Nat.mod_eq_of_lt hlt, Nat.mod_eq_of_lt (lt_of_le_of_lt hround hsize)]
    exact h₂
  unfold GptHdr.arrayBytes at hread hsum
  unfold gptValidateAt
  rw [aloneDev_readBlock (by omega), some_bind, guard_bind hsig, hslice]
  dsimp only []
  rw [guard_bind hfields, hg.length.1, hbuf', some_bind, guard_bind hcrc, guard_bind hfits,
    @mul_lsec_mod k _ hp.arrayBytes (le_trans h₂ hround), hread, some_bind, guard_bind hsum]

/-- The partitions that a scan of a GPT disk finds. -/
theorem GptDisk.findPartitions (hg : GptDisk k hp hb ents)
    (hsame : SameReads io dev (alone k) (aloneDev k)) (fuel : Nat) :
    findPartitions io dev fuel = some ((((List.range' 0 hp.numEntries).filter
      (seenAt (k.size / 512) ents hp.entrySize)).map (spanAt ents hp.entrySize)).take maxParts, gptKind) := by
  obtain ⟨⟨h₁, h₂, -⟩, -⟩ := hg.areas
  have hround := Nat.div_mul_le_self k.size 512
  obtain ⟨hfit, hents, -⟩ := gptReadEntries_some hg.entries (le_trans h₂ hround)
  have hgpt : scanGpt io dev (k.size / 512) = (((List.range' 0 hp.numEntries).filter
      (seenAt (k.size / 512) ents hp.entrySize)).map (spanAt ents hp.entrySize)).take maxParts := by
    have hread : vblkReadBytes io dev (hp.entriesLba * lsec % uint64) (hp.numEntries * hp.entrySize) =
        some ents := by
      rw [hsame.bytes, @mul_lsec_mod k _ hp.arrayBytes (le_trans h₂ hround), hents]
      exact aloneDev_readBytes h₂ (Nat.pos_of_ne_zero hfit.1)
    unfold scanGpt gptHeader
    rw [hsame.validate, hg.validate]
    dsimp only []
    rw [hread]
    dsimp only []
    rw [scanGptFrom_eq _ (by simp), List.nil_append]
  have hmbr : scanMbr io dev fuel = some (.parts []) ∨ scanMbr io dev fuel = some .protective := by
    unfold scanMbr
    rw [hsame.block, aloneDev_readBlock (by omega)]
    dsimp only []
    rw [Nat.zero_mul]
    rcases hg.mbr with hsig | hslots
    · rw [if_pos hsig]
      exact Or.inl rfl
    · split
      · exact Or.inl rfl
      · exact scanMbrFrom_gpt hslots 4 rfl (fun j hj => absurd hj (Nat.not_lt_zero j))
  unfold Block.findPartitions
  dsimp only []
  rw [hsame.size, aloneDev_total]
  rcases hmbr with hmbr | hmbr
  · rw [hmbr, some_bind, hgpt]
  · rw [hmbr, some_bind, hgpt]

end Found

/-! ### Children -/

/-- The slots of a registry that new entries can take. -/
def roomIn (reg : Registry) : Nat := reg.countP (fun e => e.name = []) + (vblkMax - reg.length)

/-- A new name is registered when there is room: nothing that has a name goes. -/
theorem vblkRegister_room {reg : Registry} {c : Vblk} (hc : c.name ≠ [])
    (hnew : ∀ e ∈ reg, e.name ≠ c.name) (hroom : 0 < roomIn reg) :
    ∃ reg', vblkRegister reg c = some reg' ∧ c ∈ reg' ∧ (∀ e ∈ reg, e.name ≠ [] → e ∈ reg') ∧
      (∀ e ∈ reg', e ∈ reg ∨ e = c) ∧ roomIn reg' + 1 = roomIn reg ∧
      ∀ (i : Nat) (e : Vblk), reg[i]? = some e → e.name ≠ [] → reg'[i]? = some e := by
  have hnone : findByName reg c.name = none := by
    rw [findByName_none_iff hc]
    intro i e he
    exact hnew e (List.mem_of_getElem? he)
  unfold vblkRegister
  rw [if_neg hc, hnone]
  dsimp only []
  cases hidx : reg.findIdx? (fun e => e.name = []) with
  | some i =>
      obtain ⟨hi, hfree, -⟩ := List.findIdx?_eq_some_iff_getElem.mp hidx
      have hfree : reg[i].name = [] := by simpa using hfree
      have hkeep : ∀ (j : Nat) (e : Vblk), reg[j]? = some e → e.name ≠ [] → (reg.set i c)[j]? = some e := by
        intro j e he hne
        have hij : i ≠ j := by
          rintro rfl
          rw [List.getElem?_eq_getElem hi, Option.some.injEq] at he
          rw [← he] at hne
          exact hne hfree
        rw [List.getElem?_set_ne hij]
        exact he
      refine ⟨_, rfl, List.mem_set hi c, ?_, fun e he => List.mem_or_eq_of_mem_set he, ?_, hkeep⟩
      · intro e he hne
        obtain ⟨j, hj⟩ := List.getElem?_of_mem he
        exact List.mem_of_getElem? (hkeep j e hj hne)
      · have hpos : 0 < reg.countP (fun e => decide (e.name = [])) :=
          List.countP_pos_iff.mpr ⟨reg[i], List.getElem_mem hi, by simpa using hfree⟩
        unfold roomIn
        rw [List.countP_set hi, List.length_set]
        simp only [hfree, hc, decide_true, decide_false, if_true, Bool.false_eq_true, if_false]
        omega
  | none =>
      have hfull : reg.countP (fun e => decide (e.name = [])) = 0 := by
        rw [List.countP_eq_zero]
        intro e he
        have := List.findIdx?_eq_none_iff.mp hidx e he
        simpa using this
      unfold roomIn at hroom
      rw [hfull] at hroom
      dsimp only []
      rw [if_neg (by omega)]
      refine ⟨_, rfl, by simp, fun e he _ => List.mem_append_left _ he, by simp, ?_, ?_⟩
      · unfold roomIn
        rw [List.countP_append, hfull, List.length_append, List.countP_singleton, List.length_singleton]
        simp only [hc, decide_false, Bool.false_eq_true, if_false]
        omega
      · intro i e he _
        rw [List.getElem?_append_left (List.getElem?_eq_some_iff.mp he).1]
        exact he

/-- With room for all of them every span gets its child. -/
theorem registerChildren_room {slot : Nat} {name kind : Text} {p : Vblk} (hname : name ≠ [])
    (hshort : name.length ≤ 28) (hp : p.name = name) (spans : List Span)
    (hspans : ∀ s ∈ spans, s.1 ≤ s.2) : ∀ {nth : Nat} {reg : Registry}, reg[slot]? = some p →
      nth + spans.length ≤ 1000 → spans.length ≤ roomIn reg →
      (∀ e ∈ reg, ∀ m, nth ≤ m → e.name ≠ name ++ decimal m) →
      (∀ e ∈ reg, e.name ≠ [] → e ∈ registerChildren slot name kind nth spans reg) ∧
      ∀ i s, spans[i]? = some s →
        childOf p name (nth + i) s kind ∈ registerChildren slot name kind nth spans reg := by
  induction spans with
  | nil =>
      intro nth reg _ _ _ _
      exact ⟨fun e he _ => he, by simp⟩
  | cons span spans ih =>
      intro nth reg hslot hlen hroom hfresh
      rw [List.length_cons] at hlen hroom
      have hget : reg.getD slot Vblk.empty = p := by
        rw [List.getD_eq_getElem?_getD, hslot, Option.getD_some]
      have hle : span.1 ≤ span.2 := hspans span (List.mem_cons_self ..)
      have hcname : (childOf p name nth span kind).name = name ++ decimal nth := by
        have := @decimal_length nth (by omega)
        exact List.take_of_length_le (by rw [List.length_append]; omega)
      have hne : (childOf p name nth span kind).name ≠ [] := by
        rw [hcname]
        simp [hname]
      obtain ⟨reg', hreg, hmem, hkeep, hold, hless, hslots⟩ := vblkRegister_room hne
        (fun e he => by rw [hcname]; exact hfresh e he nth (le_refl _)) (by omega)
      have hstep : registerChild slot name kind nth span reg = reg' := by
        unfold registerChild
        rw [if_neg (by omega), hget, hreg, Option.getD_some]
      have hfresh' : ∀ e ∈ reg', ∀ m, nth + 1 ≤ m → e.name ≠ name ++ decimal m := by
        intro e he m hm heq
        rcases hold e he with h | rfl
        · exact hfresh e h m (by omega) heq
        · rw [hcname] at heq
          have := decimal_injective (List.append_cancel_left heq)
          omega
      obtain ⟨hkept, hall⟩ := @ih (fun s hs => hspans s (List.mem_cons_of_mem _ hs)) (nth + 1) reg'
        (hslots slot p hslot (by rw [hp]; exact hname)) (by omega) (by omega) hfresh'
      unfold registerChildren
      rw [hstep]
      refine ⟨fun e he hn => hkept e (hkeep e he hn) hn, ?_⟩
      intro i s hs
      cases i with
      | zero =>
          cases hs
          exact hkept _ hmem hne
      | succ i =>
          have := hall i s hs
          rwa [Nat.add_assoc, Nat.add_comm 1 i] at this

/-! ## Numbers that agree -/

/-- What `gpt add` reports: the number of the entry and its range. -/
structure Report where
  number : Nat
  span : Span

/-- A device that stands for the sectors of a range. -/
def Vblk.IsFor (c : Vblk) (span : Span) : Prop := c.lbaStart = span.1 ∧ c.lbaSize = span.2 - span.1 + 1

/-- `gpt print` lists the reported range, and under the reported number only. -/
def PrintsAs (k : Disk) (r : Report) : Prop :=
  ∃ rows, gptCmdPrint k = some rows ∧ (∃ row ∈ rows, (row.first, row.last) = r.span) ∧
    ∀ row ∈ rows, (row.first, row.last) = r.span → row.idx = r.number

/-- On whatever registry the disk `k` is scanned, and under whatever name that leaves room for
three digits, every new child for the reported range is the parent's name followed by the
reported number; and there is one, if the registry has room for 128 children. -/
def ScansAs (k : Disk) (r : Report) : Prop :=
  ∀ io reg devname slot fuel, devname ≠ [] → devname.length ≤ 28 →
    mapFind io devname = some k → findByName reg devname = some slot →
    reg[slot]? = some (wholeDisk devname k.size) →
    ∃ reg', diskScanPartitions io reg devname fuel = some reg' ∧
      (∀ c ∈ reg', c ∉ vblkRemoveChildren reg devname → c.IsFor r.span →
        c.partIndex = r.number ∧ c.name = devname ++ decimal r.number) ∧
      (maxParts ≤ roomIn (vblkRemoveChildren reg devname) →
        ∃ c ∈ reg', c ∉ vblkRemoveChildren reg devname ∧ c.IsFor r.span)

/-- The entry in slot `idx` has its place in the order: the scan takes the entries in all slots
before it, and they begin below it; those that it takes in later slots begin above it. -/
structure Stands (total : Nat) (ents : Mem) (size num idx : Nat) : Prop where
  slot : idx < num
  scanned : idx < maxParts
  seen : seenAt total ents size idx = true
  before : ∀ i, i < idx → seenAt total ents size i = true ∧ (spanAt ents size i).1 < (spanAt ents size idx).1
  after : ∀ i, idx < i → i < num → seenAt total ents size i = true →
    (spanAt ents size idx).1 < (spanAt ents size i).1

section Stands

variable {k : Disk} {hp hb : GptHdr} {ents : Mem} {total size num idx : Nat}

theorem seenAt_used {i : Nat} (h : seenAt total ents size i = true) : usedAt ents size i = true := by
  unfold seenAt at h
  simp only [Bool.and_eq_true] at h
  exact h.1.1

theorem seenAt_order {i : Nat} (h : seenAt total ents size i = true) :
    (spanAt ents size i).1 ≤ (spanAt ents size i).2 ∧ (total = 0 ∨ (spanAt ents size i).2 < total) := by
  unfold seenAt at h
  simp only [Bool.and_eq_true, decide_eq_true_eq] at h
  exact ⟨h.1.2, h.2⟩

theorem seenAt_congr {ents' : Mem} {i : Nat} (hused : usedAt ents' size i = usedAt ents size i)
    (hspan : spanAt ents' size i = spanAt ents size i) :
    seenAt total ents' size i = seenAt total ents size i := by
  unfold seenAt
  rw [hused, hspan]

/-- No other used slot has the range of an entry that stands in its place. -/
theorem Stands.unique (h : Stands total ents size num idx) {j : Nat} (hj : j < num)
    (hused : usedAt ents size j = true) (hspan : spanAt ents size j = spanAt ents size idx) : j = idx := by
  have hseen : seenAt total ents size j = true := by
    have hself := h.seen
    unfold seenAt at hself ⊢
    rw [hspan, hused]
    rw [seenAt_used h.seen] at hself
    exact hself
  rcases Nat.lt_trichotomy j idx with hlt | heq | hgt
  · have := (h.before j hlt).2
    rw [hspan] at this
    omega
  · exact heq
  · have := h.after j hgt hj hseen
    rw [hspan] at this
    omega

theorem Stands.prints (hg : GptDisk k hp hb ents)
    (h : Stands (k.size / 512) ents hp.entrySize hp.numEntries idx) :
    PrintsAs k ⟨idx + 1, spanAt ents hp.entrySize idx⟩ := by
  have hcount : usedCount ents hp.entrySize 0 idx = idx :=
    usedCount_full (fun i hi => seenAt_used (h.before i hi).1)
  refine ⟨gptPrintFrom ents hp.entrySize hp.numEntries 0 1, ?_, ?_, ?_⟩
  · unfold gptCmdPrint
    rw [hg.primary, some_bind, hg.entries, some_bind]
  · exact ⟨_, (mem_gptPrintFrom _).mpr ⟨idx, by omega, by have := h.slot; omega, seenAt_used h.seen, rfl⟩, rfl⟩
  · intro row hrow hspan
    obtain ⟨j, -, hj, hused, rfl⟩ := (mem_gptPrintFrom _).mp hrow
    obtain rfl : j = idx := h.unique (by omega) hused hspan
    show 1 + usedCount ents hp.entrySize 0 j = j + 1
    rw [hcount, Nat.add_comm]

/-- What the scan finds, around the entry in slot `idx`. -/
theorem Stands.found (h : Stands total ents size num idx) :
    ∃ after, (((List.range' 0 num).filter (seenAt total ents size)).map (spanAt ents size)).take maxParts =
        (List.range' 0 idx).map (spanAt ents size) ++ spanAt ents size idx :: after ∧
      ∀ y ∈ after, (spanAt ents size idx).1 < y.1 := by
  have hslot := h.slot
  have hscanned := h.scanned
  have hsplit : List.range' 0 num = List.range' 0 idx ++ idx :: List.range' (idx + 1) (num - (idx + 1)) := by
    rw [← List.range'_succ, show num - (idx + 1) + 1 = num - idx by omega]
    have := @List.range'_append 0 idx (num - idx) 1
    rw [Nat.one_mul, Nat.zero_add] at this
    rw [this]
    congr 1
    omega
  have hfirst : (List.range' 0 idx).filter (seenAt total ents size) = List.range' 0 idx := by
    rw [List.filter_eq_self]
    intro i hi
    exact (h.before i (by simpa using hi)).1
  refine ⟨(((List.range' (idx + 1) (num - (idx + 1))).filter (seenAt total ents size)).map
    (spanAt ents size)).take (maxParts - (idx + 1)), ?_, ?_⟩
  · rw [hsplit, List.filter_append, hfirst, List.filter_cons, if_pos h.seen, List.map_append, List.map_cons,
      List.take_append, List.length_map, List.length_range',
      List.take_of_length_le (by rw [List.length_map, List.length_range']; omega),
      show maxParts - idx = maxParts - (idx + 1) + 1 by omega, List.take_succ_cons]
  · intro y hy
    obtain ⟨i, hi, rfl⟩ := List.mem_map.mp (List.mem_of_mem_take hy)
    obtain ⟨hrange, hseen⟩ := List.mem_filter.mp hi
    rw [List.mem_range'_1] at hrange
    exact h.after i (by omega) (by omega) hseen

theorem isChildName_append (name : Text) (n : Nat) : isChildName name (name ++ decimal n) = true := by
  rw [isChildName_iff]
  exact ⟨decimal n, rfl, decimal_ne_nil n, decimal_digits n⟩

/-- A name with digits behind that of a disk is gone from the cleaned registry. -/
theorem removeChildren_fresh {reg : Registry} {name : Text} (hname : name ≠ []) {e : Vblk}
    (he : e ∈ vblkRemoveChildren reg name) (n : Nat) : e.name ≠ name ++ decimal n := by
  unfold vblkRemoveChildren at he
  rw [if_neg hname] at he
  obtain ⟨f, -, rfl⟩ := List.mem_map.mp he
  intro heq
  split at heq
  · have hnil : name ++ decimal n = [] := heq.symm
    exact hname (List.append_eq_nil_iff.mp hnil).1
  · rename_i hno
    rw [heq, isChildName_append] at hno
    exact hno rfl

theorem Stands.scans (hg : GptDisk k hp hb ents)
    (h : Stands (k.size / 512) ents hp.entrySize hp.numEntries idx) :
    ScansAs k ⟨idx + 1, spanAt ents hp.entrySize idx⟩ := by
  intro io reg devname slot fuel hne hshort hmap hslot hdev
  have htake : devname.take 31 = devname := List.take_of_length_le (by omega)
  have hsame := @wholeDisk_sameReads io devname k hne (by rw [htake]; exact hmap)
  have hkept : (vblkRemoveChildren reg devname)[slot]? = some (wholeDisk devname k.size) := by
    refine removeChildren_kept hne hdev ?_
    show isChildName devname (devname.take 31) = false
    rw [htake]
    exact isChildName_self devname
  obtain ⟨after, hfound, hafter⟩ := h.found
  have hfind := hg.findPartitions hsame fuel
  rw [hfound] at hfind
  have hbefore : ∀ y ∈ (List.range' 0 idx).map (spanAt ents hp.entrySize),
      y.1 < (spanAt ents hp.entrySize idx).1 := by
    intro y hy
    obtain ⟨i, hi, rfl⟩ := List.mem_map.mp hy
    exact (h.before i (by simpa using hi)).2
  have hplace := fun {m : Nat} {y : Span} => @sortPairs_place _ _ (spanAt ents hp.entrySize idx) hbefore
    hafter m y _ rfl
  rw [List.length_map, List.length_range'] at hplace
  generalize hspans : (List.range' 0 idx).map (spanAt ents hp.entrySize) ++
    spanAt ents hp.entrySize idx :: after = spans at hplace hfind hfound
  have hscan : diskScanPartitions io reg devname fuel = some (registerChildren slot devname gptKind 1
      (sortPairs spans.length spans) (vblkRemoveChildren reg devname)) := by
    unfold diskScanPartitions
    rw [hslot]
    dsimp only []
    rw [List.getD_eq_getElem?_getD, hkept, Option.getD_some, hfind]
    rfl
  have hself := seenAt_order h.seen
  have hsize := k.size_lt
  have h64 : k.size / 512 ≠ 0 := by
    obtain ⟨⟨h₁, -⟩, -⟩ := hg.areas
    omega
  have hend : ∀ p n, (childOf p devname n (spanAt ents hp.entrySize idx) gptKind).IsFor
      (spanAt ents hp.entrySize idx) := by
    intro p n
    exact @childOf_makes k p devname gptKind n _ hself.1 (by omega)
  have hdigits : (decimal (idx + 1)).length ≤ 3 := by
    have := h.scanned
    unfold maxParts at this
    exact decimal_length (by omega)
  have hname : ∀ p s, (childOf p devname (idx + 1) s gptKind).name = devname ++ decimal (idx + 1) := by
    intro p s
    exact List.take_of_length_le (by rw [List.length_append]; omega)
  refine ⟨_, hscan, ?_, ?_⟩
  · intro c hc hnew hfor
    rcases registerChildren_mem _ ⟨_, hkept, rfl⟩ hc with hold | ⟨p, i, span, hp', hget, hle, rfl⟩
    · exact absurd hold hnew
    · obtain ⟨rfl, -⟩ := hplace.mp ⟨hget, hfor.1⟩
      rw [Nat.add_comm 1 i]
      exact ⟨rfl, hname p span⟩
  · intro hroom
    have hperm := sortPairs_perm spans.length spans
    have hlen : spans.length ≤ maxParts := by
      rw [← hfound, List.length_take]
      exact Nat.min_le_left _ _
    have hmem : ∀ s ∈ sortPairs spans.length spans, s.1 ≤ s.2 := by
      intro s hs
      have hs := hperm.mem_iff.mp hs
      rw [← hfound] at hs
      obtain ⟨i, hi, rfl⟩ := List.mem_map.mp (List.mem_of_mem_take hs)
      exact (seenAt_order (List.mem_filter.mp hi).2).1
    have hchild := (@registerChildren_room slot devname gptKind _ hne hshort
      (show (wholeDisk devname k.size).name = devname from htake) _ hmem 1 _ hkept
      (by rw [hperm.length_eq]; unfold maxParts at hlen; omega) (by rw [hperm.length_eq]; omega)
      (fun e he m _ => removeChildren_fresh hne he m)).2 idx _ (hplace.mpr ⟨rfl, rfl⟩).1
    refine ⟨_, hchild, ?_, hend _ _⟩
    intro hin
    refine removeChildren_fresh hne hin (idx + 1) ?_
    rw [Nat.add_comm 1 idx]
    exact hname _ _

end Stands

/-! ## Runs -/

/-- The type, the name and the range that a `gpt add` command asks for. -/
structure AddRange where
  type : Text
  name : Text
  first : Nat
  last : Nat

/-- What `cmd_gpt` passes on to `gpt_add_by_range`, for either form of its arguments. -/
def addRange (parseSize : Text → Option Nat) (k : Disk) (args : List Text) : Option AddRange :=
  if args.any (fun a => a.take 2 = [45, 45]) then do
    let o ← readOpts args ⟨none, none, none, none, none⟩
    let type ← o.type
    let name ← o.name
    let startS ← o.start
    guard (¬ (o.size = none ∧ o.stop = none))
    let h ← gptReadHeader k 1 (k.size / lsec)
    let spec ← parseSizeSpec parseSize startS
    let start := startLba h spec
    let stop ← rangeEnd parseSize h start o
    let stop := if h.lastUsableLba < stop then h.lastUsableLba else stop
    guard (¬ stop < start)
    some ⟨type, name, start, stop⟩
  else
    match args with
    | type :: name :: first :: last :: _ => some ⟨type, name, (strtoull 0 first).1, (strtoull 0 last).1⟩
    | _ => none

/-- The last line that a successful `gpt add` prints. -/
def addReport (parseSize : Text → Option Nat) (k : Disk) (args : List Text) : Option Report := do
  let r ← addRange parseSize k args
  let p ← placeRange k r.first r.last
  some ⟨p.idx + 1, p.span⟩

/-- The runs of successful `gpt add` commands, each meeting a condition on the disk before it,
with what they report. -/
inductive AddRun (parseSize : Text → Option Nat) (cond : Disk → List Text → Prop) (s : GptState) :
    List Report → GptState → Prop
  | start : AddRun parseSize cond s [] s
  | add {rs : List Report} {t u : GptState} {args : List Text} {r : Report} :
      AddRun parseSize cond s rs t → cond t.disk args → cmdGptAdd parseSize args t = .ok () u →
      addReport parseSize t.disk args = some r → AddRun parseSize cond s (rs ++ [r]) u

/-- The range that is asked for, cut to the usable area, begins above the entries in the slots
before the first free one, all of which the scan takes, and below those that it takes in later
slots; and the free slot is one of the first 128. -/
def InOrder (parseSize : Text → Option Nat) (k : Disk) (args : List Text) : Prop :=
  ∀ hp ents idx r, gptReadHeader k 1 (k.size / lsec) = some hp → gptReadEntries k hp = some ents →
    freeEntry ents hp = some idx → addRange parseSize k args = some r →
    idx < maxParts ∧
    (∀ i, i < idx → seenAt (k.size / lsec) ents hp.entrySize i = true ∧
      (spanAt ents hp.entrySize i).1 < max r.first hp.firstUsableLba) ∧
    ∀ i, idx < i → i < hp.numEntries → seenAt (k.size / lsec) ents hp.entrySize i = true →
      max r.first hp.firstUsableLba < (spanAt ents hp.entrySize i).1

section Runs

variable {parseSize : Text → Option Nat} {s t : GptState} {args : List Text}

/-- A command is the range it asks for. -/
theorem cmdGptAdd_range (h : cmdGptAdd parseSize args s = .ok () t) :
    ∃ r, addRange parseSize s.disk args = some r ∧ gptAddByRange r.type r.name r.first r.last s = .ok () t := by
  unfold cmdGptAdd at h
  unfold addRange
  split at h
  · rename_i hopts
    rw [if_pos hopts]
    unfold gptCmdAddOpts at h
    obtain ⟨o, s₁, ha, h⟩ := bind_ok_iff.mp h
    obtain ⟨ho, hs⟩ := ask_ok_iff.mp ha
    obtain rfl : s = s₁ := hs.symm
    obtain ⟨type, s₁, ha, h⟩ := bind_ok_iff.mp h
    obtain ⟨htype, hs⟩ := ask_ok_iff.mp ha
    obtain rfl : s = s₁ := hs.symm
    obtain ⟨name, s₁, ha, h⟩ := bind_ok_iff.mp h
    obtain ⟨hname, hs⟩ := ask_ok_iff.mp ha
    obtain rfl : s = s₁ := hs.symm
    obtain ⟨startS, s₁, ha, h⟩ := bind_ok_iff.mp h
    obtain ⟨hstart, hs⟩ := ask_ok_iff.mp ha
    obtain rfl : s = s₁ := hs.symm
    obtain ⟨_, s₁, hf, h⟩ := bind_ok_iff.mp h
    obtain ⟨hsome, hs⟩ := failIf_ok_iff.mp hf
    obtain rfl : s = s₁ := hs.symm
    obtain ⟨hp, s₁, ha, h⟩ := bind_ok_iff.mp h
    obtain ⟨hhdr, hs⟩ := ask_ok_iff.mp ha
    obtain rfl : s = s₁ := hs.symm
    obtain ⟨spec, s₁, ha, h⟩ := bind_ok_iff.mp h
    obtain ⟨hspec, hs⟩ := ask_ok_iff.mp ha
    obtain rfl : s = s₁ := hs.symm
    obtain ⟨stop, s₁, ha, h⟩ := bind_ok_iff.mp h
    obtain ⟨hstop, hs⟩ := ask_ok_iff.mp ha
    obtain rfl : s = s₁ := hs.symm
    obtain ⟨_, s₁, hf, h⟩ := bind_ok_iff.mp h
    obtain ⟨hle, hs⟩ := failIf_ok_iff.mp hf
    obtain rfl : s = s₁ := hs.symm
    rw [ho, some_bind, htype, some_bind, hname, some_bind, hstart, some_bind, guard_bind hsome, hhdr,
      some_bind, hspec, some_bind]
    dsimp only []
    rw [hstop, some_bind, guard_bind hle]
    exact ⟨_, rfl, h⟩
  · rename_i hopts
    rw [if_neg hopts]
    split at h
    · exact ⟨_, rfl, h⟩
    · exact absurd h throw_ne_ok

/-- A slot that stands keeps its place when an entry is added above it, and the new entry stands
in its own. -/
theorem Adds.stands {k k' : Disk} {hp hb : GptHdr} {ents ents' : Mem} {p : Placement}
    (h : Adds k k' hp hb ents ents' p) (hgood : GoodHdr k hp 1) (hmax : p.idx < maxParts)
    (hbefore : ∀ i, i < p.idx → seenAt (k.size / 512) ents hp.entrySize i = true ∧
      (spanAt ents hp.entrySize i).1 < p.span.1)
    (hafter : ∀ i, p.idx < i → i < hp.numEntries → seenAt (k.size / 512) ents hp.entrySize i = true →
      p.span.1 < (spanAt ents hp.entrySize i).1) :
    Stands (k.size / 512) ents' hp.entrySize hp.numEntries p.idx ∧
      ∀ idx, Stands (k.size / 512) ents hp.entrySize hp.numEntries idx →
        Stands (k.size / 512) ents' hp.entrySize hp.numEntries idx ∧
          spanAt ents' hp.entrySize idx = spanAt ents hp.entrySize idx := by
  obtain ⟨hslot, hunused, -⟩ := freeEntry_iff.mp h.free
  have hsame : ∀ i, i ≠ p.idx → seenAt (k.size / 512) ents' hp.entrySize i =
      seenAt (k.size / 512) ents hp.entrySize i :=
    fun i hi => seenAt_congr (h.other i hi).1 (h.other i hi).2
  have hspan := h.span
  have hnew : seenAt (k.size / 512) ents' hp.entrySize p.idx = true := by
    have husable := hgood.bounds.2.2.2.2.2.2.1
    have hle := h.usable
    unfold seenAt
    rw [h.used, hspan]
    simp only [Bool.true_and, Bool.and_eq_true, decide_eq_true_eq]
    exact ⟨h.order, Or.inr (lt_of_le_of_lt hle husable)⟩
  refine ⟨⟨hslot, hmax, hnew, ?_, ?_⟩, ?_⟩
  · intro i hi
    have hne : i ≠ p.idx := by omega
    rw [hsame i hne, (h.other i hne).2, hspan]
    exact hbefore i hi
  · intro i hi hn hseen
    have hne : i ≠ p.idx := by omega
    rw [hsame i hne] at hseen
    rw [(h.other i hne).2, hspan]
    exact hafter i hi hn hseen
  · intro idx hidx
    -- the slots up to `idx` are used, so the free one comes later
    have hlt : idx < p.idx := by
      by_contra hge
      rcases Nat.lt_or_eq_of_le (Nat.le_of_not_lt hge) with hlt | heq
      · rw [seenAt_used (hidx.before _ hlt).1] at hunused
        cases hunused
      · rw [heq, seenAt_used hidx.seen] at hunused
        cases hunused
    have hself := h.other idx (by omega)
    refine ⟨⟨hidx.slot, hidx.scanned, ?_, ?_, ?_⟩, hself.2⟩
    · rw [hsame idx (by omega)]
      exact hidx.seen
    · intro i hi
      have hne : i ≠ p.idx := by omega
      rw [hsame i hne, (h.other i hne).2, hself.2]
      exact hidx.before i hi
    · intro i hi hn hseen
      rw [hself.2]
      by_cases hne : i = p.idx
      · rw [hne, hspan]
        exact (hbefore idx hlt).2
      · rw [hsame i hne] at hseen
        rw [(h.other i hne).2]
        exact hidx.after i hi hn hseen

theorem AddRun.single {cond : Disk → List Text → Prop} {r : Report} (hcond : cond s.disk args)
    (hcmd : cmdGptAdd parseSize args s = .ok () t) (hrep : addReport parseSize s.disk args = some r) :
    AddRun parseSize cond s [r] t := AddRun.add AddRun.start hcond hcmd hrep

/-- What holds along a run of commands that are in order: the disk has a GPT, and every reported
entry stands in the slot it was reported for. -/
theorem AddRun.stands {rs : List Report} (hg : ∃ hp hb ents, GptDisk s.disk hp hb ents)
    (hrun : AddRun parseSize (InOrder parseSize) s rs t) :
    ∃ hp hb ents, GptDisk t.disk hp hb ents ∧ ∀ r ∈ rs, ∃ idx, r.number = idx + 1 ∧
      r.span = spanAt ents hp.entrySize idx ∧
      Stands (t.disk.size / 512) ents hp.entrySize hp.numEntries idx := by
  induction hrun with
  | start =>
      obtain ⟨hp, hb, ents, hg⟩ := hg
      exact ⟨hp, hb, ents, hg, by simp⟩
  | @add rs t u args r _ hcond hcmd hrep ih =>
      obtain ⟨hp, hb, ents, hg, hstand⟩ := ih
      obtain ⟨range, hrange, hadd⟩ := cmdGptAdd_range hcmd
      obtain ⟨p, ents', hplace, hadds⟩ := gptAddByRange_adds hg hadd
      obtain ⟨hmax, hbefore, hafter⟩ := hcond hp ents p.idx range hg.primary hg.entries hadds.free hrange
      have hfirst : max range.first hp.firstUsableLba = p.span.1 := by
        rw [hg.placeRange, hadds.free, Option.map_some, Option.some.injEq] at hplace
        rw [← hplace]
      rw [hfirst] at hbefore hafter
      obtain ⟨hnew, hold⟩ := hadds.stands hg.good.1 hmax hbefore hafter
      have hr : r = ⟨p.idx + 1, p.span⟩ := by
        unfold addReport at hrep
        rw [hrange, some_bind, hplace, some_bind, Option.some.injEq] at hrep
        exact hrep.symm
      refine ⟨_, _, ents', hadds.disk, ?_⟩
      rw [hadds.size, sealHdr_entrySize, sealHdr_numEntries]
      intro q hq
      rcases List.mem_append.mp hq with hq | hq
      · obtain ⟨idx, hnum, hspan, hst⟩ := hstand q hq
        obtain ⟨hst', hsame⟩ := hold idx hst
        exact ⟨idx, hnum, by rw [hsame, hspan], hst'⟩
      · rw [List.mem_singleton] at hq
        subst hq
        rw [hr]
        exact ⟨p.idx, rfl, hadds.span.symm, hnew⟩

end Runs

/-! ## A fresh disk -/

/-- A table of the shape that `gpt init` makes, on a disk with a protective MBR. -/
theorem Tables.gptDisk {k : Disk} {hp hb : GptHdr} {ents guid : Mem} (h : Tables k hp hb ents guid)
    (hmbr : GptMbr (k.bytes.slice 0 512)) : GptDisk k hp hb ents := by
  have h68 := h.sectors
  have hbytes : hp.arrayBytes = 16384 := h.primary.bytes
  have hareas : gptAreas hp hb = [(0, 512), (512, 512), (1024, 16384), ((k.size / 512 - 1) * 512, 512),
      ((k.size / 512 - 33) * 512, 16384)] := by
    unfold gptAreas
    rw [hbytes, h.primary.entriesLba, h.primary.backupLba, h.backup.entriesLba]
  constructor
  · exact h.readPrimary
  · rw [h.primary.backupLba]
    exact h.readBackup
  · exact h.readEntries.1
  · exact ⟨h.primary.headerSize, h.backup.headerSize⟩
  · exact ⟨h.primary.currentLba, h.backup.currentLba.trans h.primary.backupLba.symm⟩
  · exact ⟨h.backup.numEntries.trans h.primary.numEntries.symm,
      h.backup.entrySize.trans h.primary.entrySize.symm⟩
  · rw [hareas]
    generalize k.size / 512 = total at h68 ⊢
    simp only [List.forall_mem_cons]
    refine ⟨by omega, by omega, by omega, by omega, by omega, by simp⟩
  · rw [hareas]
    generalize k.size / 512 = total at h68 ⊢
    simp only [List.pairwise_cons, List.forall_mem_cons, Area.Apart]
    refine ⟨⟨by omega, by omega, by omega, by omega, by simp⟩, ⟨by omega, by omega, by omega, by simp⟩,
      ⟨by omega, by omega, by simp⟩, ⟨by omega, by simp⟩, by simp, by simp⟩
  · exact hmbr

/-- Writing both copies leaves the MBR alone. -/
theorem withCopies_mbr {k : Disk} {hp hb : GptHdr} {ents : Mem} (h68 : 68 ≤ k.size / 512) :
    (withCopies k hp hb ents).bytes.slice 0 512 = k.bytes.slice 0 512 := by
  have hEB : entriesBytes = 16384 := rfl
  unfold withCopies copyBytes
  dsimp only []
  generalize k.size / 512 = total at h68 ⊢
  rw [Mem.slice_write_out (by omega), Mem.slice_write_out (by omega), Mem.slice_write_out (by omega),
    Mem.slice_write_out (by omega)]

/-- A disk of 70 sectors with nothing but a protective MBR. -/
def protectiveDisk : Disk :=
  ⟨35840, true, (((Mem.zero.wr8 450 0xEE).wr32 454 1).wr32 458 69).wr16 510 0xAA55, by decide⟩

def freshPrimary : GptHdr := sealHdr (freshHeader 70 Mem.zero) Mem.zero

def freshBackup : GptHdr :=
  sealHdr (((freshPrimary.wr64 24 69).wr64 32 1).wr64 72 (70 - 1 - entriesSectors)) Mem.zero

/-- The same disk with an empty table. -/
def freshDisk : Disk := withCopies protectiveDisk freshPrimary freshBackup Mem.zero

/-- The disk, with `time` and `rand` returning zero. -/
def freshState : GptState := ⟨freshDisk, fun _ => 0⟩

theorem freshDisk_gpt : GptDisk freshDisk freshPrimary freshBackup Mem.zero ∧
    freshPrimary.numEntries = 128 ∧ freshPrimary.entrySize = 128 ∧ freshPrimary.firstUsableLba = 34 ∧
    freshPrimary.lastUsableLba = 36 := by
  have hfp := (@freshHeader_fields 70 Mem.zero (by decide)).update Mem.zero
  have hfb := (hfp.1.toBackup (by decide)).update Mem.zero
  have htables := @tables_of_copies protectiveDisk freshPrimary freshBackup Mem.zero _ rfl (by decide)
    hfp.1 hfb.1 hfp.2 hfb.2 (entsOk_zero _ _) (fun _ _ => rfl)
  refine ⟨htables.gptDisk ?_, hfp.1.numEntries, hfp.1.entrySize, hfp.1.firstUsableLba, hfp.1.lastUsableLba⟩
  rw [withCopies_mbr (by decide)]
  right
  intro i hi hbefore
  cases i with
  | zero => exact Or.inr (by decide)
  | succ i =>
      have hslot : ¬ (slotType (protectiveDisk.bytes.slice 0 512) 0 = 0 ∨
          slotCount (protectiveDisk.bytes.slice 0 512) 0 = 0) := by decide
      exact absurd (hbefore 0 (by omega)) hslot

/-- `gpt add <dev> linux a 36 36` and `gpt add <dev> linux a 34 34` -/
def addHigh : List Text := [[108, 105, 110, 117, 120], [97], [51, 54], [51, 54]]
def addLow : List Text := [[108, 105, 110, 117, 120], [97], [51, 52], [51, 52]]

theorem usedAt_zero (size i : Nat) : usedAt Mem.zero size i = false := by
  unfold usedAt
  rw [entEmpty_zero]
  rfl

/-- `gpt add` of one sector in the usable area, at a free place. -/
theorem addLinux_run {s : GptState} {hp hb : GptHdr} {ents : Mem} (hg : GptDisk s.disk hp hb ents)
    (hw : s.disk.writable = true) {args : List Text} {lba idx : Nat}
    (hargs : ∀ parseSize k, addRange parseSize k args = some ⟨[108, 105, 110, 117, 120], [97], lba, lba⟩)
    (hcmd : ∀ parseSize, cmdGptAdd parseSize args = gptAddByRange [108, 105, 110, 117, 120] [97] lba lba)
    (hlo : hp.firstUsableLba ≤ lba) (hhi : lba ≤ hp.lastUsableLba)
    (hclear : ∀ i, i < hp.numEntries → usedAt ents hp.entrySize i = true →
      (spanAt ents hp.entrySize i).2 < lba ∨ lba < (spanAt ents hp.entrySize i).1)
    (hfree : freeEntry ents hp = some idx) :
    ∃ s' ents', cmdGptAdd (fun _ => none) args s = .ok () s' ∧
      addReport (fun _ => none) s.disk args = some ⟨idx + 1, lba, lba⟩ ∧
      Adds s.disk s'.disk hp hb ents ents' ⟨idx, lba, lba⟩ ∧ s'.disk.writable = true := by
  have hover : ∀ i, i < hp.numEntries → entOverlaps ents lba lba (i * hp.entrySize) = false := by
    intro i hi
    unfold entOverlaps
    rw [decide_eq_false_iff_not]
    rintro ⟨hused, h₁, h₂⟩
    have := hclear i hi (by simp [usedAt, hused])
    unfold spanAt at this
    dsimp only at this
    omega
  have htype : typeGuidFor [108, 105, 110, 117, 120] = some typeLinuxfs := by decide
  obtain ⟨s', hrun⟩ := @gptAddByRange_accepts s hp hb ents _ [97] lba lba hg hw _ htype hlo (le_refl _) hhi hover
    idx hfree
  obtain ⟨p, ents', hplace, hadds⟩ := gptAddByRange_adds hg hrun
  have hp' : placeRange s.disk lba lba = some ⟨idx, lba, lba⟩ := by
    rw [hg.placeRange, hfree, Option.map_some, max_eq_left hlo, min_eq_left hhi]
  obtain rfl : p = ⟨idx, lba, lba⟩ := Option.some.inj (hplace.symm.trans hp')
  refine ⟨s', ents', by rw [hcmd]; exact hrun, ?_, hadds, hadds.writable.trans hw⟩
  unfold addReport
  rw [hargs, some_bind, hp', some_bind]

end Guppy.Block
