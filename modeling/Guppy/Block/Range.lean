import Guppy.Block.Open

set_option autoImplicit false

/-! # The sectors of a partition

What a partition table says, entry by entry, against what the scan makes of it. An entry of
an extended boot record is relative to where that record is, which the link in the record
before it names; the scan adds these numbers in 32 bits, and so it does for the end of a
primary partition. A GPT entry is compared with the size of the disk; an MBR entry is not.
-/

namespace Guppy.Block

open Vfs

/-! ## The entries of a table -/

/-- A used entry: of an MBR, of the extended boot record that its link puts at `ebr`, or of a
GPT. -/
inductive TableEntry
  | primary (lba count : Nat)
  | logical (ebr lba count : Nat)
  | gpt (first last : Nat)
  deriving DecidableEq

/-- The sectors that an entry names. -/
def TableEntry.names : TableEntry → Span
  | .primary lba count => (lba, lba + count - 1)
  | .logical ebr lba count => (ebr + lba, ebr + lba + count - 1)
  | .gpt first last => (first, last)

/-- What the scan computes for an entry. -/
def TableEntry.scanned : TableEntry → Span
  | .primary lba count => (lba, (lba + count - 1) % uint32)
  | .logical ebr lba count => (ebr % uint32 + lba, ebr % uint32 + lba + count - 1)
  | .gpt first last => (first, last)

/-- The entry is on a disk of `total` sectors. A primary partition that ends past sector
`2^32 - 1` is not registered, and GPT entries are checked, so nothing is asked of them. -/
def TableEntry.Inside (total : Nat) : TableEntry → Prop
  | .primary lba count => lba + count ≤ uint32 → lba + count ≤ total
  | .logical ebr lba count => ebr < uint32 ∧ ebr + lba + count ≤ total
  | .gpt _ _ => True

/-- The used entry of the extended boot record at `ebr`. -/
def ebrEntry (ebr : Nat) (sec : Mem) : List TableEntry :=
  if slotType sec 0 ≠ 0 ∧ slotCount sec 0 ≠ 0 then
    [.logical ebr (slotLba sec 0) (slotCount sec 0)]
  else []

/-- The entries of the extended boot records that the scan visits, `n` partitions having been
found before. -/
def ebrTable (io : Diskio) (dev : Vblk) (extBase : Nat) :
    (fuel ebr n : Nat) → Option (List TableEntry)
  | 0, _, _ => none
  | fuel + 1, ebr, n =>
      if n < maxParts then
        match vblkReadBlock io dev (ebr % uint32) with
        | none => some []
        | some sec =>
            if bootSig sec = false then some []
            else if isExtended (slotType sec 1) then
              (ebrTable io dev extBase fuel (extBase + slotLba sec 1)
                (n + (ebrEntry ebr sec).length)).map (ebrEntry ebr sec ++ ·)
            else some (ebrEntry ebr sec)
      else some []

/-- The entries of the slots `i`, `i + 1`, ... of an MBR; `none` inside for a protective one. -/
def mbrTableFrom (io : Diskio) (dev : Vblk) (fuel : Nat) (mbr : Mem) :
    (count i : Nat) → List TableEntry → Option (Option (List TableEntry))
  | 0, _, t => some (some t)
  | count + 1, i, t =>
      if slotType mbr i = 0 ∨ slotCount mbr i = 0 then mbrTableFrom io dev fuel mbr count (i + 1) t
      else if slotType mbr i = 0xEE then some none
      else if isExtended (slotType mbr i) then do
        let t' ← ebrTable io dev (slotLba mbr i) fuel (slotLba mbr i) t.length
        mbrTableFrom io dev fuel mbr count (i + 1) (t ++ t')
      else if t.length < maxParts then
        mbrTableFrom io dev fuel mbr count (i + 1)
          (t ++ [.primary (slotLba mbr i) (slotCount mbr i)])
      else mbrTableFrom io dev fuel mbr count (i + 1) t

def mbrTable (io : Diskio) (dev : Vblk) (fuel : Nat) : Option (Option (List TableEntry)) :=
  match vblkReadBlock io dev 0 with
  | none => some (some [])
  | some mbr =>
      if bootSig mbr = false then some (some []) else mbrTableFrom io dev fuel mbr 4 0 []

/-- The entries of the partition table of a device that the scan takes. -/
def tableOf (io : Diskio) (dev : Vblk) (fuel : Nat) : Option (List TableEntry) := do
  let gpt := (scanGpt io dev (vblkSizeBytes io dev / lsec)).map (fun s => TableEntry.gpt s.1 s.2)
  let mbr ← mbrTable io dev fuel
  match mbr with
  | some [] => some gpt
  | some t => some t
  | none => some gpt

/-! ## The scan takes these entries -/

section Table

variable {io : Diskio} {dev : Vblk}

theorem ebrEntry_scanned (ebr : Nat) (sec : Mem) :
    (ebrEntry ebr sec).map TableEntry.scanned = ebrLogical (ebr % uint32) sec := by
  unfold ebrEntry ebrLogical
  split <;> rfl

theorem ebrEntry_length (ebr : Nat) (sec : Mem) : (ebrEntry ebr sec).length ≤ 1 := by
  unfold ebrEntry
  split <;> simp

theorem scanEbrChain_table {extBase : Nat} (fuel : Nat) : ∀ (ebr : Nat) (t : List TableEntry),
    scanEbrChain io dev extBase fuel (ebr % uint32) (t.map TableEntry.scanned) =
      (ebrTable io dev extBase fuel ebr t.length).map (fun t' => (t ++ t').map TableEntry.scanned) := by
  induction fuel with
  | zero =>
      intro ebr t
      rfl
  | succ fuel ih =>
      intro ebr t
      unfold scanEbrChain ebrTable
      rw [List.length_map]
      by_cases hn : t.length < maxParts
      · rw [if_pos hn, if_pos hn]
        cases vblkReadBlock io dev (ebr % uint32) with
        | none => simp
        | some sec =>
            dsimp only []
            by_cases hsig : bootSig sec = false
            · rw [if_pos hsig, if_pos hsig]
              simp
            · rw [if_neg hsig, if_neg hsig, ← ebrEntry_scanned, ← List.map_append]
              by_cases hext : isExtended (slotType sec 1) = true
              · rw [if_pos hext, if_pos hext, ih, Option.map_map, List.length_append]
                simp [Function.comp_def]
              · rw [if_neg hext, if_neg hext]
                simp
      · rw [if_neg hn, if_neg hn]
        simp

/-- What `scan_mbr` returns for a table. -/
def MbrScan.ofTable : Option (List TableEntry) → MbrScan
  | none => .protective
  | some t => .parts (t.map TableEntry.scanned)

theorem scanMbrFrom_table {fuel : Nat} {mbr : Mem} (count : Nat) :
    ∀ (i : Nat) (t : List TableEntry),
      scanMbrFrom io dev fuel mbr count i (t.map TableEntry.scanned) =
        (mbrTableFrom io dev fuel mbr count i t).map MbrScan.ofTable := by
  induction count with
  | zero =>
      intro i t
      rfl
  | succ count ih =>
      intro i t
      unfold scanMbrFrom mbrTableFrom
      by_cases hused : slotType mbr i = 0 ∨ slotCount mbr i = 0
      · rw [if_pos hused, if_pos hused, ih]
      · rw [if_neg hused, if_neg hused]
        by_cases hee : slotType mbr i = 0xEE
        · rw [if_pos hee, if_pos hee]
          rfl
        · rw [if_neg hee, if_neg hee]
          by_cases hext : isExtended (slotType mbr i) = true
          · rw [if_pos hext, if_pos hext]
            have hlba : slotLba mbr i % uint32 = slotLba mbr i := Nat.mod_eq_of_lt (Mem.rd32_lt _ _)
            have hchain := @scanEbrChain_table io dev (slotLba mbr i) fuel
              (slotLba mbr i) t
            rw [hlba] at hchain
            rw [hchain]
            cases ebrTable io dev (slotLba mbr i) fuel (slotLba mbr i) t.length with
            | none => rfl
            | some t' => exact ih (i + 1) (t ++ t')
          · rw [if_neg hext, if_neg hext, List.length_map]
            by_cases hmax : t.length < maxParts
            · rw [if_pos hmax, if_pos hmax, ← ih, List.map_append]
              rfl
            · rw [if_neg hmax, if_neg hmax, ih]

/-- The scan computes its partitions entry by entry from the table. -/
theorem findPartitions_table (fuel : Nat) :
    (findPartitions io dev fuel).map Prod.fst =
      (tableOf io dev fuel).map (List.map TableEntry.scanned) := by
  have hmbr : scanMbr io dev fuel = (mbrTable io dev fuel).map MbrScan.ofTable := by
    unfold scanMbr mbrTable
    cases vblkReadBlock io dev 0 with
    | none => rfl
    | some mbr =>
        dsimp only []
        by_cases hsig : bootSig mbr = false
        · rw [if_pos hsig, if_pos hsig]
          rfl
        · rw [if_neg hsig, if_neg hsig]
          exact scanMbrFrom_table 4 0 []
  have hgpt : ∀ spans : List Span,
      spans = (spans.map (fun s => TableEntry.gpt s.1 s.2)).map TableEntry.scanned := by
    intro spans
    rw [List.map_map]
    exact (List.map_id _).symm
  unfold findPartitions tableOf
  rw [hmbr]
  cases mbrTable io dev fuel with
  | none => rfl
  | some r =>
      cases r with
      | none => exact congrArg some (hgpt _)
      | some t =>
          cases t with
          | nil => exact congrArg some (hgpt _)
          | cons e t => rfl

/-- What the scan makes sure of: the numbers of an MBR are 32-bit fields, no entry is empty,
and those of a GPT end on the disk. -/
def TableEntry.Wf (total : Nat) : TableEntry → Prop
  | .primary lba count => lba < uint32 ∧ count < uint32 ∧ count ≠ 0
  | .logical _ lba count => lba < uint32 ∧ count < uint32 ∧ count ≠ 0
  | .gpt first last => first ≤ last ∧ last < total

theorem ebrEntry_wf {total ebr : Nat} {sec : Mem} {e : TableEntry} (h : e ∈ ebrEntry ebr sec) :
    e.Wf total := by
  unfold ebrEntry at h
  split at h
  · rename_i hused
    rw [List.mem_singleton] at h
    subst h
    exact ⟨Mem.rd32_lt _ _, Mem.rd32_lt _ _, hused.2⟩
  · cases h

theorem ebrTable_wf {total extBase : Nat} (fuel : Nat) : ∀ {ebr n : Nat} {t : List TableEntry},
    n ≤ maxParts → ebrTable io dev extBase fuel ebr n = some t →
      n + t.length ≤ maxParts ∧ ∀ e ∈ t, e.Wf total := by
  induction fuel with
  | zero =>
      intro ebr n t _ h
      cases h
  | succ fuel ih =>
      intro ebr n t hn h
      unfold ebrTable at h
      split at h
      · rename_i hlt
        split at h
        · cases h
          exact ⟨hn, by simp⟩
        · rename_i sec hsec
          have hone := ebrEntry_length ebr sec
          split at h
          · cases h
            exact ⟨hn, by simp⟩
          · split at h
            · rw [Option.map_eq_some_iff] at h
              obtain ⟨t', ht', rfl⟩ := h
              obtain ⟨hlen, hwf⟩ := ih (by omega) ht'
              refine ⟨by rw [List.length_append]; omega, ?_⟩
              intro e he
              rcases List.mem_append.mp he with he | he
              · exact ebrEntry_wf he
              · exact hwf e he
            · cases h
              exact ⟨by omega, fun e he => ebrEntry_wf he⟩
      · cases h
        exact ⟨hn, by simp⟩

theorem mbrTableFrom_wf {total fuel : Nat} {mbr : Mem} (count : Nat) :
    ∀ {i : Nat} {t t' : List TableEntry}, t.length ≤ maxParts → (∀ e ∈ t, e.Wf total) →
      mbrTableFrom io dev fuel mbr count i t = some (some t') →
      t'.length ≤ maxParts ∧ ∀ e ∈ t', e.Wf total := by
  induction count with
  | zero =>
      intro i t t' hlen hwf h
      cases h
      exact ⟨hlen, hwf⟩
  | succ count ih =>
      intro i t t' hlen hwf h
      unfold mbrTableFrom at h
      split at h
      · exact ih hlen hwf h
      · rename_i hused
        split at h
        · cases h
        · split at h
          · simp only [Option.bind_eq_bind, Option.bind_eq_some_iff] at h
            obtain ⟨t₁, ht₁, h⟩ := h
            obtain ⟨hlen₁, hwf₁⟩ := ebrTable_wf fuel hlen ht₁
            refine ih (by rw [List.length_append]; exact hlen₁) ?_ h
            intro e he
            rcases List.mem_append.mp he with he | he
            · exact hwf e he
            · exact hwf₁ e he
          · split at h
            · refine ih (by rw [List.length_append, List.length_singleton]; omega) ?_ h
              intro e he
              rcases List.mem_append.mp he with he | he
              · exact hwf e he
              · rw [List.mem_singleton] at he
                subst he
                push Not at hused
                exact ⟨Mem.rd32_lt _ _, Mem.rd32_lt _ _, hused.2⟩
            · exact ih hlen hwf h

/-- What the scan of a GPT takes: at most 128 entries, none of them empty and all of them on
the disk. -/
theorem scanGptFrom_inside {buf : Mem} {entrySize total : Nat} (count : Nat) :
    ∀ {i : Nat} {found : List Span}, found.length ≤ maxParts →
      (∀ s ∈ found, s.1 ≤ s.2 ∧ s.2 < uint64 ∧ (total = 0 ∨ s.2 < total)) →
      (scanGptFrom buf entrySize total count i found).length ≤ maxParts ∧
        ∀ s ∈ scanGptFrom buf entrySize total count i found,
          s.1 ≤ s.2 ∧ s.2 < uint64 ∧ (total = 0 ∨ s.2 < total) := by
  induction count with
  | zero =>
      intro i found hlen h
      exact ⟨hlen, h⟩
  | succ count ih =>
      intro i found hlen h
      unfold scanGptFrom
      dsimp only []
      split
      · split
        · exact ih hlen h
        · rename_i hskip
          refine ih (by rw [List.length_append, List.length_singleton]; omega) ?_
          intro s hs
          rcases List.mem_append.mp hs with hs | hs
          · exact h s hs
          · rw [List.mem_singleton] at hs
            subst hs
            have h64 : entLastLba buf (i * entrySize) < uint64 := Mem.rd64_lt _ _
            exact ⟨by omega, h64, by omega⟩
      · exact ⟨hlen, h⟩

theorem scanGpt_inside {total : Nat} : (scanGpt io dev total).length ≤ maxParts ∧
    ∀ s ∈ scanGpt io dev total, s.1 ≤ s.2 ∧ s.2 < uint64 ∧ (total = 0 ∨ s.2 < total) := by
  unfold scanGpt
  split
  · exact ⟨by simp, by simp⟩
  · split
    · exact ⟨by simp, by simp⟩
    · exact scanGptFrom_inside _ (by simp) (by simp)

end Table

/-! ## Only the disk matters -/

/-- Two devices that read the same. -/
structure SameReads (io : Diskio) (dev : Vblk) (io' : Diskio) (dev' : Vblk) : Prop where
  bytes : vblkReadBytes io dev = vblkReadBytes io' dev'
  block : vblkReadBlock io dev = vblkReadBlock io' dev'
  size : vblkSizeBytes io dev = vblkSizeBytes io' dev'

theorem SameReads.refl (io : Diskio) (dev : Vblk) : SameReads io dev io dev := ⟨rfl, rfl, rfl⟩

section Same

variable {io io' : Diskio} {dev dev' : Vblk}

theorem SameReads.ebrTable (h : SameReads io dev io' dev') {extBase : Nat} (fuel : Nat) :
    ∀ ebr n, ebrTable io dev extBase fuel ebr n = ebrTable io' dev' extBase fuel ebr n := by
  induction fuel with
  | zero =>
      intro ebr n
      rfl
  | succ fuel ih =>
      intro ebr n
      unfold Block.ebrTable
      simp only [h.block, ih]

theorem SameReads.mbrTable (h : SameReads io dev io' dev') (fuel : Nat) :
    mbrTable io dev fuel = mbrTable io' dev' fuel := by
  have hfrom : ∀ (mbr : Mem) (count i : Nat) (t : List TableEntry),
      mbrTableFrom io dev fuel mbr count i t = mbrTableFrom io' dev' fuel mbr count i t := by
    intro mbr count
    induction count with
    | zero =>
        intro i t
        rfl
    | succ count ih =>
        intro i t
        unfold mbrTableFrom
        simp only [h.ebrTable, ih]
  unfold Block.mbrTable
  simp only [h.block, hfrom]

theorem SameReads.validate (h : SameReads io dev io' dev') :
    gptValidateAt io dev = gptValidateAt io' dev' := by
  funext total lba
  unfold gptValidateAt gptHdrBuf
  simp only [h.block, h.bytes]

theorem SameReads.tableOf (h : SameReads io dev io' dev') (fuel : Nat) :
    tableOf io dev fuel = tableOf io' dev' fuel := by
  have hgpt : scanGpt io dev = scanGpt io' dev' := by
    funext total
    unfold scanGpt gptHeader
    simp only [h.validate, h.block, h.bytes]
  unfold Block.tableOf
  simp only [hgpt, h.mbrTable, h.size]

end Same

/-- A disk attached under a one-letter name, by itself. -/
def alone (k : Disk) : Diskio := [([100], k)]
def aloneDev (k : Disk) : Vblk := wholeDisk [100] k.size

theorem mapFind_alone (k : Disk) : mapFind (alone k) [100] = some k := rfl

/-- Whatever a disk is attached as, it reads the same. -/
theorem wholeDisk_sameReads {io : Diskio} {devname : Text} {k : Disk} (hname : devname ≠ [])
    (hmap : mapFind io (devname.take 31) = some k) :
    SameReads io (wholeDisk devname k.size) (alone k) (aloneDev k) := by
  have hkey : vblkBackingKey (wholeDisk devname k.size) = devname.take 31 := by
    unfold vblkBackingKey
    rw [if_pos]
    · rfl
    · show devname.take 31 ≠ []
      rw [Ne, List.take_eq_nil_iff]
      simp [hname]
  have hkey' : vblkBackingKey (aloneDev k) = [100] := rfl
  have hbytes : vblkReadBytes io (wholeDisk devname k.size) = vblkReadBytes (alone k) (aloneDev k) := by
    funext off len
    unfold vblkReadBytes diskioPread
    rw [hkey, hkey', hmap, mapFind_alone]
    rfl
  refine ⟨hbytes, ?_, ?_⟩
  · funext lba
    unfold vblkReadBlock
    rw [hbytes]
    rfl
  · unfold vblkSizeBytes diskioSizeBytes
    rw [hkey, hkey', hmap, mapFind_alone]
    rfl

/-- The entries of the partition table on a disk that the scan takes. -/
def tableOn (k : Disk) (fuel : Nat) : Option (List TableEntry) := tableOf (alone k) (aloneDev k) fuel

/-- A disk of less than one sector has no table. -/
theorem aloneDev_total (k : Disk) : vblkSizeBytes (alone k) (aloneDev k) / lsec = k.size / 512 := by
  have hsize : diskioSizeBytes (alone k) (vblkBackingKey (aloneDev k)) = k.size := rfl
  have hlba : (aloneDev k).lbaSize = k.size / 512 := rfl
  have hstart : (aloneDev k).lbaStart = 0 := rfl
  have hlt := k.size_lt
  have hround : k.size / 512 * 512 % uint64 = k.size / 512 * 512 :=
    Nat.mod_eq_of_lt (lt_of_le_of_lt (Nat.div_mul_le_self _ _) hlt)
  unfold vblkSizeBytes
  rw [hsize, hlba, hstart]
  unfold lsec
  split
  · rw [hround, Nat.mul_div_cancel _ (by omega)]
  · rw [Nat.zero_mul, Nat.zero_mod, Nat.sub_zero]

theorem scanGpt_small {k : Disk} (h : k.size / 512 = 0) (total : Nat) :
    scanGpt (alone k) (aloneDev k) total = [] := by
  have hread : vblkReadBlock (alone k) (aloneDev k) 1 = none := by
    have hkey : vblkBackingKey (aloneDev k) = [100] := rfl
    have habs : absOff (aloneDev k) (1 * lsec) = 512 := by
      simp [absOff, aloneDev, wholeDisk, lsec, uint64]
    show (if (uint64 - 1) / lsec < 1 then none
      else vblkReadBytes (alone k) (aloneDev k) (1 * lsec) lsec) = none
    rw [if_neg (by decide)]
    unfold vblkReadBytes diskioPread
    rw [hkey, mapFind_alone, habs]
    split
    · rfl
    · show k.read 512 512 = none
      exact if_neg (by omega)
  have hvalid : gptValidateAt (alone k) (aloneDev k) total 1 = none := by
    unfold gptValidateAt
    rw [hread]
    rfl
  unfold scanGpt gptHeader
  rw [hvalid, hread]
  rfl

/-! ## Registered children -/

/-- The registry holds, besides what it held, the child that was registered. -/
theorem vblkRegister_mem {reg reg' : Registry} {e c : Vblk} (h : vblkRegister reg e = some reg')
    (hc : c ∈ reg') : c ∈ reg ∨ c = e := by
  unfold vblkRegister at h
  split at h
  · cases h
  · split at h
    · cases h
      exact List.mem_or_eq_of_mem_set hc
    · split at h
      · cases h
        exact List.mem_or_eq_of_mem_set hc
      · split at h
        · cases h
        · cases h
          simpa using hc

/-- A slot keeps its entry or gets the one registered. -/
theorem vblkRegister_slot {reg reg' : Registry} {e p : Vblk} {slot : Nat}
    (h : vblkRegister reg e = some reg') (hp : reg[slot]? = some p) :
    reg'[slot]? = some p ∨ reg'[slot]? = some e := by
  have hset : ∀ i, (reg.set i e)[slot]? = some p ∨ (reg.set i e)[slot]? = some e := by
    intro i
    by_cases hi : i = slot
    · right
      subst hi
      rw [List.getElem?_set_self (List.getElem?_eq_some_iff.mp hp).1]
    · left
      rw [List.getElem?_set_ne hi]
      exact hp
  unfold vblkRegister at h
  split at h
  · cases h
  · split at h
    · cases h
      exact hset _
    · split at h
      · cases h
        exact hset _
      · split at h
        · cases h
        · cases h
          left
          rw [List.getElem?_append_left (List.getElem?_eq_some_iff.mp hp).1]
          exact hp

/-- Every entry that the loop adds is the child for one of the spans, on the disk of the
device; the children are numbered in the order of the spans. -/
theorem registerChildren_mem {slot : Nat} {name kind dev : Text} {c : Vblk} (spans : List Span) :
    ∀ {nth : Nat} {reg : Registry}, (∃ p, reg[slot]? = some p ∧ p.dev = dev) →
      c ∈ registerChildren slot name kind nth spans reg → c ∈ reg ∨
        ∃ p i span, p.dev = dev ∧ spans[i]? = some span ∧ span.1 ≤ span.2 ∧
          c = childOf p name (nth + i) span kind := by
  induction spans with
  | nil =>
      intro nth reg _ hc
      exact Or.inl hc
  | cons span spans ih =>
      rintro nth reg ⟨p, hp, hdev⟩ hc
      have hget : reg.getD slot Vblk.empty = p := by
        rw [List.getD_eq_getElem?_getD, hp, Option.getD_some]
      -- the entry in the slot keeps the backing device, also when the child takes its place
      have hstep : (∃ p, (registerChild slot name kind nth span reg)[slot]? = some p ∧ p.dev = dev) ∧
          ∀ c ∈ registerChild slot name kind nth span reg, c ∈ reg ∨
            (span.1 ≤ span.2 ∧ c = childOf p name nth span kind) := by
        unfold registerChild
        rw [hget]
        split
        · exact ⟨⟨p, hp, hdev⟩, fun c hc => Or.inl hc⟩
        · rename_i hspan
          cases hr : vblkRegister reg (childOf p name nth span kind) with
          | none => exact ⟨⟨p, hp, hdev⟩, fun c hc => Or.inl hc⟩
          | some reg' =>
              constructor
              · rcases vblkRegister_slot hr hp with h | h
                · exact ⟨p, h, hdev⟩
                · exact ⟨_, h, hdev⟩
              · intro c hc
                rcases vblkRegister_mem hr hc with h | h
                · exact Or.inl h
                · exact Or.inr ⟨by omega, h⟩
      rcases ih hstep.1 hc with h | ⟨q, i, s, hq, hs, hle, heq⟩
      · rcases hstep.2 c h with h | ⟨hle, heq⟩
        · exact Or.inl h
        · exact Or.inr ⟨p, 0, span, hdev, rfl, hle, heq⟩
      · refine Or.inr ⟨q, i + 1, s, hq, hs, hle, ?_⟩
        rw [heq, Nat.add_assoc, Nat.add_comm 1 i]

theorem decimal_injective {m n : Nat} (h : decimal m = decimal n) : m = n := by
  have hback : ∀ k, (decimal k).map (fun b => Char.ofNat b.toNat) = Nat.toDigits 10 k := by
    intro k
    unfold decimal
    rw [List.map_map]
    conv_rhs => rw [← List.map_id (Nat.toDigits 10 k)]
    refine List.map_congr_left (fun c hc => ?_)
    have hdigit := Nat.isDigit_of_mem_toDigits (by omega) (by omega) hc
    simp only [Char.isDigit, Bool.and_eq_true, decide_eq_true_eq, ge_iff_le] at hdigit
    have h₂ : c.toNat ≤ 57 := hdigit.2
    simp only [Function.comp_apply, UInt8.toNat_ofNat', id_eq]
    rw [Nat.mod_eq_of_lt (by omega), Char.ofNat_toNat]
  have hdigits : Nat.toDigits 10 m = Nat.toDigits 10 n := by rw [← hback m, ← hback n, h]
  rw [← Nat.ofDigitChars_toDigits (b := 10) (n := m) (by omega) (by omega), hdigits,
    Nat.ofDigitChars_toDigits (by omega) (by omega)]

theorem decimal_length {n : Nat} (h : n < 1000) : (decimal n).length ≤ 3 := by
  unfold decimal
  rw [List.length_map]
  exact (Nat.length_toDigits_le_iff (by omega) (by omega)).mpr (by omega)

/-- On a registry with nothing but the disk, every span gets its child. -/
theorem registerChildren_alone {k : Disk} {kind : Text} (spans : List Span) :
    ∀ {nth : Nat} {reg : Registry}, reg[0]? = some (aloneDev k) → nth + spans.length ≤ 256 →
      reg.length ≤ nth → (∀ e ∈ reg, e = aloneDev k ∨ ∃ m < nth, e.name = 100 :: decimal m) →
      1 ≤ nth →
      (∀ e ∈ reg, e ∈ registerChildren 0 [100] kind nth spans reg) ∧
      ∀ s ∈ spans, s.1 ≤ s.2 → ∃ n, childOf (aloneDev k) [100] n s kind ∈
        registerChildren 0 [100] kind nth spans reg := by
  induction spans with
  | nil =>
      intro nth reg _ _ _ _ _
      exact ⟨fun e he => he, by simp⟩
  | cons span spans ih =>
      intro nth reg h0 hlen hreg hnames h1
      rw [List.length_cons] at hlen
      have hget : reg.getD 0 Vblk.empty = aloneDev k := by
        rw [List.getD_eq_getElem?_getD, h0, Option.getD_some]
      by_cases hspan : span.2 < span.1
      · have hsame : registerChild 0 [100] kind nth span reg = reg := if_pos hspan
        unfold registerChildren
        rw [hsame]
        obtain ⟨hkeep, hall⟩ := @ih (nth + 1) _ h0 (by omega) (by omega)
          (fun e he => (hnames e he).imp_right (fun ⟨m, hm, hn⟩ => ⟨m, by omega, hn⟩)) (by omega)
        refine ⟨hkeep, ?_⟩
        intro s hs hle
        rcases List.mem_cons.mp hs with rfl | hs
        · omega
        · exact hall s hs hle
      · -- the name is new and no slot is free, so the child is appended
        have hname : (childOf (aloneDev k) [100] nth span kind).name = 100 :: decimal nth := by
          show ([100] ++ decimal nth).take 31 = 100 :: decimal nth
          have := decimal_length (n := nth) (by omega)
          exact List.take_of_length_le (by simp; omega)
        have hfresh : ∀ e ∈ reg, e.name ≠ 100 :: decimal nth := by
          intro e he heq
          rcases hnames e he with rfl | ⟨m, hm, hn⟩
          · have : (aloneDev k).name = [100] := rfl
            rw [this] at heq
            exact decimal_ne_nil nth (List.cons.inj heq).2.symm
          · rw [hn] at heq
            have := decimal_injective (List.cons.inj heq).2
            omega
        have hnofree : ∀ e ∈ reg, e.name ≠ [] := by
          intro e he
          rcases hnames e he with rfl | ⟨m, _, hn⟩
          · exact List.cons_ne_nil _ _
          · rw [hn]
            exact List.cons_ne_nil _ _
        have hregister : registerChild 0 [100] kind nth span reg =
            reg ++ [childOf (aloneDev k) [100] nth span kind] := by
          unfold registerChild
          rw [if_neg hspan, hget]
          unfold vblkRegister
          rw [if_neg (by rw [hname]; exact List.cons_ne_nil _ _)]
          have hnone : findByName reg (childOf (aloneDev k) [100] nth span kind).name = none := by
            rw [hname, findByName_none_iff (List.cons_ne_nil _ _)]
            intro i e he
            exact hfresh e (List.mem_of_getElem? he)
          have hidx : reg.findIdx? (fun e => e.name = []) = none := by
            rw [List.findIdx?_eq_none_iff]
            intro e he
            simpa using hnofree e he
          rw [hnone, hidx]
          dsimp only []
          rw [if_neg (by unfold vblkMax; omega), Option.getD_some]
        unfold registerChildren
        rw [hregister]
        have hl : 0 < reg.length := (List.getElem?_eq_some_iff.mp h0).1
        obtain ⟨hkeep, hall⟩ := @ih (nth + 1)
          (reg ++ [childOf (aloneDev k) [100] nth span kind])
          (by rw [List.getElem?_append_left hl]; exact h0) (by omega)
          (by rw [List.length_append, List.length_singleton]; omega)
          (by
            intro e he
            rcases List.mem_append.mp he with he | he
            · exact (hnames e he).imp_right (fun ⟨m, hm, hn⟩ => ⟨m, by omega, hn⟩)
            · rw [List.mem_singleton] at he
              subst he
              exact Or.inr ⟨nth, by omega, hname⟩) (by omega)
        refine ⟨fun e he => hkeep e (List.mem_append_left _ he), ?_⟩
        intro s hs hle
        rcases List.mem_cons.mp hs with rfl | hs
        · exact ⟨nth, hkeep _ (by simp)⟩
        · exact hall s hs hle

/-! ## The children of a scan -/

/-- The scan made this child from this entry. -/
def TableEntry.Makes (e : TableEntry) (c : Vblk) : Prop :=
  e.scanned = (c.lbaStart, c.lbaStart + c.lbaSize - 1) ∧ 0 < c.lbaSize

/-- Byte `i` of a disk is in one of the sectors of a device. -/
def Covers (c : Vblk) (i : Nat) : Prop :=
  c.lbaStart * 512 ≤ i ∧ i < (c.lbaStart + c.lbaSize) * 512

/-- A child of the disk `k`, known as `dev`, that covers exactly the sectors that its table
entry names, inside the disk; a write on it changes no byte of any disk outside them. -/
structure RightChild (k : Disk) (t : List TableEntry) (dev : Text) (c : Vblk) : Prop where
  made : ∃ e ∈ t, e.Makes c
  exact : ∀ e ∈ t, e.Makes c → e.names = (c.lbaStart, c.lbaStart + c.lbaSize - 1)
  inside : c.lbaStart + c.lbaSize ≤ k.size / 512
  writes : ∀ io io' k' off len src, mapFind io dev = some k' → k'.size = k.size →
    vblkWriteBytes io c off len src = some io' →
    (∃ k'', mapFind io' dev = some k'' ∧ ∀ i, ¬ Covers c i → k''.bytes i = k'.bytes i) ∧
      ∀ key, key ≠ dev → mapFind io' key = mapFind io key

/-- On whatever registry the disk `k` is scanned, and under whatever name, every child that is
new afterwards is right. -/
def ScansRight (k : Disk) (fuel : Nat) (t : List TableEntry) : Prop :=
  ∀ io reg reg' devname slot, devname ≠ [] → mapFind io (devname.take 31) = some k →
    findByName reg (devname.take 31) = some slot → reg[slot]? = some (wholeDisk devname k.size) →
    diskScanPartitions io reg (devname.take 31) fuel = some reg' →
    ∀ c ∈ reg', c ∉ vblkRemoveChildren reg (devname.take 31) → RightChild k t (devname.take 31) c

/-- What the table entry of a registered child says is what the scan made of it, if the entry
is on the disk. -/
theorem TableEntry.names_eq {e : TableEntry} {total : Nat} (hwf : e.Wf total) (hin : e.Inside total)
    (hle : e.scanned.1 ≤ e.scanned.2) : e.names = e.scanned ∧ e.scanned.2 < total := by
  have h32 : uint32 = 4294967296 := rfl
  cases e with
  | primary lba count =>
      obtain ⟨hlba, hcount, hpos⟩ := hwf
      simp only [TableEntry.scanned] at hle ⊢
      -- a sum that wraps around is less than its first part
      have hsum : lba + count - 1 < uint32 := by
        by_contra hge
        have hmod : (lba + count - 1) % uint32 = lba + count - 1 - uint32 := by
          rw [Nat.mod_eq_sub_mod (by omega), Nat.mod_eq_of_lt (by omega)]
        omega
      have := hin (by omega)
      rw [Nat.mod_eq_of_lt hsum]
      exact ⟨rfl, by omega⟩
  | logical ebr lba count =>
      obtain ⟨hlba, hcount, hpos⟩ := hwf
      obtain ⟨hebr, hend⟩ := hin
      simp only [TableEntry.scanned, TableEntry.names] at hle ⊢
      rw [Nat.mod_eq_of_lt hebr]
      exact ⟨rfl, by omega⟩
  | gpt first last => exact ⟨rfl, hwf.2⟩

theorem mapFind_mapSet {io : Diskio} {key key' : Text} {k : Disk} (h : (mapFind io key).isSome) :
    mapFind (mapSet io key k) key' = if key' = key then some k else mapFind io key' := by
  induction io with
  | nil => cases h
  | cons e io ih =>
      unfold mapSet
      by_cases he : e.1 = key
      · rw [if_pos he]
        by_cases hk : key' = key
        · subst hk
          simp [mapFind]
        · have hke : ¬ key = key' := fun h => hk h.symm
          rw [if_neg hk]
          simp [mapFind, hke, he]
      · rw [if_neg he]
        have h' : (mapFind io key).isSome := by
          simpa [mapFind, he] using h
        have ih := ih h'
        by_cases hek : e.1 = key'
        · rw [if_neg (by rintro rfl; exact he hek)]
          simp [mapFind, hek]
        · simp only [mapFind, List.find?_cons, hek, decide_false] at ih ⊢
          exact ih

/-- A write on a device inside its disk stays in the sectors of the device. -/
theorem write_covers {k : Disk} {c : Vblk} {dev : Text} (hdev : c.dev = dev) (hne : dev ≠ [])
    (hpos : 0 < c.lbaSize) (hin : c.lbaStart + c.lbaSize ≤ k.size / 512)
    {io io' : Diskio} {k' : Disk} {off len : Nat} {src : Mem} (hmap : mapFind io dev = some k')
    (hsize : k'.size = k.size) (hw : vblkWriteBytes io c off len src = some io') :
    (∃ k'', mapFind io' dev = some k'' ∧ ∀ i, ¬ Covers c i → k''.bytes i = k'.bytes i) ∧
      ∀ key, key ≠ dev → mapFind io' key = mapFind io key := by
  have hkey : vblkBackingKey c = dev := by
    unfold vblkBackingKey
    rw [hdev, if_pos hne]
  have hlt := k.size_lt
  have h64 : uint64 = 18446744073709551616 := rfl
  have hbytes : (c.lbaStart + c.lbaSize) * 512 < uint64 := by
    have := Nat.div_mul_le_self k.size 512
    have := Nat.mul_le_mul_right 512 hin
    omega
  have hlimit : vblkLimitBytes c = c.lbaSize * 512 := by
    unfold vblkLimitBytes lsec
    rw [if_neg (by omega), Nat.mod_eq_of_lt (by by_contra hge; omega)]
  unfold vblkWriteBytes at hw
  split at hw
  · cases hw
  · split at hw
    · cases hw
    · rename_i hrange
      rw [hlimit] at hrange
      have habs : absOff c off = c.lbaStart * 512 + off := by
        unfold absOff lsec
        rw [Nat.mod_eq_of_lt (by by_contra hge; omega)]
      unfold diskioPwrite at hw
      rw [hkey, habs, hmap, Option.bind_some, Option.map_eq_some_iff] at hw
      obtain ⟨k₁, hk₁, rfl⟩ := hw
      have hsome : (mapFind io dev).isSome := by rw [hmap]; rfl
      constructor
      · refine ⟨k₁, by rw [mapFind_mapSet hsome, if_pos rfl], ?_⟩
        intro i hi
        unfold Disk.write at hk₁
        split at hk₁
        · cases hk₁
          refine Mem.write_out ?_
          unfold Covers at hi
          omega
        · cases hk₁
      · intro key hne'
        rw [mapFind_mapSet hsome, if_neg hne']

/-- The scan of a GPT takes only entries on the disk. -/
theorem scanGpt_alone {k : Disk} {s : Span}
    (hs : s ∈ scanGpt (alone k) (aloneDev k) (k.size / 512)) : s.2 < k.size / 512 := by
  by_cases hsmall : k.size / 512 = 0
  · rw [scanGpt_small hsmall] at hs
    cases hs
  · rcases (scanGpt_inside.2 s hs).2.2 with h | h
    · exact absurd h hsmall
    · exact h

theorem tableOn_wf {k : Disk} {fuel : Nat} {t : List TableEntry} (h : tableOn k fuel = some t) :
    t.length ≤ maxParts ∧ ∀ e ∈ t, e.Wf (k.size / 512) := by
  have hgpt : ((scanGpt (alone k) (aloneDev k) (k.size / 512)).map
        (fun s => TableEntry.gpt s.1 s.2)).length ≤ maxParts ∧
      ∀ e ∈ (scanGpt (alone k) (aloneDev k) (k.size / 512)).map (fun s => TableEntry.gpt s.1 s.2),
        e.Wf (k.size / 512) := by
    refine ⟨by rw [List.length_map]; exact scanGpt_inside.1, ?_⟩
    intro e he
    obtain ⟨s, hs, rfl⟩ := List.mem_map.mp he
    exact ⟨(scanGpt_inside.2 s hs).1, scanGpt_alone hs⟩
  unfold tableOn tableOf at h
  rw [aloneDev_total] at h
  simp only [Option.bind_eq_bind, Option.bind_eq_some_iff] at h
  obtain ⟨r, hr, h⟩ := h
  match r, hr, h with
  | none, _, h =>
      cases h
      exact hgpt
  | some [], _, h =>
      cases h
      exact hgpt
  | some (e :: t'), hr, h =>
      cases h
      unfold mbrTable at hr
      split at hr
      · cases hr
      · split at hr
        · cases hr
        · exact mbrTableFrom_wf 4 (by simp) (by simp) hr

/-- The child of a span that ends on the disk covers that span. -/
theorem childOf_makes {k : Disk} {p : Vblk} {name kind : Text} {nth : Nat} {span : Span}
    (hle : span.1 ≤ span.2) (hend : span.2 < uint64 - 1) :
    (childOf p name nth span kind).lbaStart = span.1 ∧
      (childOf p name nth span kind).lbaSize = span.2 - span.1 + 1 := by
  refine ⟨rfl, ?_⟩
  show (span.2 - span.1 + 1) % uint64 = span.2 - span.1 + 1
  exact Nat.mod_eq_of_lt (by omega)

/-- A scan of a disk registers children for the entries of its table. -/
theorem diskScan_table {k : Disk} {fuel : Nat} {t : List TableEntry} (ht : tableOn k fuel = some t)
    {io : Diskio} {reg : Registry} {devname : Text} {slot : Nat} (hne : devname ≠ [])
    (hmap : mapFind io (devname.take 31) = some k)
    (hslot : findByName reg (devname.take 31) = some slot)
    (hp : reg[slot]? = some (wholeDisk devname k.size)) :
    ∃ spans kind, spans.Perm (t.map TableEntry.scanned) ∧
      (vblkRemoveChildren reg (devname.take 31))[slot]? = some (wholeDisk devname k.size) ∧
      diskScanPartitions io reg (devname.take 31) fuel = some (registerChildren slot (devname.take 31)
        kind 1 spans (vblkRemoveChildren reg (devname.take 31))) := by
  have hname : devname.take 31 ≠ [] := by
    rw [Ne, List.take_eq_nil_iff]
    simp [hne]
  have hkept : (vblkRemoveChildren reg (devname.take 31))[slot]? = some (wholeDisk devname k.size) :=
    removeChildren_kept hname hp (isChildName_self _)
  have hfind := @findPartitions_table io (wholeDisk devname k.size) fuel
  rw [(wholeDisk_sameReads hne hmap).tableOf fuel] at hfind
  unfold tableOn at ht
  rw [ht, Option.map_some, Option.map_eq_some_iff] at hfind
  obtain ⟨⟨spans, kind⟩, hfound, hspans⟩ := hfind
  refine ⟨sortPairs spans.length spans, kind, ?_, hkept, ?_⟩
  · rw [← hspans]
    exact sortPairs_perm _ _
  · unfold diskScanPartitions
    rw [hslot]
    dsimp only []
    rw [List.getD_eq_getElem?_getD, hkept, Option.getD_some, hfound]
    rfl

/-- The table decides: the children of the scans of a disk are right, on every registry, exactly
when its MBR entries that the scan takes are on the disk. -/
theorem scans_right_iff {k : Disk} {fuel : Nat} {t : List TableEntry} (ht : tableOn k fuel = some t) :
    ScansRight k fuel t ↔ ∀ e ∈ t, e.Inside (k.size / 512) := by
  obtain ⟨hlen, hwf⟩ := tableOn_wf ht
  have hsize := k.size_lt
  have h32 : uint32 = 4294967296 := rfl
  have h64 : uint64 = 18446744073709551616 := rfl
  constructor
  · intro h e he
    -- scan the disk by itself; every entry then has its child
    obtain ⟨spans, kind, hperm, hkept, hscan⟩ := @diskScan_table k fuel t ht
      (alone k) [aloneDev k] [100] 0 (by decide) rfl (by rfl) rfl
    have hclean : vblkRemoveChildren [aloneDev k] [100] = [aloneDev k] := by rfl
    have hchild := (@registerChildren_alone k kind spans 1
      [aloneDev k] rfl
      (by rw [hperm.length_eq, List.length_map]; unfold maxParts at hlen; omega) (by simp) (by simp)
      (by omega)).2
    have hright : e.scanned.1 ≤ e.scanned.2 → e.scanned.2 < uint64 - 1 →
        e.names = e.scanned ∧ e.scanned.2 < k.size / 512 := by
      intro hle hend
      obtain ⟨n, hn⟩ := hchild e.scanned (hperm.mem_iff.mpr (List.mem_map_of_mem he)) hle
      have hnew : childOf (aloneDev k) [100] n e.scanned kind ∉ vblkRemoveChildren [aloneDev k] [100] := by
        rw [hclean, List.mem_singleton]
        intro heq
        have : ((n : Nat) : Int) = -1 := congrArg Vblk.partIndex heq
        omega
      have hr := h (alone k) [aloneDev k] _ [100] 0 (by decide) rfl (by rfl) rfl hscan _
        (by rw [show List.take 31 [100] = ([100] : Text) from rfl, hclean]; exact hn) hnew
      obtain ⟨hstart, hlbas⟩ := childOf_makes (k := k) (p := aloneDev k)
        hle hend
      have hin := hr.inside
      have hexact := hr.exact e he
      rw [hstart, hlbas] at hin
      unfold TableEntry.Makes at hexact
      rw [hstart, hlbas] at hexact
      have hspan : e.scanned = (e.scanned.1, e.scanned.1 + (e.scanned.2 - e.scanned.1 + 1) - 1) := by
        refine Prod.ext rfl ?_
        dsimp only []
        omega
      exact ⟨(hexact ⟨hspan, by omega⟩).trans hspan.symm, by omega⟩
    cases e with
    | primary lba count =>
        obtain ⟨hlba, hcount, hpos⟩ := hwf _ he
        intro hsum
        simp only [TableEntry.scanned] at hright
        rw [Nat.mod_eq_of_lt (by omega)] at hright
        have := (hright (by omega) (by omega)).2
        omega
    | logical ebr lba count =>
        obtain ⟨hlba, hcount, hpos⟩ := hwf _ he
        have hmod : ebr % uint32 < uint32 := Nat.mod_lt _ (by omega)
        simp only [TableEntry.scanned, TableEntry.names, Prod.mk.injEq] at hright
        obtain ⟨⟨h₁, _⟩, h₂⟩ := hright (by omega) (by omega)
        exact ⟨by omega, by omega⟩
    | gpt first last => exact trivial
  · intro hin io reg reg' devname slot hne hmap hslot hp hscan c hc hnew
    obtain ⟨spans, kind, hperm, hkept, hscan'⟩ := diskScan_table ht hne hmap hslot hp
    rw [hscan'] at hscan
    cases hscan
    rcases registerChildren_mem spans ⟨_, hkept, rfl⟩ hc with hold | ⟨p, i, span, hdev, hspan, hle, rfl⟩
    · exact absurd hold hnew
    · obtain ⟨e, he, rfl⟩ := List.mem_map.mp (hperm.mem_iff.mp (List.mem_of_getElem? hspan))
      obtain ⟨hnames, hend⟩ := e.names_eq (hwf e he) (hin e he) hle
      obtain ⟨hstart, hlbas⟩ := childOf_makes (k := k) (p := p)
        hle (by omega)
      have hinside : e.scanned.1 + (e.scanned.2 - e.scanned.1 + 1) ≤ k.size / 512 := by omega
      have hspan' : e.scanned = (e.scanned.1, e.scanned.1 + (e.scanned.2 - e.scanned.1 + 1) - 1) := by
        refine Prod.ext rfl ?_
        dsimp only []
        omega
      refine ⟨⟨e, he, ?_⟩, ?_, ?_, ?_⟩
      · unfold TableEntry.Makes
        rw [hstart, hlbas]
        exact ⟨hspan', by omega⟩
      · intro f hf hmakes
        unfold TableEntry.Makes at hmakes
        rw [hstart, hlbas, ← hspan'] at hmakes
        rw [hstart, hlbas, ← hspan', ← hmakes.1]
        exact (f.names_eq (hwf f hf) (hin f hf) (by rw [hmakes.1]; exact hle)).1
      · rw [hstart, hlbas]
        exact hinside
      · intro io₁ io₂ k' off len src hmap' hsz hw
        have hname : devname.take 31 ≠ [] := by
          rw [Ne, List.take_eq_nil_iff]
          simp [hne]
        have hcdev : (childOf p (devname.take 31) (1 + i) e.scanned kind).dev = devname.take 31 := hdev
        exact write_covers hcdev hname (by rw [hlbas]; omega) (by rw [hstart, hlbas]; exact hinside)
          hmap' hsz hw

theorem scans_right_iff_one_partition :
    tableOn onePartition 1 = some [.primary 1 1] ∧
      (ScansRight onePartition 1 [.primary 1 1] ↔
        ∀ e ∈ [TableEntry.primary 1 1], e.Inside (onePartition.size / 512)) := by
  have ht : tableOn onePartition 1 = some [.primary 1 1] := by decide +kernel
  exact ⟨ht, scans_right_iff ht⟩

/-- A disk of eight sectors with an MBR whose partition begins at sector 4 and has a hundred. -/
def pastEnd : Disk :=
  { onePartition with
    bytes := (((Mem.zero.wr8 450 0x83).wr32 454 4).wr32 458 100).wr16 510 0xAA55 }

/-- Its child covers sectors that the disk does not have. -/
theorem child_past_disk_end :
    tableOn pastEnd 1 = some [.primary 4 100] ∧ ¬ ScansRight pastEnd 1 [.primary 4 100] := by
  refine ⟨by decide +kernel, ?_⟩
  intro h
  have hscan : diskScanPartitions (alone pastEnd) [aloneDev pastEnd] [100] 1 =
      some [aloneDev pastEnd, childOf (aloneDev pastEnd) [100] 1 (4, 103) mbrKind] := by
    decide +kernel
  have hr := h (alone pastEnd) [aloneDev pastEnd] _ [100] 0 (by decide) rfl (by rfl) rfl hscan
    (childOf (aloneDev pastEnd) [100] 1 (4, 103) mbrKind) (by decide +kernel) (by decide +kernel)
  have hin : 4 + 100 ≤ 8 := hr.inside
  omega

end Guppy.Block
