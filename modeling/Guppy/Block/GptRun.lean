import Guppy.Block.Gpt
import Guppy.Block.Range

set_option autoImplicit false

/-! # The two copies of a GPT

After `gpt init` on a disk of at least 68 sectors and any sequence of `gpt add` commands, the
primary and the backup table agree, their checksums are right, the used entries are disjoint
ranges inside the usable area, and the partition scanner accepts both copies.

What carries the induction is `Tables`: two headers with the fixed fields of a fresh table, one
array of entries, and where each of them is on the disk. A header matters only through its
fields and its two checksums, so writing a checksum keeps the rest.
-/

namespace Guppy.Block

open Vfs Prog

/-! ## Checksums -/

theorem xor_lt {a b : Nat} (ha : a < uint32) (hb : b < uint32) : a ^^^ b < uint32 :=
  Nat.xor_lt_two_pow (n := 32) ha hb

theorem crcEntry_lt {i : Nat} (h : i < uint32) : crcEntry i < uint32 := by
  unfold crcEntry
  refine List.foldlRecOn (motive := fun c => c < uint32) (List.range 8) _ h ?_
  intro c hc j _
  have h32 : uint32 = 4294967296 := rfl
  split
  · exact xor_lt (by decide) (by omega)
  · omega

theorem crcFrom_lt {p : Mem} (count : Nat) : ∀ {i c : Nat}, c < uint32 → crcFrom p count i c < uint32 := by
  induction count with
  | zero =>
      intro i c h
      exact h
  | succ count ih =>
      intro i c h
      have h32 : uint32 = 4294967296 := rfl
      exact ih (xor_lt (crcEntry_lt (by omega)) (by omega))

theorem crc32Calc_lt (p : Mem) (len : Nat) : crc32Calc p len < uint32 :=
  xor_lt (crcFrom_lt len (by decide)) (by decide)

theorem crcFrom_congr {p q : Mem} (count : Nat) : ∀ {i c : Nat},
    (∀ j, i ≤ j → j < i + count → p j = q j) → crcFrom p count i c = crcFrom q count i c := by
  induction count with
  | zero =>
      intro i c _
      rfl
  | succ count ih =>
      intro i c h
      unfold crcFrom
      rw [h i (le_refl _) (by omega)]
      exact ih (fun j h₁ h₂ => h j (by omega) (by omega))

/-- A checksum depends on the bytes it is over. -/
theorem crc32Calc_congr {p q : Mem} {len : Nat} (h : ∀ i, i < len → p i = q i) :
    crc32Calc p len = crc32Calc q len := by
  unfold crc32Calc
  rw [crcFrom_congr len (fun j _ hj => h j (by omega))]

theorem gptHeaderCrc_congr {p q : Mem} {len : Nat} (h : ∀ i, i < len → p i = q i) :
    gptHeaderCrc p len = gptHeaderCrc q len := by
  refine crc32Calc_congr (fun i hi => ?_)
  unfold Mem.write
  split
  · rfl
  · exact h i hi

/-! ## Headers -/

/-- The fields of a header of a table that `gpt init` made on a disk of `total` sectors. -/
structure HdrFields (h : GptHdr) (total current backup entries : Nat) (guid : Mem) : Prop where
  short : ∀ i, GptHdr.size ≤ i → h i = 0
  signature : h.toList 0 8 = GptHdr.signature
  headerSize : h.headerSize = 92
  currentLba : h.currentLba = current
  backupLba : h.backupLba = backup
  firstUsableLba : h.firstUsableLba = 34
  lastUsableLba : h.lastUsableLba = total - 34
  guid : h.slice 56 16 = guid
  entriesLba : h.entriesLba = entries
  numEntries : h.numEntries = 128
  entrySize : h.entrySize = 128

/-- Both checksums of a header are right. -/
structure Sealed (h : GptHdr) (ents : Mem) : Prop where
  entries : h.entriesCrc = crc32Calc ents entriesBytes
  header : h.headerCrc = gptHeaderCrc h 92

section Headers

variable {h : GptHdr} {total current backup entries : Nat} {guid : Mem}

theorem HdrFields.bytes (hf : HdrFields h total current backup entries guid) :
    h.numEntries * h.entrySize = entriesBytes := by
  rw [hf.numEntries, hf.entrySize]
  rfl

/-- Writing a checksum leaves the other fields alone. -/
theorem HdrFields.wr32 (hf : HdrFields h total current backup entries guid) {o v : Nat}
    (ho : o = 16 ∨ o = 88) : HdrFields (h.wr32 o v) total current backup entries guid := by
  have hout : ∀ {i : Nat}, i < o ∨ o + 4 ≤ i → h.wr32 o v i = h i := fun hi => Mem.write_out hi
  refine ⟨?_, ?_, ?_, ?_, ?_, ?_, ?_, ?_, ?_, ?_, ?_⟩
  · intro i hi
    have hsize : GptHdr.size = 92 := rfl
    rw [hout (by omega)]
    exact hf.short i hi
  · rw [← hf.signature]
    exact Mem.toList_congr (fun i hi => hout (by omega))
  · rw [← hf.headerSize]
    exact Mem.rd32_write_out (by omega)
  · rw [← hf.currentLba]
    exact Mem.rd64_write_out (by omega)
  · rw [← hf.backupLba]
    exact Mem.rd64_write_out (by omega)
  · rw [← hf.firstUsableLba]
    exact Mem.rd64_write_out (by omega)
  · rw [← hf.lastUsableLba]
    exact Mem.rd64_write_out (by omega)
  · rw [← hf.guid]
    exact Mem.slice_write_out (by omega)
  · rw [← hf.entriesLba]
    exact Mem.rd64_write_out (by omega)
  · rw [← hf.numEntries]
    exact Mem.rd32_write_out (by omega)
  · rw [← hf.entrySize]
    exact Mem.rd32_write_out (by omega)

/-- The header that is written for an array of entries: the same fields, and right checksums. -/
theorem HdrFields.update (hf : HdrFields h total current backup entries guid) (ents : Mem) :
    HdrFields (gptUpdateHeaderCrc (gptUpdateEntriesCrc h ents)) total current backup entries guid ∧
      Sealed (gptUpdateHeaderCrc (gptUpdateEntriesCrc h ents)) ents := by
  have hf₁ : HdrFields (gptUpdateEntriesCrc h ents) total current backup entries guid :=
    hf.wr32 (Or.inr rfl)
  have h32 : uint32 = 4294967296 := rfl
  refine ⟨(hf₁.wr32 (Or.inl rfl)).wr32 (Or.inl rfl), ?_, ?_⟩
  · have hcrc := crc32Calc_lt ents entriesBytes
    show ((((h.wr32 88 _).wr32 16 0).wr32 16 _).rd32 88) = _
    unfold Mem.wr32
    rw [Mem.rd32_write_out (by omega), Mem.rd32_write_out (by omega)]
    show (h.wr32 88 _).rd32 88 = _
    rw [Mem.rd32_wr32_self, hf.bytes]
    exact Nat.mod_eq_of_lt hcrc
  · have hsize : (gptUpdateEntriesCrc h ents).headerSize = 92 := hf₁.headerSize
    unfold gptUpdateHeaderCrc
    rw [hsize]
    show (((gptUpdateEntriesCrc h ents).wr32 16 0).wr32 16 _).rd32 16 = _
    have hlt : gptHeaderCrc ((gptUpdateEntriesCrc h ents).wr32 16 0) 92 < uint32 := crc32Calc_lt _ _
    rw [Mem.rd32_wr32_self, ← h32, Nat.mod_eq_of_lt hlt]
    -- the checksum field itself does not count
    refine crc32Calc_congr (fun i _ => ?_)
    by_cases hi : 16 ≤ i ∧ i < 16 + 4
    · rw [Mem.write_in hi.1 hi.2, Mem.write_in hi.1 hi.2]
    · rw [Mem.write_out (by omega), Mem.write_out (by omega)]
      exact (Mem.write_out (by omega)).symm

end Headers

/-! ## Reading and writing a copy -/

theorem guard_bind {α : Type} {c : Prop} [Decidable c] (h : c) (f : Unit → Option α) :
    (guard c >>= f) = f () := by
  unfold guard
  rw [if_pos h]
  rfl

theorem some_bind {α β : Type} (a : α) (f : α → Option β) : (some a >>= f) = f a := rfl

theorem entriesBytes_max : entriesBytes ≠ 0 ∧ entriesBytes ≤ entriesMaxBytes := by
  unfold entriesBytes entriesMaxBytes
  omega

/-- A header and the entries it points to are on a disk. -/
structure OnDisk (k : Disk) (h : GptHdr) (ents : Mem) (current entries : Nat) : Prop where
  header : k.bytes.slice (current * 512) 92 = h
  array : k.bytes.slice (entries * 512) entriesBytes = ents

section Copy

variable {k : Disk} {h : GptHdr} {ents : Mem} {current backup entries : Nat} {guid : Mem}

theorem Disk.read_of_le {off len : Nat} (hle : off + len ≤ k.size) :
    k.read off len = some (k.bytes.slice off len) := if_pos (by omega)

theorem mul_lsec_mod {lba len : Nat} (hle : lba * 512 + len ≤ k.size) : lba * lsec % uint64 = lba * 512 := by
  have := k.size_lt
  exact Nat.mod_eq_of_lt (by unfold lsec; omega)

/-- The fields pass the checks that all readers of a header make. -/
theorem HdrFields.fieldsOk (hf : HdrFields h (k.size / 512) current backup entries guid)
    (hc : current < k.size / 512) (hb : backup < k.size / 512) (he : entries < k.size / 512) :
    gptFieldsOk h (k.size / 512) = true := by
  unfold gptFieldsOk
  rw [decide_eq_true_eq, hf.headerSize, hf.entrySize, hf.numEntries, hf.currentLba, hf.backupLba,
    hf.lastUsableLba, hf.entriesLba]
  unfold gptEntSize
  omega

/-- What the checks of a reader see of a header sector is the header. -/
theorem OnDisk.sector (hd : OnDisk k h ents current entries) :
    (k.bytes.slice (current * 512) 512).slice 0 GptHdr.size = h ∧
      ∀ i, i < 92 → k.bytes.slice (current * 512) 512 i = h i := by
  constructor
  · rw [Mem.slice_slice (by decide), Nat.add_zero]
    exact hd.header
  · intro i hi
    rw [← hd.header, Mem.slice_in (by omega), Mem.slice_in hi]

/-- A sealed header on the disk is read. -/
theorem OnDisk.readHeader (hd : OnDisk k h ents current entries)
    (hf : HdrFields h (k.size / 512) current backup entries guid) (hs : Sealed h ents)
    (hc : current < k.size / 512) (hb : backup < k.size / 512) (he : entries < k.size / 512) :
    gptReadHeader k current (k.size / lsec) = some h := by
  have hoff : current * 512 + 512 ≤ k.size := by omega
  obtain ⟨hslice, hbytes⟩ := hd.sector
  have hsig : (k.bytes.slice (current * 512) 512).toList 0 8 = GptHdr.signature := by
    rw [← hf.signature]
    exact Mem.toList_congr (fun i hi => by rw [Nat.zero_add]; exact hbytes i (by omega))
  unfold gptReadHeader
  rw [mul_lsec_mod hoff]
  unfold lsec
  rw [Disk.read_of_le hoff, some_bind, guard_bind hsig, hslice]
  dsimp only []
  have hbuf : headerBytes k current (k.bytes.slice (current * 512) 512) 92 =
      some (k.bytes.slice (current * 512) 512) := if_pos (by omega)
  have hcrc : gptHeaderCrc (k.bytes.slice (current * 512) 512) 92 = h.headerCrc := by
    rw [gptHeaderCrc_congr hbytes, hs.header]
  rw [guard_bind (hf.fieldsOk hc hb he), hf.headerSize, hbuf, some_bind, guard_bind hcrc]

theorem OnDisk.readEntries (hd : OnDisk k h ents current entries)
    (hf : HdrFields h (k.size / 512) current backup entries guid) (hs : Sealed h ents)
    (he : entries * 512 + entriesBytes ≤ k.size) : gptReadEntries k h = some ents := by
  have hread : k.read (entries * 512) entriesBytes = some ents := by
    rw [← hd.array]
    exact Disk.read_of_le he
  unfold gptReadEntries
  rw [hf.bytes, hf.entriesLba, hs.entries, mul_lsec_mod he]
  dsimp only []
  rw [guard_bind entriesBytes_max, hread, some_bind, guard_bind rfl]

theorem aloneDev_readBytes {off len : Nat} (hle : off + len ≤ k.size / 512 * 512) (hpos : 0 < len) :
    vblkReadBytes (alone k) (aloneDev k) off len = some (k.bytes.slice off len) := by
  have hsize := k.size_lt
  have hround := Nat.div_mul_le_self k.size 512
  have hlimit : vblkLimitBytes (aloneDev k) = k.size / 512 * 512 := by
    have hlba : (aloneDev k).lbaSize = k.size / 512 := rfl
    unfold vblkLimitBytes lsec
    rw [hlba, if_neg (by omega), Nat.mod_eq_of_lt (by omega)]
  have habs : absOff (aloneDev k) off = off := by
    have hstart : (aloneDev k).lbaStart = 0 := rfl
    unfold absOff
    rw [hstart, Nat.zero_mul, Nat.zero_add, Nat.mod_eq_of_lt (by omega)]
  have hkey : vblkBackingKey (aloneDev k) = [100] := rfl
  unfold vblkReadBytes diskioPread
  rw [hlimit, if_neg (by omega), hkey, mapFind_alone, habs]
  exact Disk.read_of_le (by omega)

theorem aloneDev_readBlock {lba : Nat} (hlt : lba < k.size / 512) :
    vblkReadBlock (alone k) (aloneDev k) lba = some (k.bytes.slice (lba * 512) 512) := by
  have hsize := k.size_lt
  have hround := Nat.div_mul_le_self k.size 512
  have h64 : uint64 = 18446744073709551616 := rfl
  show (if (uint64 - 1) / lsec < lba then none
    else vblkReadBytes (alone k) (aloneDev k) (lba * lsec) lsec) = _
  unfold lsec
  rw [if_neg (by omega)]
  exact aloneDev_readBytes (by by_contra hge; omega) (by omega)

/-- The partition scanner accepts a sealed header on the disk. -/
theorem OnDisk.validate (hd : OnDisk k h ents current entries)
    (hf : HdrFields h (k.size / 512) current backup entries guid) (hs : Sealed h ents)
    (hc : current < k.size / 512) (hb : backup < k.size / 512)
    (he : entries * 512 + entriesBytes ≤ k.size / 512 * 512) :
    gptValidateAt (alone k) (aloneDev k) (k.size / 512) current = some h := by
  have hround := Nat.div_mul_le_self k.size 512
  have hsize := k.size_lt
  obtain ⟨hslice, hbytes⟩ := hd.sector
  have hsig : (k.bytes.slice (current * 512) 512).toList 0 8 = GptHdr.signature := by
    rw [← hf.signature]
    exact Mem.toList_congr (fun i hi => by rw [Nat.zero_add]; exact hbytes i (by omega))
  have hread : vblkReadBytes (alone k) (aloneDev k) (entries * 512) entriesBytes = some ents := by
    rw [← hd.array]
    exact aloneDev_readBytes he (Nat.pos_of_ne_zero entriesBytes_max.1)
  have hfit : gptEntriesFit h (k.size / 512) = true := by
    unfold gptEntriesFit lsec
    rw [hf.bytes, hf.entriesLba, decide_eq_true_eq]
    refine ⟨entriesBytes_max.1, entriesBytes_max.2, Or.inr ?_⟩
    rw [Nat.mod_eq_of_lt (by by_contra hge; omega), Nat.mod_eq_of_lt (by by_contra hge; omega)]
    exact he
  have hpos : 0 < entriesBytes := Nat.pos_of_ne_zero entriesBytes_max.1
  unfold gptValidateAt
  rw [aloneDev_readBlock hc, some_bind, guard_bind hsig, hslice]
  dsimp only []
  have hbuf : gptHdrBuf (alone k) (aloneDev k) current (k.bytes.slice (current * 512) 512) 92 =
      some (k.bytes.slice (current * 512) 512) := if_pos (by omega)
  have hcrc : gptHeaderCrc (k.bytes.slice (current * 512) 512) 92 = h.headerCrc := by
    rw [gptHeaderCrc_congr hbytes, hs.header]
  rw [guard_bind (hf.fieldsOk hc hb (by omega)), hf.headerSize, hbuf, some_bind, guard_bind hcrc,
    guard_bind hfit, hf.bytes,
    hf.entriesLba, mul_lsec_mod (k := k) (le_trans he hround), hread,
    some_bind, guard_bind hs.entries.symm]

theorem pwriteBytes_of_le {s : GptState} {off len : Nat} {src : Mem} (hw : s.disk.writable = true)
    (hle : off + len ≤ s.disk.size) :
    pwriteBytes off len src s =
      .ok () { s with disk := { s.disk with bytes := s.disk.bytes.write off len src } } := by
  have := s.disk.size_lt
  unfold pwriteBytes
  rw [Nat.mod_eq_of_lt (by omega)]
  unfold Disk.write
  rw [if_pos ⟨hw, by omega⟩]

/-- The bytes of a disk after a copy of the table has been written. -/
def copyBytes (p : Mem) (h : GptHdr) (ents : Mem) (current entries : Nat) : Mem :=
  (p.write (entries * 512) entriesBytes ents).write (current * 512) 512 (h.slice 0 GptHdr.size)

theorem gptWrite_eq {s : GptState} {total : Nat} (hf : HdrFields h total current backup entries guid)
    (hw : s.disk.writable = true) (hc : current * 512 + 512 ≤ s.disk.size)
    (he : entries * 512 + entriesBytes ≤ s.disk.size) :
    gptWrite h ents s = .ok () { s with disk :=
      { s.disk with bytes := copyBytes s.disk.bytes h ents current entries } } := by
  unfold gptWrite
  rw [hf.entriesLba, hf.bytes, hf.currentLba]
  unfold lsec pwriteLba512 lsec
  rw [bind_of_ok (pwriteBytes_of_le hw he)]
  exact pwriteBytes_of_le hw hc

end Copy

/-! ## Entries -/

/-- The used entries are disjoint ranges of sectors between `first` and `last`. -/
structure EntsOk (ents : Mem) (first last : Nat) : Prop where
  inside : ∀ i, i < entriesMax → entEmpty ents (i * entryBytes) = false →
    first ≤ entFirstLba ents (i * entryBytes) ∧
      entFirstLba ents (i * entryBytes) ≤ entLastLba ents (i * entryBytes) ∧
      entLastLba ents (i * entryBytes) ≤ last
  disjoint : ∀ i j, i < entriesMax → j < entriesMax → i ≠ j →
    entEmpty ents (i * entryBytes) = false → entEmpty ents (j * entryBytes) = false →
    entLastLba ents (i * entryBytes) < entFirstLba ents (j * entryBytes) ∨
      entLastLba ents (j * entryBytes) < entFirstLba ents (i * entryBytes)

/-- Used entries are as they were. -/
def Keeps (ents ents' : Mem) : Prop :=
  ∀ i, i < entriesMax → entEmpty ents (i * entryBytes) = false →
    ents'.slice (i * entryBytes) entryBytes = ents.slice (i * entryBytes) entryBytes

theorem Keeps.refl (ents : Mem) : Keeps ents ents := fun _ _ _ => rfl

theorem entEmpty_zero (o : Nat) : entEmpty Mem.zero o = true := by
  unfold entEmpty Mem.toList
  simp

theorem entsOk_zero (first last : Nat) : EntsOk Mem.zero first last := by
  constructor
  · intro i _ hused
    rw [entEmpty_zero] at hused
    cases hused
  · intro i j _ _ _ hused
    rw [entEmpty_zero] at hused
    cases hused

section Add

variable {ents e : Mem} {idx first last : Nat}

/-- The array with the entry `idx` replaced. -/
def putEntry (ents : Mem) (idx : Nat) (e : Mem) : Mem := ents.write (idx * entryBytes) entryBytes e

theorem putEntry_out {i j : Nat} (hi : i ≠ idx) (hj : j < entryBytes) :
    putEntry ents idx e (i * entryBytes + j) = ents (i * entryBytes + j) := by
  have hbytes : entryBytes = 128 := rfl
  refine Mem.write_out ?_
  rw [hbytes] at hj ⊢
  omega

theorem putEntry_empty {i : Nat} (hi : i ≠ idx) :
    entEmpty (putEntry ents idx e) (i * entryBytes) = entEmpty ents (i * entryBytes) := by
  unfold entEmpty
  rw [Mem.toList_congr (q := ents)]
  intro j hj
  exact putEntry_out hi (lt_trans hj (by decide))

theorem putEntry_first {i : Nat} (hi : i ≠ idx) :
    entFirstLba (putEntry ents idx e) (i * entryBytes) = entFirstLba ents (i * entryBytes) := by
  unfold entFirstLba
  refine Mem.rd64_congr (fun j hj => ?_)
  rw [Nat.add_assoc]
  exact putEntry_out hi (by unfold entryBytes; omega)

theorem putEntry_last {i : Nat} (hi : i ≠ idx) :
    entLastLba (putEntry ents idx e) (i * entryBytes) = entLastLba ents (i * entryBytes) := by
  unfold entLastLba
  refine Mem.rd64_congr (fun j hj => ?_)
  rw [Nat.add_assoc]
  exact putEntry_out hi (by unfold entryBytes; omega)

theorem putEntry_keeps (hfree : entEmpty ents (idx * entryBytes) = true) : Keeps ents (putEntry ents idx e) := by
  intro i _ hused
  have hi : i ≠ idx := by
    rintro rfl
    rw [hfree] at hused
    cases hused
  funext j
  unfold Mem.slice
  split
  · exact putEntry_out hi (by assumption)
  · rfl

theorem newEntry_first {typeGuid name : Text} {guid : Mem} (h : first < uint64) :
    entFirstLba (putEntry ents idx (newEntry typeGuid guid name first last)) (idx * entryBytes) = first := by
  have hrd : (newEntry typeGuid guid name first last).rd64 32 = first := by
    unfold newEntry
    rw [Mem.rd64_write_out (by omega)]
    unfold Mem.wr64
    rw [Mem.rd64_write_out (by omega)]
    show (Mem.wr64 _ 32 first).rd64 32 = first
    rw [Mem.rd64_wr64_self]
    exact Nat.mod_eq_of_lt h
  have hbytes : entryBytes = 128 := rfl
  unfold entFirstLba putEntry
  rw [Mem.rd64_write_in (by omega) (by omega), Nat.add_sub_cancel_left, hrd]

theorem newEntry_last {typeGuid name : Text} {guid : Mem} (h : last < uint64) :
    entLastLba (putEntry ents idx (newEntry typeGuid guid name first last)) (idx * entryBytes) = last := by
  have hrd : (newEntry typeGuid guid name first last).rd64 40 = last := by
    unfold newEntry
    rw [Mem.rd64_write_out (by omega), Mem.rd64_wr64_self]
    exact Nat.mod_eq_of_lt h
  have hbytes : entryBytes = 128 := rfl
  unfold entLastLba putEntry
  rw [Mem.rd64_write_in (by omega) (by omega), Nat.add_sub_cancel_left, hrd]

/-- A new entry for a range that overlaps no used one. -/
theorem EntsOk.add {lo hi : Nat} {typeGuid name : Text} {guid : Mem} (h : EntsOk ents lo hi)
    (hlo : lo ≤ first) (hle : first ≤ last) (hhi : last ≤ hi) (h64 : hi < uint64)
    (hover : ∀ i, i < entriesMax → entOverlaps ents first last (i * entryBytes) = false) :
    EntsOk (putEntry ents idx (newEntry typeGuid guid name first last)) lo hi := by
  have hfirst := @newEntry_first ents idx first last typeGuid name guid (by omega)
  have hlast := @newEntry_last ents idx first last typeGuid name guid (by omega)
  have hsep : ∀ i, i < entriesMax → entEmpty ents (i * entryBytes) = false →
      last < entFirstLba ents (i * entryBytes) ∨ entLastLba ents (i * entryBytes) < first := by
    intro i hi hused
    have := hover i hi
    unfold entOverlaps at this
    rw [decide_eq_false_iff_not] at this
    by_contra hno
    exact this ⟨hused, by omega, by omega⟩
  constructor
  · intro i hi hused
    by_cases hidx : i = idx
    · rw [hidx, hfirst, hlast]
      exact ⟨hlo, hle, hhi⟩
    · rw [putEntry_empty hidx] at hused
      rw [putEntry_first hidx, putEntry_last hidx]
      exact h.inside i hi hused
  · intro i j hi hj hij hiu hju
    by_cases hidx : i = idx
    · have hjdx : j ≠ idx := fun hj => hij (hidx.trans hj.symm)
      rw [putEntry_empty hjdx] at hju
      rw [hidx, hfirst, hlast, putEntry_first hjdx, putEntry_last hjdx]
      exact hsep j hj hju
    · rw [putEntry_empty hidx] at hiu
      rw [putEntry_first hidx, putEntry_last hidx]
      by_cases hjdx : j = idx
      · rw [hjdx, hfirst, hlast]
        exact (hsep i hi hiu).symm
      · rw [putEntry_empty hjdx] at hju
        rw [putEntry_first hjdx, putEntry_last hjdx]
        exact h.disjoint i j hi hj hij hiu hju

end Add

/-! ## The invariant -/

/-- Both copies of a table are on the disk: headers `hp` and `hb`, and one array of entries. -/
structure Tables (k : Disk) (hp hb : GptHdr) (ents guid : Mem) : Prop where
  writable : k.writable = true
  sectors : 68 ≤ k.size / 512
  primary : HdrFields hp (k.size / 512) 1 (k.size / 512 - 1) 2 guid
  backup : HdrFields hb (k.size / 512) (k.size / 512 - 1) 1 (k.size / 512 - 33) guid
  primarySealed : Sealed hp ents
  backupSealed : Sealed hb ents
  primaryOn : OnDisk k hp ents 1 2
  backupOn : OnDisk k hb ents (k.size / 512 - 1) (k.size / 512 - 33)
  entries : EntsOk ents 34 (k.size / 512 - 34)

section Tables

variable {k : Disk} {hp hb : GptHdr} {ents guid : Mem}

theorem slice_short {p : Mem} {len : Nat} (h : ∀ i, len ≤ i → p i = 0) : p.slice 0 len = p := by
  funext i
  unfold Mem.slice
  split
  · rw [Nat.zero_add]
  · exact (h i (by omega)).symm

/-- A disk with both copies written. -/
def withCopies (k : Disk) (hp hb : GptHdr) (ents : Mem) : Disk :=
  let total := k.size / 512
  { k with bytes := copyBytes (copyBytes k.bytes hp ents 1 2) hb ents (total - 1) (total - 33) }

/-- Writing two sealed copies puts both on the disk. -/
theorem tables_of_copies (hw : k.writable = true) (h68 : 68 ≤ k.size / 512)
    (hfp : HdrFields hp (k.size / 512) 1 (k.size / 512 - 1) 2 guid)
    (hfb : HdrFields hb (k.size / 512) (k.size / 512 - 1) 1 (k.size / 512 - 33) guid)
    (hsp : Sealed hp ents) (hsb : Sealed hb ents) (he : EntsOk ents 34 (k.size / 512 - 34))
    (hshort : ∀ i, entriesBytes ≤ i → ents i = 0) :
    Tables (withCopies k hp hb ents) hp hb ents guid := by
  unfold withCopies
  have hEB : entriesBytes = 16384 := rfl
  have hents := slice_short hshort
  -- the four areas, in the order 1, 2, ..., total - 33, ..., total - 1, do not overlap
  generalize hT : k.size / 512 = total at *
  refine ⟨hw, by simp only [hT]; exact h68, by simp only [hT]; exact hfp, by simp only [hT]; exact hfb,
    hsp, hsb, ⟨?_, ?_⟩, ⟨?_, ?_⟩, by simp only [hT]; exact he⟩
  · show (copyBytes (copyBytes k.bytes hp ents 1 2) hb ents _ _).slice (1 * 512) 92 = hp
    unfold copyBytes
    rw [Mem.slice_write_out (by omega), Mem.slice_write_out (by omega),
      Mem.slice_write_in (by omega) (by omega), Nat.sub_self, slice_short hfp.short]
    exact slice_short hfp.short
  · show (copyBytes (copyBytes k.bytes hp ents 1 2) hb ents _ _).slice (2 * 512) entriesBytes = ents
    unfold copyBytes
    rw [Mem.slice_write_out (by omega), Mem.slice_write_out (by omega), Mem.slice_write_out (by omega),
      Mem.slice_write_in (by omega) (by omega), Nat.sub_self]
    exact hents
  · show (copyBytes (copyBytes k.bytes hp ents 1 2) hb ents _ _).slice ((k.size / 512 - 1) * 512) 92 = hb
    rw [hT]
    unfold copyBytes
    rw [Mem.slice_write_in (by omega) (by omega), Nat.sub_self, slice_short hfb.short]
    exact slice_short hfb.short
  · show (copyBytes (copyBytes k.bytes hp ents 1 2) hb ents _ _).slice ((k.size / 512 - 33) * 512)
      entriesBytes = ents
    rw [hT]
    unfold copyBytes
    rw [Mem.slice_write_out (by omega), Mem.slice_write_in (by omega) (by omega), Nat.sub_self]
    exact hents

/-- What the two writes at the end of `gpt init` and `gpt add` do. -/
theorem writeCopies {s : GptState} (hw : s.disk.writable = true) (h35 : 35 ≤ s.disk.size / 512)
    (hfp : HdrFields hp (s.disk.size / 512) 1 (s.disk.size / 512 - 1) 2 guid)
    (hfb : HdrFields hb (s.disk.size / 512) (s.disk.size / 512 - 1) 1 (s.disk.size / 512 - 33) guid) :
    (gptWrite hp ents >>= fun _ => gptWrite hb ents) s =
      .ok () { s with disk := withCopies s.disk hp hb ents } := by
  have hEB : entriesBytes = 16384 := rfl
  rw [bind_of_ok (gptWrite_eq hfp hw (by omega) (by omega))]
  exact gptWrite_eq hfb hw
    (show (s.disk.size / 512 - 1) * 512 + 512 ≤ s.disk.size by omega)
    (show (s.disk.size / 512 - 33) * 512 + entriesBytes ≤ s.disk.size by omega)

end Tables

/-! ## `gpt init` -/

theorem freshHeader_fields {total : Nat} {guid : Mem} (h64 : total < uint64) :
    HdrFields (freshHeader total guid) total 1 (total - 1) 2 (guid.slice 0 16) := by
  unfold uint64 at h64
  unfold freshHeader Mem.wr32 Mem.wr64
  refine ⟨?_, ?_, ?_, ?_, ?_, ?_, ?_, ?_, ?_, ?_, ?_⟩
  · intro i hi
    have hsize : GptHdr.size = 92 := rfl
    iterate 11 rw [Mem.write_out (by omega)]
    rfl
  · -- the signature is written first, below everything else
    have hbytes : ∀ i, i < 8 → freshHeader total guid i = Mem.ofList GptHdr.signature i := by
      intro i hi
      unfold freshHeader Mem.wr32 Mem.wr64
      iterate 10 rw [Mem.write_out (by omega)]
      exact Mem.write_in (by omega) (by omega)
    calc (freshHeader total guid).toList 0 8 = (Mem.ofList GptHdr.signature).toList 0 8 := by
          apply Mem.toList_congr
          intro i hi
          rw [Nat.zero_add]
          exact hbytes i hi
      _ = GptHdr.signature := Mem.toList_ofList GptHdr.signature
  · unfold GptHdr.headerSize
    iterate 8 rw [Mem.rd32_write_out (by omega)]
    rw [Mem.rd32_write_in (by omega) (by omega), Nat.sub_self, Mem.rd32_le]
  · unfold GptHdr.currentLba
    iterate 7 rw [Mem.rd64_write_out (by omega)]
    rw [Mem.rd64_write_in (by omega) (by omega), Nat.sub_self, Mem.rd64_le]
  · unfold GptHdr.backupLba
    iterate 6 rw [Mem.rd64_write_out (by omega)]
    rw [Mem.rd64_write_in (by omega) (by omega), Nat.sub_self, Mem.rd64_le, Nat.mod_eq_of_lt (by omega)]
  · unfold GptHdr.firstUsableLba
    iterate 5 rw [Mem.rd64_write_out (by omega)]
    rw [Mem.rd64_write_in (by omega) (by omega), Nat.sub_self, Mem.rd64_le]
  · unfold GptHdr.lastUsableLba
    iterate 4 rw [Mem.rd64_write_out (by omega)]
    rw [Mem.rd64_write_in (by omega) (by omega), Nat.sub_self, Mem.rd64_le, Nat.mod_eq_of_lt (by omega)]
  · iterate 3 rw [Mem.slice_write_out (by omega)]
    rw [Mem.slice_write_in (by omega) (by omega), Nat.sub_self]
  · unfold GptHdr.entriesLba
    iterate 2 rw [Mem.rd64_write_out (by omega)]
    rw [Mem.rd64_write_in (by omega) (by omega), Nat.sub_self, Mem.rd64_le]
  · unfold GptHdr.numEntries
    rw [Mem.rd32_write_out (by omega), Mem.rd32_write_in (by omega) (by omega), Nat.sub_self, Mem.rd32_le]
    rfl
  · unfold GptHdr.entrySize
    rw [Mem.rd32_write_in (by omega) (by omega), Nat.sub_self, Mem.rd32_le]
    rfl

/-- The backup header: the primary one with the three places that differ. -/
theorem HdrFields.toBackup {h : GptHdr} {total : Nat} {guid : Mem}
    (hf : HdrFields h total 1 (total - 1) 2 guid) (h64 : total < uint64) :
    HdrFields (((h.wr64 24 (total - 1)).wr64 32 1).wr64 72 (total - 1 - entriesSectors)) total (total - 1)
      1 (total - 33) guid := by
  have hes : entriesSectors = 32 := rfl
  unfold uint64 at h64
  unfold Mem.wr64
  refine ⟨?_, ?_, ?_, ?_, ?_, ?_, ?_, ?_, ?_, ?_, ?_⟩
  · intro i hi
    have hsize : GptHdr.size = 92 := rfl
    iterate 3 rw [Mem.write_out (by omega)]
    exact hf.short i hi
  · rw [← hf.signature]
    refine Mem.toList_congr (fun i hi => ?_)
    iterate 3 rw [Mem.write_out (by omega)]
  · rw [← hf.headerSize]
    unfold GptHdr.headerSize
    iterate 3 rw [Mem.rd32_write_out (by omega)]
  · unfold GptHdr.currentLba
    iterate 2 rw [Mem.rd64_write_out (by omega)]
    rw [Mem.rd64_write_in (by omega) (by omega), Nat.sub_self, Mem.rd64_le, Nat.mod_eq_of_lt (by omega)]
  · unfold GptHdr.backupLba
    rw [Mem.rd64_write_out (by omega), Mem.rd64_write_in (by omega) (by omega), Nat.sub_self, Mem.rd64_le]
  · rw [← hf.firstUsableLba]
    unfold GptHdr.firstUsableLba
    iterate 3 rw [Mem.rd64_write_out (by omega)]
  · rw [← hf.lastUsableLba]
    unfold GptHdr.lastUsableLba
    iterate 3 rw [Mem.rd64_write_out (by omega)]
  · rw [← hf.guid]
    iterate 3 rw [Mem.slice_write_out (by omega)]
  · unfold GptHdr.entriesLba
    rw [Mem.rd64_write_in (by omega) (by omega), Nat.sub_self, Mem.rd64_le, Nat.mod_eq_of_lt (by omega)]
    omega
  · rw [← hf.numEntries]
    unfold GptHdr.numEntries
    iterate 3 rw [Mem.rd32_write_out (by omega)]
  · rw [← hf.entrySize]
    unfold GptHdr.entrySize
    iterate 3 rw [Mem.rd32_write_out (by omega)]

/-- The disk is as large, and as writable, as it was. -/
def SameDisk (s s' : GptState) : Prop :=
  s'.disk.size = s.disk.size ∧ s'.disk.writable = s.disk.writable

theorem pwriteBytes_left (off len : Nat) (src : Mem) (s : GptState) :
    SameDisk s (left (pwriteBytes off len src s)) := by
  unfold pwriteBytes Disk.write
  split_ifs
  · exact ⟨rfl, rfl⟩
  · exact ⟨rfl, rfl⟩

theorem pwriteBytes_ok {off len : Nat} {src : Mem} {s s' : GptState}
    (h : pwriteBytes off len src s = .ok () s') : s.disk.writable = true ∧ SameDisk s s' := by
  have hleft := pwriteBytes_left off len src s
  rw [h] at hleft
  refine ⟨?_, hleft⟩
  unfold pwriteBytes Disk.write at h
  split_ifs at h with hw
  · exact hw.1

theorem zeroSectors_ok {lba count : Nat} {s s' : GptState} (h : zeroSectors lba count s = .ok () s') :
    SameDisk s s' := by
  refine forLoop_ok_induct (fun _ _ t => SameDisk s t) ⟨rfl, rfl⟩ ?_ h
  intro i _ t _ t' _ _ ht hrun
  have hleft := pwriteBytes_left (i * lsec) lsec Mem.zero t
  unfold ignore pwriteLba512 at hrun
  cases hw : pwriteBytes (i * lsec) lsec Mem.zero t with
  | ok a u =>
      rw [hw] at hrun hleft
      cases hrun
      exact ⟨hleft.1.trans ht.1, hleft.2.trans ht.2⟩
  | error e u =>
      rw [hw] at hrun hleft
      cases hrun
      exact ⟨hleft.1.trans ht.1, hleft.2.trans ht.2⟩

/-- A successful `gpt init` ends with the two copies of a table without entries. -/
theorem gptCmdInit_writes {s s' : GptState} (h : gptCmdInit s = .ok () s') :
    35 ≤ s.disk.size / 512 ∧ ∃ k hp hb guid, s'.disk = withCopies k hp hb Mem.zero ∧
      k.size = s.disk.size ∧ k.writable = true ∧
      HdrFields hp (k.size / 512) 1 (k.size / 512 - 1) 2 guid ∧
      HdrFields hb (k.size / 512) (k.size / 512 - 1) 1 (k.size / 512 - 33) guid ∧
      Sealed hp Mem.zero ∧ Sealed hb Mem.zero := by
  unfold gptCmdInit at h
  obtain ⟨s₀, _, h0, h⟩ := bind_ok_iff.mp h
  cases h0
  obtain ⟨_, t, hfail, h⟩ := bind_ok_iff.mp h
  have hlarge := (failIf_ok_iff.mp hfail).1
  obtain rfl : s = t := (failIf_ok_iff.mp hfail).2.symm
  have h35 : 35 ≤ s.disk.size / 512 := by
    unfold lsec entriesSectors at hlarge
    omega
  obtain ⟨_, s₁, h₁, h⟩ := bind_ok_iff.mp h
  obtain ⟨_, s₂, h₂, h⟩ := bind_ok_iff.mp h
  obtain ⟨_, s₃, h₃, h⟩ := bind_ok_iff.mp h
  obtain ⟨_, s₄, h₄, h⟩ := bind_ok_iff.mp h
  obtain ⟨guid, s₅, h₅, h⟩ := bind_ok_iff.mp h
  have hdisk : s₅.disk = s₄.disk := by
    cases h₅
    rfl
  obtain ⟨_, s₆, h₆, h⟩ := bind_ok_iff.mp h
  obtain ⟨hw, h6⟩ := pwriteBytes_ok h₆
  have hsize : s₆.disk.size = s.disk.size := by
    rw [h6.1, hdisk, (zeroSectors_ok h₄).1, (zeroSectors_ok h₃).1, (zeroSectors_ok h₂).1,
      (zeroSectors_ok h₁).1]
  have h64 : s₆.disk.size / 512 < uint64 :=
    lt_of_le_of_lt (Nat.div_le_self _ _) s₆.disk.size_lt
  have hT : s.disk.size / lsec = s₆.disk.size / 512 := by rw [hsize]; rfl
  rw [hT] at h
  have hfp := (@freshHeader_fields _ guid h64).update Mem.zero
  have hfb := (hfp.1.toBackup h64).update Mem.zero
  have hw6 : s₆.disk.writable = true := by rw [h6.2]; exact hw
  rw [writeCopies hw6 (by rw [hsize]; exact h35) hfp.1 hfb.1] at h
  cases h
  exact ⟨h35, _, _, _, _, rfl, hsize, hw6, hfp.1, hfb.1, hfp.2, hfb.2⟩

/-- `gpt init` leaves a table without entries. -/
theorem gptCmdInit_tables {s s' : GptState} (h68 : 68 ≤ s.disk.size / 512)
    (h : gptCmdInit s = .ok () s') : ∃ hp hb guid, Tables s'.disk hp hb Mem.zero guid := by
  obtain ⟨-, k, hp, hb, guid, hdisk, hsize, hw, hfp, hfb, hsp, hsb⟩ := gptCmdInit_writes h
  rw [← hsize] at h68
  rw [hdisk]
  exact ⟨hp, hb, guid, tables_of_copies hw h68 hfp hfb hsp hsb (entsOk_zero _ _) (fun _ _ => rfl)⟩

/-! ## `gpt add` -/

theorem left_bind_ask {α β : Type} {f : Disk → Option α} {g : α → Prog GptState β} {s : GptState}
    {P : GptState → Prop} (hnone : P s) (hsome : ∀ a, f s.disk = some a → P (left (g a s))) :
    P (left ((ask f >>= g) s)) := by
  cases hf : f s.disk with
  | none =>
      have hrun : ask f s = .error 0 s := by
        unfold ask
        rw [hf]
      rw [bind_of_error hrun]
      exact hnone
  | some a =>
      have hrun : ask f s = .ok a s := by
        unfold ask
        rw [hf]
      rw [bind_of_ok hrun]
      exact hsome a hf

theorem left_bind_failIf {β : Type} {c : Prop} [Decidable c] {e : Int} {g : Unit → Prog GptState β}
    {s : GptState} {P : GptState → Prop} (hfail : P s) (hgo : ¬ c → P (left (g () s))) :
    P (left ((failIf c e >>= g) s)) := by
  by_cases hc : c
  · rw [bind_of_error (failIf_of hc)]
    exact hfail
  · rw [bind_of_ok (failIf_of_not hc)]
    exact hgo hc

/-- A table whose used entries include those of `ents`, unchanged. -/
def Extends (ents guid : Mem) (s : GptState) : Prop :=
  ∃ hp hb ents', Tables s.disk hp hb ents' guid ∧ Keeps ents ents'

section Adding

variable {s : GptState} {hp hb : GptHdr} {ents guid : Mem}

theorem Tables.extends (h : Tables s.disk hp hb ents guid) : Extends ents guid s :=
  ⟨hp, hb, ents, h, Keeps.refl ents⟩

theorem Tables.readPrimary {k : Disk} (h : Tables k hp hb ents guid) :
    gptReadHeader k 1 (k.size / lsec) = some hp := by
  have := h.sectors
  exact h.primaryOn.readHeader h.primary h.primarySealed (by omega) (by omega) (by omega)

theorem Tables.readBackup {k : Disk} (h : Tables k hp hb ents guid) :
    gptReadHeader k (k.size / 512 - 1) (k.size / lsec) = some hb := by
  have := h.sectors
  exact h.backupOn.readHeader h.backup h.backupSealed (by omega) (by omega) (by omega)

theorem Tables.readEntries {k : Disk} (h : Tables k hp hb ents guid) :
    gptReadEntries k hp = some ents ∧ gptReadEntries k hb = some ents := by
  have := h.sectors
  have hEB : entriesBytes = 16384 := rfl
  exact ⟨h.primaryOn.readEntries h.primary h.primarySealed (by omega),
    h.backupOn.readEntries h.backup h.backupSealed (by omega)⟩

theorem freeEntry_some {h : GptHdr} {idx : Nat} (hn : h.numEntries = 128) (hs : h.entrySize = 128)
    (hfree : freeEntry ents h = some idx) : idx < entriesMax ∧ entEmpty ents (idx * entryBytes) = true := by
  unfold freeEntry at hfree
  have hmem := List.mem_of_find?_eq_some hfree
  have hempty := List.find?_some hfree
  rw [hn, List.mem_range] at hmem
  rw [hs] at hempty
  exact ⟨hmem, hempty⟩

/-- The writes of `gpt add`, for a free entry and a range that overlaps no used one. -/
theorem Tables.add (h : Tables s.disk hp hb ents guid) {typeGuid name : Text} {e : Mem}
    {idx first last : Nat} (hidx : idx < entriesMax) (hfree : entEmpty ents (idx * entryBytes) = true)
    (hlo : 34 ≤ first) (hle : first ≤ last) (hhi : last ≤ s.disk.size / 512 - 34)
    (hover : ∀ i, i < entriesMax → entOverlaps ents first last (i * entryBytes) = false) {ents' : Mem}
    (hents : ents' = putEntry ents idx (newEntry typeGuid e name first last)) :
    Extends ents guid (left ((gptWrite (gptUpdateHeaderCrc (gptUpdateEntriesCrc hp ents')) ents' >>=
      fun _ => gptWrite (gptUpdateHeaderCrc (gptUpdateEntriesCrc hb ents')) ents') s)) := by
  have h64 : s.disk.size / 512 - 34 < uint64 :=
    lt_of_le_of_lt (le_trans (Nat.sub_le _ _) (Nat.div_le_self _ _)) s.disk.size_lt
  have hok : EntsOk ents' 34 (s.disk.size / 512 - 34) := by
    rw [hents]
    exact h.entries.add hlo hle hhi h64 hover
  have hshort : ∀ i, entriesBytes ≤ i → ents' i = 0 := by
    intro i hi
    have hEB : entriesBytes = 16384 := rfl
    unfold entriesMax at hidx
    rw [hents]
    unfold putEntry entryBytes
    rw [Mem.write_out (by omega), ← h.primaryOn.array]
    exact Mem.slice_out hi
  obtain ⟨hfp, hsp⟩ := h.primary.update ents'
  obtain ⟨hfb, hsb⟩ := h.backup.update ents'
  have h68 := h.sectors
  rw [writeCopies h.writable (by omega) hfp hfb]
  refine ⟨_, _, ents', tables_of_copies h.writable h.sectors hfp hfb hsp hsb hok hshort, ?_⟩
  rw [hents]
  exact putEntry_keeps hfree

/-- Adding a range keeps both copies, and the entries that are used. -/
theorem gptAddByRange_extends (h : Tables s.disk hp hb ents guid) (type name : Text)
    (firstLba lastLba : Nat) : Extends ents guid (left (gptAddByRange type name firstLba lastLba s)) := by
  have hsame := h.extends
  unfold gptAddByRange
  refine left_bind_ask hsame (fun typeGuid _ => ?_)
  refine left_bind_failIf hsame (fun _ => ?_)
  refine left_bind_ask hsame (fun hp' hhp => ?_)
  obtain rfl : hp = hp' := by
    rw [h.readPrimary] at hhp
    exact Option.some.inj hhp
  refine left_bind_ask hsame (fun hb' hhb => ?_)
  obtain rfl : hb = hb' := by
    rw [h.primary.backupLba, h.readBackup] at hhb
    exact Option.some.inj hhb
  refine left_bind_ask hsame (fun ents' hents => ?_)
  obtain rfl : ents = ents' := by
    unfold entriesFor at hents
    rw [h.readEntries.1] at hents
    exact Option.some.inj hents
  dsimp only []
  rw [h.primary.firstUsableLba, h.primary.lastUsableLba, h.primary.numEntries, h.primary.entrySize]
  refine left_bind_failIf hsame (fun hle => ?_)
  refine left_bind_failIf hsame (fun hover => ?_)
  refine left_bind_ask hsame (fun idx hidx => ?_)
  obtain ⟨hlt, hfree⟩ := freeEntry_some h.primary.numEntries h.primary.entrySize hidx
  have hclear : ∀ i, i < entriesMax → entOverlaps ents (max firstLba 34)
      (min lastLba (s.disk.size / 512 - 34)) (i * entryBytes) = false := by
    intro i hi
    by_contra hno
    exact hover ⟨i, List.mem_range.mpr hi, Bool.eq_true_of_not_eq_false hno⟩
  -- from here on nothing fails
  have hguid : ∃ e s₁, genGuid s = .ok e s₁ ∧ s₁.disk = s.disk := ⟨_, _, rfl, rfl⟩
  obtain ⟨e, s₁, hrun, hdisk⟩ := hguid
  rw [bind_of_ok hrun]
  rw [← hdisk] at h hle hclear ⊢
  exact h.add hlt hfree (le_max_right _ _) (Nat.le_of_not_lt hle) (min_le_right _ _) hclear rfl

theorem gptCmdAddOpts_extends (h : Tables s.disk hp hb ents guid) (parseSize : Text → Option Nat)
    (args : List Text) : Extends ents guid (left (gptCmdAddOpts parseSize args s)) := by
  have hsame := h.extends
  unfold gptCmdAddOpts
  refine left_bind_ask hsame (fun o _ => ?_)
  refine left_bind_ask hsame (fun type _ => ?_)
  refine left_bind_ask hsame (fun name _ => ?_)
  refine left_bind_ask hsame (fun startS _ => ?_)
  refine left_bind_failIf hsame (fun _ => ?_)
  refine left_bind_ask hsame (fun hp' _ => ?_)
  refine left_bind_ask hsame (fun spec _ => ?_)
  refine left_bind_ask hsame (fun stop _ => ?_)
  refine left_bind_failIf hsame (fun _ => ?_)
  exact gptAddByRange_extends h ..

/-- One `gpt add` command, whatever its arguments. -/
theorem cmdGptAdd_extends (h : Tables s.disk hp hb ents guid) (parseSize : Text → Option Nat)
    (args : List Text) : Extends ents guid (left (cmdGptAdd parseSize args s)) := by
  unfold cmdGptAdd
  split
  · exact gptCmdAddOpts_extends h ..
  · split
    · exact gptAddByRange_extends h ..
    · exact h.extends

end Adding

/-! ## Runs -/

/-- The state after `gpt add` commands with these arguments, one after the other. -/
def addAll (parseSize : Text → Option Nat) : List (List Text) → GptState → GptState
  | [], s => s
  | args :: cmds, s => addAll parseSize cmds (left (cmdGptAdd parseSize args s))

/-- Two headers describe the same table, each as the backup of the other. -/
structure Mirror (hp hb : GptHdr) : Prop where
  ownLba : hp.currentLba = 1 ∧ hb.currentLba = hp.backupLba
  otherLba : hb.backupLba = hp.currentLba
  usable : hb.firstUsableLba = hp.firstUsableLba ∧ hb.lastUsableLba = hp.lastUsableLba
  guid : hb.slice 56 16 = hp.slice 56 16
  shape : hp.numEntries = entriesMax ∧ hb.numEntries = entriesMax ∧ hp.entrySize = entryBytes ∧
    hb.entrySize = entryBytes
  entriesCrc : hb.entriesCrc = hp.entriesCrc

/-- Both copies of the table on a disk are good: `gpt` reads them, with the same entries, and
so does the partition scanner, whatever the disk is attached as. -/
structure Consistent (k : Disk) (hp hb : GptHdr) (ents : Mem) : Prop where
  primary : gptReadHeader k 1 (k.size / lsec) = some hp
  backup : gptReadHeader k hp.backupLba (k.size / lsec) = some hb
  primaryCrc : hp.headerCrc = gptHeaderCrc hp hp.headerSize
  backupCrc : hb.headerCrc = gptHeaderCrc hb hb.headerSize
  mirror : Mirror hp hb
  primaryEntries : k.read (hp.entriesLba * lsec) (entriesMax * entryBytes) = some ents
  backupEntries : k.read (hb.entriesLba * lsec) (entriesMax * entryBytes) = some ents
  entriesCrc : hp.entriesCrc = crc32Calc ents (entriesMax * entryBytes)
  used : EntsOk ents hp.firstUsableLba hp.lastUsableLba
  scanned : ∀ (io : Diskio) (devname : Text), devname ≠ [] → mapFind io (devname.take 31) = some k →
    let dev := wholeDisk devname k.size
    let total := vblkSizeBytes io dev / lsec
    gptValidateAt io dev total 1 = some hp ∧ gptValidateAt io dev total hp.backupLba = some hb

theorem Tables.mirror {k : Disk} {hp hb : GptHdr} {ents guid : Mem} (h : Tables k hp hb ents guid) :
    Mirror hp hb := by
  have hp := h.primary
  have hb := h.backup
  constructor
  · exact ⟨hp.currentLba, hb.currentLba.trans hp.backupLba.symm⟩
  · exact hb.backupLba.trans hp.currentLba.symm
  · exact ⟨hb.firstUsableLba.trans hp.firstUsableLba.symm, hb.lastUsableLba.trans hp.lastUsableLba.symm⟩
  · exact hb.guid.trans hp.guid.symm
  · exact ⟨hp.numEntries, hb.numEntries, hp.entrySize, hb.entrySize⟩
  · exact h.backupSealed.entries.trans h.primarySealed.entries.symm

theorem Tables.consistent {k : Disk} {hp hb : GptHdr} {ents guid : Mem} (h : Tables k hp hb ents guid) :
    Consistent k hp hb ents := by
  have h68 := h.sectors
  have hEB : entriesBytes = 16384 := rfl
  have hshape : entriesMax * entryBytes = entriesBytes := rfl
  constructor
  · exact h.readPrimary
  · rw [h.primary.backupLba]
    exact h.readBackup
  · rw [h.primary.headerSize]
    exact h.primarySealed.header
  · rw [h.backup.headerSize]
    exact h.backupSealed.header
  · exact h.mirror
  · rw [h.primary.entriesLba, hshape, ← h.primaryOn.array]
    exact Disk.read_of_le (by unfold lsec; omega)
  · rw [h.backup.entriesLba, hshape, ← h.backupOn.array]
    exact Disk.read_of_le (by unfold lsec; omega)
  · exact h.primarySealed.entries
  · rw [h.primary.firstUsableLba, h.primary.lastUsableLba]
    exact h.entries
  · intro io devname hne hmap
    have hreads := wholeDisk_sameReads hne hmap
    dsimp only []
    rw [hreads.validate, hreads.size, aloneDev_total, h.primary.backupLba]
    exact ⟨h.primaryOn.validate h.primary h.primarySealed (by omega) (by omega) (by omega),
      h.backupOn.validate h.backup h.backupSealed (by omega) (by omega) (by omega)⟩

/-- The invariant holds after every sequence of commands. -/
theorem addAll_tables (parseSize : Text → Option Nat) (cmds : List (List Text)) :
    ∀ {s : GptState} {hp hb : GptHdr} {ents guid : Mem}, Tables s.disk hp hb ents guid →
      ∃ hp' hb' ents', Tables (addAll parseSize cmds s).disk hp' hb' ents' guid := by
  induction cmds with
  | nil =>
      intro s hp hb ents guid h
      exact ⟨hp, hb, ents, h⟩
  | cons args cmds ih =>
      intro s hp hb ents guid h
      obtain ⟨hp', hb', ents', h', -⟩ := cmdGptAdd_extends h parseSize args
      exact ih h'

theorem gpt_copies_consistent (parseSize : Text → Option Nat) (s s' : GptState)
    (h68 : 68 ≤ s.disk.size / lsec) (hinit : gptCmdInit s = .ok () s') (cmds : List (List Text)) :
    ∃ hp hb ents, Consistent (addAll parseSize cmds s').disk hp hb ents ∧
      ∀ args, ∃ hp' hb' ents',
        Consistent (left (cmdGptAdd parseSize args (addAll parseSize cmds s'))).disk hp' hb' ents' ∧
          Keeps ents ents' := by
  obtain ⟨hp₀, hb₀, guid, h₀⟩ := gptCmdInit_tables h68 hinit
  obtain ⟨hp, hb, ents, h⟩ := addAll_tables parseSize cmds h₀
  refine ⟨hp, hb, ents, h.consistent, fun args => ?_⟩
  obtain ⟨hp', hb', ents', h', hkeeps⟩ := cmdGptAdd_extends h parseSize args
  exact ⟨hp', hb', ents', h'.consistent, hkeeps⟩

theorem zeroSectors_total (lba count : Nat) (s : GptState) :
    ∃ s', zeroSectors lba count s = .ok () s' ∧ SameDisk s s' := by
  obtain ⟨_, s', h, -⟩ := forLoop_total (fun _ _ _ => True) (s := s) (a := ()) (l := lba) (n := count)
    (f := fun l _ => ignore (pwriteLba512 l Mem.zero)) trivial (by
      intro i _ t _ _ _
      unfold ignore
      cases pwriteLba512 i Mem.zero t with
      | ok a u => exact ⟨(), u, rfl, trivial⟩
      | error e u => exact ⟨(), u, rfl, trivial⟩)
  exact ⟨s', h, zeroSectors_ok h⟩

/-- `gpt init` accepts every writable disk of at least 35 sectors. -/
theorem gptCmdInit_accepts {s : GptState} (hw : s.disk.writable = true) (h35 : 35 ≤ s.disk.size / 512) :
    ∃ s', gptCmdInit s = .ok () s' := by
  obtain ⟨s₁, h₁, e₁⟩ := zeroSectors_total 2 entriesSectors s
  obtain ⟨s₂, h₂, e₂⟩ := zeroSectors_total (s.disk.size / lsec - 1 - entriesSectors) entriesSectors s₁
  obtain ⟨s₃, h₃, e₃⟩ := zeroSectors_total 1 1 s₂
  obtain ⟨s₄, h₄, e₄⟩ := zeroSectors_total (s.disk.size / lsec - 1) 1 s₃
  have hguid : ∃ e s₅, genGuid s₄ = .ok e s₅ ∧ s₅.disk = s₄.disk := ⟨_, _, rfl, rfl⟩
  obtain ⟨guid, s₅, h₅, hdisk⟩ := hguid
  have hsize : s₅.disk.size = s.disk.size := by rw [hdisk, e₄.1, e₃.1, e₂.1, e₁.1]
  have hw5 : s₅.disk.writable = true := by rw [hdisk, e₄.2, e₃.2, e₂.2, e₁.2, hw]
  have h64 : s.disk.size / 512 < uint64 := lt_of_le_of_lt (Nat.div_le_self _ _) s.disk.size_lt
  obtain ⟨hfp, -⟩ := (@freshHeader_fields _ guid h64).update Mem.zero
  obtain ⟨hfb, -⟩ := (hfp.toBackup h64).update Mem.zero
  have hmbr : ∃ b, writeProtectiveMbr (s.disk.size / lsec) s₅ =
      .ok () { s₅ with disk := { s₅.disk with bytes := b } } :=
    ⟨_, pwriteBytes_of_le hw5 (by unfold lsec; omega)⟩
  obtain ⟨b, hmbr⟩ := hmbr
  have hget : (get : Prog GptState GptState) s = .ok s s := rfl
  have hlarge : ¬ s.disk.size < lsec * (2 + entriesSectors + 1) := by
    unfold lsec entriesSectors
    omega
  rw [← hsize] at hfp hfb h35
  have hwrite := @writeCopies _ _ Mem.zero _ { s₅ with disk := { s₅.disk with bytes := b } } hw5 h35 hfp hfb
  unfold gptCmdInit
  rw [bind_of_ok hget, bind_of_ok (failIf_of_not hlarge)]
  dsimp only []
  rw [bind_of_ok h₁, bind_of_ok h₂, bind_of_ok h₃, bind_of_ok h₄, bind_of_ok h₅, bind_of_ok hmbr,
    ← hsize]
  exact ⟨_, hwrite⟩

/-- A blank disk of 68 sectors. -/
def blankDisk68 : Disk := ⟨34816, true, Mem.zero, by decide⟩

/-- `gpt add <dev> linux a 34 34` -/
def addLinux : List Text := [[108, 105, 110, 117, 120], [97], [51, 52], [51, 52]]

theorem gpt_copies_consistent_blank : ∃ s', gptCmdInit ⟨blankDisk68, fun _ => 0⟩ = .ok () s' ∧
    ∃ hp hb ents, Consistent (addAll (fun _ => none) [addLinux] s').disk hp hb ents := by
  have h68 : 68 ≤ blankDisk68.size / lsec := by decide
  obtain ⟨s', h⟩ := @gptCmdInit_accepts ⟨blankDisk68, fun _ => 0⟩ rfl (by decide)
  obtain ⟨hp, hb, ents, hc, -⟩ := gpt_copies_consistent (fun _ => none) _ s' h68 h [addLinux]
  exact ⟨s', h, hp, hb, ents, hc⟩

end Guppy.Block
