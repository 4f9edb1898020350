import Guppy.Block.GptRun

set_option autoImplicit false

/-! # `gpt add` on any GPT disk

A disk with a good GPT need not be one that `gpt init` made: the number and the size of the
entries and the places of the two arrays are what the headers say. `GptDisk` asks for good
headers of the usual length, for one shape of both arrays, and that the areas of the two copies
do not overlap each other or the MBR. A successful `gpt add` keeps all of this, and changes one
entry.
-/

namespace Guppy.Block

open Vfs Prog

/-! ## Headers that are written -/

/-- A header with the checksums for an array of entries. -/
def sealHdr (h : GptHdr) (ents : Mem) : GptHdr := gptUpdateHeaderCrc (gptUpdateEntriesCrc h ents)

section Seal

variable {h : GptHdr} {ents : Mem}

/-- Only the two checksums change. -/
theorem sealHdr_out {i : Nat} (h₁ : i < 16 ∨ 20 ≤ i) (h₂ : i < 88 ∨ 92 ≤ i) : sealHdr h ents i = h i := by
  unfold sealHdr gptUpdateHeaderCrc gptUpdateEntriesCrc Mem.wr32
  rw [Mem.write_out (by omega), Mem.write_out (by omega), Mem.write_out (by omega)]

theorem sealHdr_rd32 {o : Nat} (h₁ : o + 4 ≤ 16 ∨ 20 ≤ o) (h₂ : o + 4 ≤ 88 ∨ 92 ≤ o) :
    (sealHdr h ents).rd32 o = h.rd32 o :=
  Mem.rd32_congr (fun i hi => sealHdr_out (by omega) (by omega))

theorem sealHdr_rd64 {o : Nat} (h₁ : o + 8 ≤ 16 ∨ 20 ≤ o) (h₂ : o + 8 ≤ 88 ∨ 92 ≤ o) :
    (sealHdr h ents).rd64 o = h.rd64 o :=
  Mem.rd64_congr (fun i hi => sealHdr_out (by omega) (by omega))

@[simp] theorem sealHdr_headerSize : (sealHdr h ents).headerSize = h.headerSize :=
  sealHdr_rd32 (by omega) (by omega)
@[simp] theorem sealHdr_currentLba : (sealHdr h ents).currentLba = h.currentLba :=
  sealHdr_rd64 (by omega) (by omega)
@[simp] theorem sealHdr_backupLba : (sealHdr h ents).backupLba = h.backupLba :=
  sealHdr_rd64 (by omega) (by omega)
@[simp] theorem sealHdr_firstUsableLba : (sealHdr h ents).firstUsableLba = h.firstUsableLba :=
  sealHdr_rd64 (by omega) (by omega)
@[simp] theorem sealHdr_lastUsableLba : (sealHdr h ents).lastUsableLba = h.lastUsableLba :=
  sealHdr_rd64 (by omega) (by omega)
@[simp] theorem sealHdr_entriesLba : (sealHdr h ents).entriesLba = h.entriesLba :=
  sealHdr_rd64 (by omega) (by omega)
@[simp] theorem sealHdr_numEntries : (sealHdr h ents).numEntries = h.numEntries :=
  sealHdr_rd32 (by omega) (by omega)
@[simp] theorem sealHdr_entrySize : (sealHdr h ents).entrySize = h.entrySize :=
  sealHdr_rd32 (by omega) (by omega)

theorem sealHdr_entriesCrc : (sealHdr h ents).entriesCrc = crc32Calc ents (h.numEntries * h.entrySize) := by
  have hcrc := crc32Calc_lt ents (h.numEntries * h.entrySize)
  unfold uint32 at hcrc
  unfold sealHdr gptUpdateHeaderCrc GptHdr.entriesCrc
  unfold Mem.wr32
  rw [Mem.rd32_write_out (by omega), Mem.rd32_write_out (by omega)]
  show (h.wr32 88 _).rd32 88 = _
  rw [Mem.rd32_wr32_self]
  exact Nat.mod_eq_of_lt hcrc

/-- The checksum of the header is right, since its own field does not count. -/
theorem sealHdr_headerCrc (hsize : h.headerSize = 92) :
    (sealHdr h ents).headerCrc = gptHeaderCrc (sealHdr h ents) 92 := by
  have hlen : (gptUpdateEntriesCrc h ents).headerSize = 92 := by
    rw [← hsize]
    exact Mem.rd32_write_out (by omega)
  have hlt : gptHeaderCrc ((gptUpdateEntriesCrc h ents).wr32 16 0) 92 < uint32 := crc32Calc_lt _ _
  have h32 : uint32 = 4294967296 := rfl
  unfold sealHdr gptUpdateHeaderCrc
  rw [hlen]
  show (((gptUpdateEntriesCrc h ents).wr32 16 0).wr32 16 _).rd32 16 = _
  rw [Mem.rd32_wr32_self, ← h32, Nat.mod_eq_of_lt hlt]
  refine crc32Calc_congr (fun i _ => ?_)
  by_cases hi : 16 ≤ i ∧ i < 16 + 4
  · rw [Mem.write_in hi.1 hi.2, Mem.write_in hi.1 hi.2]
  · rw [Mem.write_out (by omega), Mem.write_out (by omega)]
    exact (Mem.write_out (by omega)).symm

theorem sealHdr_fieldsOk {total : Nat} : gptFieldsOk (sealHdr h ents) total = gptFieldsOk h total := by
  unfold gptFieldsOk
  simp

end Seal

/-! ## Reading a header -/

/-- What `gpt_read_header` has checked. -/
structure GoodHdr (k : Disk) (h : GptHdr) (lba : Nat) : Prop where
  sector : lba * 512 + 512 ≤ k.size
  short : ∀ i, GptHdr.size ≤ i → h i = 0
  signature : h.toList 0 8 = GptHdr.signature
  fields : gptFieldsOk h (k.size / 512) = true

/-- The fields that the checks bound. -/
theorem GoodHdr.bounds {k : Disk} {h : GptHdr} {lba : Nat} (hg : GoodHdr k h lba) :
    92 ≤ h.headerSize ∧ 128 ≤ h.entrySize ∧ 0 < h.numEntries ∧ h.numEntries ≤ 4096 ∧
      h.currentLba < k.size / 512 ∧ h.backupLba < k.size / 512 ∧ h.lastUsableLba < k.size / 512 ∧
      h.entriesLba < k.size / 512 := by
  have hsector := hg.sector
  have hfields := hg.fields
  unfold gptFieldsOk gptEntSize at hfields
  rw [decide_eq_true_eq] at hfields
  omega

/-- What `gpt_read_header` has seen in the sector of a header. -/
theorem gptReadHeader_sector {k : Disk} {h : GptHdr} {lba : Nat} (hlba : lba < k.size / 512)
    (hread : gptReadHeader k lba (k.size / lsec) = some h) {sec : Mem}
    (hsec : sec = k.bytes.slice (lba * 512) 512) :
    sec.toList 0 8 = GptHdr.signature ∧ sec.slice 0 GptHdr.size = h ∧
      gptFieldsOk h (k.size / 512) = true ∧
      ∃ hdrbuf, headerBytes k lba sec h.headerSize = some hdrbuf ∧
        gptHeaderCrc hdrbuf h.headerSize = h.headerCrc := by
  have hsector : lba * 512 + 512 ≤ k.size := by omega
  unfold gptReadHeader at hread
  rw [mul_lsec_mod hsector] at hread
  unfold lsec at hread
  rw [Disk.read_of_le hsector, some_bind, ← hsec] at hread
  simp only [Option.bind_eq_bind, Option.bind_eq_some_iff, Option.guard_eq_some'] at hread
  obtain ⟨-, hsig, -, hfields, hdrbuf, hbuf, -, hcrc, hread⟩ := hread
  cases hread
  exact ⟨hsig, rfl, hfields, hdrbuf, hbuf, hcrc⟩

theorem gptReadHeader_good {k : Disk} {h : GptHdr} {lba : Nat} (hlba : lba < k.size / 512)
    (hread : gptReadHeader k lba (k.size / lsec) = some h) : GoodHdr k h lba := by
  obtain ⟨hsig, rfl, hfields, -⟩ := gptReadHeader_sector hlba hread rfl
  refine ⟨by omega, fun i hi => Mem.slice_out hi, ?_, hfields⟩
  rw [← hsig]
  refine Mem.toList_congr (fun i hi => ?_)
  rw [Nat.zero_add]
  exact (Mem.slice_in (by unfold GptHdr.size; omega)).trans (by rw [Nat.zero_add])

/-- A header in its sector is read when its checksum is right. -/
theorem GoodHdr.read {k : Disk} {h : GptHdr} {lba : Nat} (hg : GoodHdr k h lba)
    (hsize : h.headerSize = 92) (hcrc : h.headerCrc = gptHeaderCrc h 92)
    (hon : ∀ i, i < 92 → k.bytes (lba * 512 + i) = h i) :
    gptReadHeader k lba (k.size / lsec) = some h := by
  have hsector := hg.sector
  have hbytes : ∀ i, i < 92 → k.bytes.slice (lba * 512) 512 i = h i := by
    intro i hi
    rw [Mem.slice_in (by omega)]
    exact hon i hi
  have hslice : (k.bytes.slice (lba * 512) 512).slice 0 GptHdr.size = h := by
    funext i
    by_cases hi : i < GptHdr.size
    · rw [Mem.slice_in hi, Nat.zero_add]
      exact hbytes i hi
    · rw [Mem.slice_out (by omega), hg.short i (by omega)]
  have hsig : (k.bytes.slice (lba * 512) 512).toList 0 8 = GptHdr.signature := by
    rw [← hg.signature]
    exact Mem.toList_congr (fun i hi => by rw [Nat.zero_add]; exact hbytes i (by omega))
  have hbuf : headerBytes k lba (k.bytes.slice (lba * 512) 512) 92 =
      some (k.bytes.slice (lba * 512) 512) := if_pos (by omega)
  have hsum : gptHeaderCrc (k.bytes.slice (lba * 512) 512) 92 = h.headerCrc := by
    rw [gptHeaderCrc_congr hbytes, hcrc]
  unfold gptReadHeader
  rw [mul_lsec_mod hsector]
  unfold lsec
  rw [Disk.read_of_le hsector, some_bind, guard_bind hsig, hslice]
  dsimp only []
  rw [guard_bind hg.fields, hsize, hbuf, some_bind, guard_bind hsum]

/-! ## The disks -/

/-- The bytes of the entries of a header. -/
def GptHdr.arrayBytes (h : GptHdr) : Nat := h.numEntries * h.entrySize

/-- An area: where it begins and how many bytes it has. -/
abbrev Area := Nat × Nat

def Area.Apart (a b : Area) : Prop := a.1 + a.2 ≤ b.1 ∨ b.1 + b.2 ≤ a.1

/-- A sector that is neither the first nor the second is above both. -/
theorem Area.Apart.above {lba : Nat} (h₀ : Area.Apart (0, 512) (lba * 512, 512))
    (h₁ : Area.Apart (512, 512) (lba * 512, 512)) : 1024 ≤ lba * 512 := by
  unfold Area.Apart at h₀ h₁
  dsimp only at h₀ h₁
  omega

/-- The MBR, the primary header and its entries, and the backup header and its entries. -/
def gptAreas (hp hb : GptHdr) : List Area :=
  [(0, 512), (512, 512), (hp.entriesLba * 512, hp.arrayBytes), (hp.backupLba * 512, 512),
    (hb.entriesLba * 512, hp.arrayBytes)]

/-- A slot of the MBR that the scan passes over. -/
def slotUnused (mbr : Mem) (i : Nat) : Prop := slotType mbr i = 0 ∨ slotCount mbr i = 0

/-- The scan does not take partitions from this MBR: there is no boot signature, or the first
slot that is used, if any, is the protective one. -/
def GptMbr (mbr : Mem) : Prop :=
  bootSig mbr = false ∨
    ∀ i, i < 4 → (∀ j, j < i → slotUnused mbr j) → slotUnused mbr i ∨ slotType mbr i = 0xEE

/-- A disk with a GPT. Both headers are good and have 92 bytes, each is where it says it is, both
arrays have one shape and lie on the disk, and no two of the areas overlap. -/
structure GptDisk (k : Disk) (hp hb : GptHdr) (ents : Mem) : Prop where
  primary : gptReadHeader k 1 (k.size / lsec) = some hp
  backup : gptReadHeader k hp.backupLba (k.size / lsec) = some hb
  entries : gptReadEntries k hp = some ents
  length : hp.headerSize = 92 ∧ hb.headerSize = 92
  own : hp.currentLba = 1 ∧ hb.currentLba = hp.backupLba
  shape : hb.numEntries = hp.numEntries ∧ hb.entrySize = hp.entrySize
  inside : ∀ a ∈ gptAreas hp hb, a.1 + a.2 ≤ k.size / 512 * 512
  apart : (gptAreas hp hb).Pairwise Area.Apart
  mbr : GptMbr (k.bytes.slice 0 512)

section Disk

variable {k : Disk} {hp hb : GptHdr} {ents : Mem}

/-- The areas, two by two. -/
theorem GptDisk.areas (h : GptDisk k hp hb ents) :
    (1024 ≤ k.size / 512 * 512 ∧ hp.entriesLba * 512 + hp.arrayBytes ≤ k.size / 512 * 512 ∧
      hp.backupLba * 512 + 512 ≤ k.size / 512 * 512 ∧
      hb.entriesLba * 512 + hp.arrayBytes ≤ k.size / 512 * 512) ∧
    1024 ≤ hp.backupLba * 512 ∧
    (Area.Apart (0, 512) (hp.entriesLba * 512, hp.arrayBytes) ∧
      Area.Apart (0, 512) (hb.entriesLba * 512, hp.arrayBytes)) ∧
    (Area.Apart (512, 512) (hp.entriesLba * 512, hp.arrayBytes) ∧
      Area.Apart (512, 512) (hb.entriesLba * 512, hp.arrayBytes)) ∧
    (Area.Apart (hp.entriesLba * 512, hp.arrayBytes) (hp.backupLba * 512, 512) ∧
      Area.Apart (hp.entriesLba * 512, hp.arrayBytes) (hb.entriesLba * 512, hp.arrayBytes)) ∧
    Area.Apart (hp.backupLba * 512, 512) (hb.entriesLba * 512, hp.arrayBytes) := by
  have hin := h.inside
  have hap := h.apart
  simp only [gptAreas, List.forall_mem_cons, List.pairwise_cons] at hin hap
  obtain ⟨_, h₁, h₂, h₃, h₄, _⟩ := hin
  obtain ⟨⟨a₁, a₂, a₃, a₄, _⟩, ⟨b₁, b₂, b₃, _⟩, ⟨c₁, c₂, _⟩, ⟨d₁, _⟩, _⟩ := hap
  exact ⟨⟨h₁, h₂, h₃, h₄⟩, Area.Apart.above a₃ b₂, ⟨a₂, a₄⟩, ⟨b₁, b₃⟩, ⟨c₁, c₂⟩, d₁⟩

theorem GptDisk.good (h : GptDisk k hp hb ents) : GoodHdr k hp 1 ∧ GoodHdr k hb hp.backupLba := by
  obtain ⟨⟨h₁, -, h₂, -⟩, -⟩ := h.areas
  exact ⟨gptReadHeader_good (by omega) h.primary, gptReadHeader_good (by omega) h.backup⟩

/-- What is known of the array that has been read. -/
theorem gptReadEntries_some (hread : gptReadEntries k hp = some ents)
    (hin : hp.entriesLba * 512 + hp.arrayBytes ≤ k.size) :
    (hp.arrayBytes ≠ 0 ∧ hp.arrayBytes ≤ entriesMaxBytes) ∧
      ents = k.bytes.slice (hp.entriesLba * 512) hp.arrayBytes ∧
      crc32Calc ents hp.arrayBytes = hp.entriesCrc := by
  unfold gptReadEntries at hread
  rw [@mul_lsec_mod k hp.entriesLba hp.arrayBytes hin] at hread
  simp only [Option.bind_eq_bind, Option.bind_eq_some_iff, Option.guard_eq_some'] at hread
  obtain ⟨-, hfit, buf, hbuf, -, hcrc, hread⟩ := hread
  cases hread
  have hslice : k.read (hp.entriesLba * 512) (hp.numEntries * hp.entrySize) = some _ :=
    Disk.read_of_le hin
  rw [hslice] at hbuf
  exact ⟨hfit, (Option.some.inj hbuf).symm, hcrc⟩

theorem gptReadEntries_of (hfit : hp.arrayBytes ≠ 0 ∧ hp.arrayBytes ≤ entriesMaxBytes)
    (hin : hp.entriesLba * 512 + hp.arrayBytes ≤ k.size)
    (hents : k.bytes.slice (hp.entriesLba * 512) hp.arrayBytes = ents)
    (hcrc : crc32Calc ents hp.arrayBytes = hp.entriesCrc) : gptReadEntries k hp = some ents := by
  have hread := Disk.read_of_le hin
  rw [hents] at hread
  unfold GptHdr.arrayBytes at hfit hread hcrc
  unfold gptReadEntries
  rw [@mul_lsec_mod k hp.entriesLba hp.arrayBytes hin]
  dsimp only []
  rw [guard_bind hfit, hread, some_bind, guard_bind hcrc]

/-- The bytes of a disk after both copies of a table have been written. -/
def tablesBytes (p : Mem) (hp hb : GptHdr) (ents : Mem) : Mem :=
  (((p.write (hp.entriesLba * 512) hp.arrayBytes ents).write 512 512 (hp.slice 0 GptHdr.size)).write
    (hb.entriesLba * 512) hp.arrayBytes ents).write (hp.backupLba * 512) 512 (hb.slice 0 GptHdr.size)

/-- A disk with other bytes. -/
def Disk.withBytes (k : Disk) (p : Mem) : Disk := { k with bytes := p }

@[simp] theorem Disk.withBytes_size (p : Mem) : (k.withBytes p).size = k.size := rfl
@[simp] theorem Disk.withBytes_bytes (p : Mem) : (k.withBytes p).bytes = p := rfl

theorem GoodHdr.seal {lba : Nat} (hg : GoodHdr k hp lba) (ents' p : Mem) :
    GoodHdr (k.withBytes p) (sealHdr hp ents') lba := by
  refine ⟨hg.sector, ?_, ?_, ?_⟩
  · intro i hi
    unfold GptHdr.size at hi
    rw [sealHdr_out (by omega) (by omega)]
    exact hg.short i hi
  · rw [← hg.signature]
    exact Mem.toList_congr (fun i hi => sealHdr_out (by omega) (by omega))
  · rw [sealHdr_fieldsOk]
    exact hg.fields

@[simp] theorem sealHdr_arrayBytes {h : GptHdr} : (sealHdr h ents).arrayBytes = h.arrayBytes := by
  unfold GptHdr.arrayBytes
  rw [sealHdr_numEntries, sealHdr_entrySize]

section Written

variable {ents' : Mem} {i : Nat}

/-- What stands where after both copies have been written: the MBR is as it was, and each of the
four other areas holds what was written there. -/
theorem GptDisk.written (h : GptDisk k hp hb ents) (p : Mem) :
    (∀ i, i < 512 → tablesBytes p (sealHdr hp ents') (sealHdr hb ents') ents' i = p i) ∧
    (∀ i, i < 92 → tablesBytes p (sealHdr hp ents') (sealHdr hb ents') ents' (1 * 512 + i) =
      sealHdr hp ents' i) ∧
    (∀ i, i < hp.arrayBytes → tablesBytes p (sealHdr hp ents') (sealHdr hb ents') ents'
      (hp.entriesLba * 512 + i) = ents' i) ∧
    ∀ i, i < 92 → tablesBytes p (sealHdr hp ents') (sealHdr hb ents') ents' (hp.backupLba * 512 + i) =
      sealHdr hb ents' i := by
  obtain ⟨-, hlow, ⟨a₁, a₂⟩, ⟨b₁, b₂⟩, ⟨c₁, c₂⟩, d₁⟩ := h.areas
  have hsize : GptHdr.size = 92 := rfl
  unfold Area.Apart at a₁ a₂ b₁ b₂ c₁ c₂ d₁
  dsimp only at a₁ a₂ b₁ b₂ c₁ c₂ d₁
  unfold tablesBytes
  simp only [sealHdr_entriesLba, sealHdr_arrayBytes, sealHdr_backupLba]
  generalize hp.entriesLba = e at *
  generalize hb.entriesLba = f at *
  generalize hp.backupLba = l at *
  generalize hp.arrayBytes = n at *
  refine ⟨fun i hi => ?_, fun i hi => ?_, fun i hi => ?_, fun i hi => ?_⟩
  · rw [Mem.write_out (by omega), Mem.write_out (by omega), Mem.write_out (by omega),
      Mem.write_out (by omega)]
  · rw [Mem.write_out (by omega), Mem.write_out (by omega), Mem.write_in (by omega) (by omega),
      Mem.slice_in (by omega), Nat.one_mul, Nat.add_sub_cancel_left, Nat.zero_add]
  · rw [Mem.write_out (by omega), Mem.write_out (by omega), Mem.write_out (by omega),
      Mem.write_in (by omega) (by omega), Nat.add_sub_cancel_left]
  · rw [Mem.write_in (by omega) (by omega), Mem.slice_in (by omega), Nat.add_sub_cancel_left,
      Nat.zero_add]

/-- Both copies written with their checksums are a GPT again. -/
theorem GptDisk.put (h : GptDisk k hp hb ents) (hshort : ∀ i, hp.arrayBytes ≤ i → ents' i = 0) :
    GptDisk (k.withBytes (tablesBytes k.bytes (sealHdr hp ents') (sealHdr hb ents') ents'))
      (sealHdr hp ents') (sealHdr hb ents') ents' := by
  obtain ⟨hmbr, hprim, harr, hback⟩ := @GptDisk.written k hp hb ents ents' h k.bytes
  obtain ⟨hgp, hgb⟩ := h.good
  obtain ⟨⟨h₁, h₂, h₃, h₄⟩, -⟩ := h.areas
  have hround := Nat.div_mul_le_self k.size 512
  obtain ⟨hfit, -, -⟩ := gptReadEntries_some h.entries (le_trans h₂ hround)
  have hareas : gptAreas (sealHdr hp ents') (sealHdr hb ents') = gptAreas hp hb := by
    simp [gptAreas]
  constructor
  · exact (hgp.seal ents' _).read (by simp [h.length.1]) (sealHdr_headerCrc h.length.1) hprim
  · rw [sealHdr_backupLba]
    exact (hgb.seal ents' _).read (by simp [h.length.2]) (sealHdr_headerCrc h.length.2) hback
  · refine gptReadEntries_of (by simpa using hfit) (by simpa using le_trans h₂ hround) ?_ ?_
    · funext i
      simp only [Disk.withBytes_bytes, sealHdr_entriesLba, sealHdr_arrayBytes]
      by_cases hi : i < hp.arrayBytes
      · rw [Mem.slice_in hi]
        exact harr i hi
      · rw [Mem.slice_out (by omega), hshort i (by omega)]
    · rw [sealHdr_entriesCrc, sealHdr_arrayBytes]
      rfl
  · simpa using h.length
  · simpa using h.own
  · simpa using h.shape
  · rw [hareas]
    exact h.inside
  · rw [hareas]
    exact h.apart
  · have hsame : (k.withBytes (tablesBytes k.bytes (sealHdr hp ents') (sealHdr hb ents') ents')).bytes.slice
        0 512 = k.bytes.slice 0 512 := by
      funext i
      by_cases hi : i < 512
      · rw [Mem.slice_in hi, Mem.slice_in hi, Nat.zero_add]
        exact hmbr i hi
      · rw [Mem.slice_out (by omega), Mem.slice_out (by omega)]
    rw [hsame]
    exact h.mbr

end Written

end Disk

/-! ## Slots -/

/-- The range of the entry in slot `i` of an array with entries of `size` bytes. -/
def spanAt (ents : Mem) (size i : Nat) : Span := (entFirstLba ents (i * size), entLastLba ents (i * size))

/-- The entry in slot `i` is used. -/
def usedAt (ents : Mem) (size i : Nat) : Bool := !entEmpty ents (i * size)

/-- The array with another entry in slot `idx`. -/
def setSlot (ents : Mem) (size idx : Nat) (e : Mem) : Mem := ents.write (idx * size) size e

section Slots

variable {ents e : Mem} {size idx i first last : Nat} {typeGuid name : Text} {guid : Mem}

theorem setSlot_out {j : Nat} (hsize : 128 ≤ size) (hi : i ≠ idx) (hj : j < 128) :
    setSlot ents size idx e (i * size + j) = ents (i * size + j) := by
  refine Mem.write_out ?_
  rcases Nat.lt_or_gt_of_ne hi with h | h
  · have := Nat.mul_le_mul_right size (Nat.succ_le_of_lt h)
    rw [Nat.succ_mul] at this
    omega
  · have := Nat.mul_le_mul_right size (Nat.succ_le_of_lt h)
    rw [Nat.succ_mul] at this
    omega

/-- The other slots keep their entries. -/
theorem setSlot_other (hsize : 128 ≤ size) (hi : i ≠ idx) :
    usedAt (setSlot ents size idx e) size i = usedAt ents size i ∧
      spanAt (setSlot ents size idx e) size i = spanAt ents size i := by
  have hout := fun {j : Nat} => @setSlot_out ents e size idx i j hsize hi
  have hempty : entEmpty (setSlot ents size idx e) (i * size) = entEmpty ents (i * size) := by
    unfold entEmpty
    rw [Mem.toList_congr (fun j hj => hout (by omega))]
  constructor
  · unfold usedAt
    rw [hempty]
  · refine Prod.ext (Mem.rd64_congr (fun j hj => ?_)) (Mem.rd64_congr (fun j hj => ?_))
    · rw [Nat.add_assoc]
      exact hout (by omega)
    · rw [Nat.add_assoc]
      exact hout (by omega)

/-- A known type has a GUID of sixteen bytes that are not all zero. -/
theorem typeGuidFor_used {type : Text} (h : typeGuidFor type = some typeGuid) :
    typeGuid.length = 16 ∧ typeGuid.all (· = 0) = false := by
  unfold typeGuidFor at h
  obtain ⟨e, he, rfl⟩ := Option.map_eq_some_iff.mp h
  have hall : ∀ e ∈ typeNames, e.2.length = 16 ∧ e.2.all (· = 0) = false := by decide
  exact hall e (List.mem_of_find?_eq_some he)

/-- The slot of the new entry is used, with its range. -/
theorem setSlot_self (hsize : 128 ≤ size) (hlen : typeGuid.length = 16)
    (hused : typeGuid.all (· = 0) = false) (hfirst : first < uint64) (hlast : last < uint64) :
    usedAt (setSlot ents size idx (newEntry typeGuid guid name first last)) size idx = true ∧
      spanAt (setSlot ents size idx (newEntry typeGuid guid name first last)) size idx = (first, last) := by
  have hin : ∀ j, j < 128 → setSlot ents size idx (newEntry typeGuid guid name first last)
      (idx * size + j) = newEntry typeGuid guid name first last j := by
    intro j hj
    unfold setSlot
    rw [Mem.write_in (by omega) (by omega), Nat.add_sub_cancel_left]
  have htype : (newEntry typeGuid guid name first last).toList 0 16 = typeGuid := by
    have hbytes : ∀ j, j < 16 → newEntry typeGuid guid name first last (0 + j) =
        Mem.ofList typeGuid (0 + j) := by
      intro j hj
      rw [Nat.zero_add]
      unfold newEntry Mem.wr64
      rw [Mem.write_out (by omega), Mem.write_out (by omega), Mem.write_out (by omega),
        Mem.write_out (by omega), Mem.write_in (by omega) (by omega), Nat.sub_zero]
    rw [Mem.toList_congr hbytes, ← hlen]
    exact Mem.toList_ofList typeGuid
  constructor
  · unfold usedAt entEmpty
    rw [@Mem.toList_congr _ (newEntry typeGuid guid name first last) _ 0, htype, hused]
    · rfl
    · intro j hj
      rw [Nat.zero_add]
      exact hin j (by omega)
  · refine Prod.ext ?_ ?_
    · have hrd : (newEntry typeGuid guid name first last).rd64 32 = first := by
        unfold newEntry
        rw [Mem.rd64_write_out (by omega)]
        unfold Mem.wr64
        rw [Mem.rd64_write_out (by omega)]
        show (Mem.wr64 _ 32 first).rd64 32 = first
        rw [Mem.rd64_wr64_self]
        exact Nat.mod_eq_of_lt hfirst
      refine Eq.trans (Mem.rd64_congr (fun j hj => ?_)) hrd
      rw [Nat.add_assoc]
      exact hin (32 + j) (by omega)
    · have hrd : (newEntry typeGuid guid name first last).rd64 40 = last := by
        unfold newEntry
        rw [Mem.rd64_write_out (by omega), Mem.rd64_wr64_self]
        exact Nat.mod_eq_of_lt hlast
      refine Eq.trans (Mem.rd64_congr (fun j hj => ?_)) hrd
      rw [Nat.add_assoc]
      exact hin (40 + j) (by omega)

/-- The first free slot: all before it are used. -/
theorem freeEntry_iff {h : GptHdr} : freeEntry ents h = some idx ↔
    idx < h.numEntries ∧ usedAt ents h.entrySize idx = false ∧
      ∀ i, i < idx → usedAt ents h.entrySize i = true := by
  unfold freeEntry
  rw [List.find?_range_eq_some, List.mem_range]
  simp only [usedAt, Bool.not_eq_eq_eq_not, Bool.not_false, Bool.not_true]
  constructor
  · rintro ⟨hempty, hlt, hbefore⟩
    exact ⟨hlt, hempty, hbefore⟩
  · rintro ⟨hlt, hempty, hbefore⟩
    exact ⟨hempty, hlt, hbefore⟩

end Slots

/-! ## `gpt add` -/

/-- Where a `gpt add` puts its entry: the slot and the range, cut to the usable area. -/
structure Placement where
  idx : Nat
  span : Span

/-- What `gpt_add_by_range` works out before it writes. -/
def placeRange (k : Disk) (firstLba lastLba : Nat) : Option Placement := do
  let hp ← gptReadHeader k 1 (k.size / lsec)
  let hb ← gptReadHeader k hp.backupLba (k.size / lsec)
  let ents ← entriesFor k hp hb
  let idx ← freeEntry ents hp
  some ⟨idx, max firstLba hp.firstUsableLba, min lastLba hp.lastUsableLba⟩

/-- A state with other bytes on the disk. -/
def GptState.withBytes (s : GptState) (p : Mem) : GptState := { s with disk := s.disk.withBytes p }

@[simp] theorem GptState.withBytes_disk (s : GptState) (p : Mem) :
    (s.withBytes p).disk = s.disk.withBytes p := rfl

section Adding

variable {s s' : GptState} {hp hb : GptHdr} {ents : Mem} {type name : Text} {firstLba lastLba : Nat}

theorem ask_ok_iff {α : Type} {f : Disk → Option α} {a : α} :
    ask f s = .ok a s' ↔ f s.disk = some a ∧ s' = s := by
  unfold ask
  cases f s.disk with
  | none =>
      constructor
      · intro h
        cases h
      · rintro ⟨h, -⟩
        cases h
  | some b =>
      constructor
      · intro h
        cases h
        exact ⟨rfl, rfl⟩
      · rintro ⟨h, rfl⟩
        cases h
        rfl

theorem pwriteBytes_inv {off len : Nat} {src : Mem} (h : pwriteBytes off len src s = .ok () s') :
    s.disk.writable = true ∧ s' = s.withBytes (s.disk.bytes.write (off % uint64) len src) := by
  unfold pwriteBytes Disk.write at h
  by_cases hw : s.disk.writable = true ∧ off % uint64 ≤ s.disk.size ∧ len ≤ s.disk.size - off % uint64
  · rw [if_pos hw] at h
    cases h
    exact ⟨hw.1, rfl⟩
  · rw [if_neg hw] at h
    cases h

theorem mul_lsec_mod_lt {k : Disk} {lba : Nat} (hlt : lba < k.size / 512) :
    lba * lsec % uint64 = lba * 512 := @mul_lsec_mod k lba 0 (by omega)

/-- The two writes at the end of `gpt add`. -/
theorem writeTables_inv (hg : GptDisk s.disk hp hb ents) {ents' : Mem}
    (h : (gptWrite (sealHdr hp ents') ents' >>= fun _ => gptWrite (sealHdr hb ents') ents') s = .ok () s') :
    s.disk.writable = true ∧ s' = s.withBytes
      (tablesBytes s.disk.bytes (sealHdr hp ents') (sealHdr hb ents') ents') := by
  obtain ⟨hgp, hgb⟩ := hg.good
  obtain ⟨-, -, -, -, hc, hb', -, he⟩ := hgp.bounds
  obtain ⟨-, -, -, -, hc', -, -, he'⟩ := hgb.bounds
  obtain ⟨⟨⟩, s₁, h₁, h₂⟩ := bind_ok_iff.mp h
  unfold gptWrite at h₁ h₂
  obtain ⟨⟨⟩, s₂, h₃, h₄⟩ := bind_ok_iff.mp h₁
  obtain ⟨⟨⟩, s₃, h₅, h₆⟩ := bind_ok_iff.mp h₂
  obtain ⟨hw, rfl⟩ := pwriteBytes_inv h₃
  obtain ⟨-, rfl⟩ := pwriteBytes_inv h₄
  obtain ⟨-, rfl⟩ := pwriteBytes_inv h₅
  obtain ⟨-, rfl⟩ := pwriteBytes_inv h₆
  refine ⟨hw, ?_⟩
  have hone : 1 * lsec % uint64 = 512 := by decide
  simp only [sealHdr_entriesLba, sealHdr_currentLba, sealHdr_numEntries, sealHdr_entrySize,
    hg.own.1, hg.own.2, hg.shape.1, hg.shape.2, hone, mul_lsec_mod_lt he, mul_lsec_mod_lt he',
    mul_lsec_mod_lt hb', GptState.withBytes_disk, Disk.withBytes_bytes]
  unfold tablesBytes
  simp only [sealHdr_entriesLba, sealHdr_backupLba, sealHdr_arrayBytes]
  rfl

/-- On a GPT disk the reads of `gpt add` find the headers and the entries. -/
theorem GptDisk.entriesFor {k : Disk} (hg : GptDisk k hp hb ents) : entriesFor k hp hb = some ents := by
  unfold Block.entriesFor
  rw [hg.entries]

theorem GptDisk.placeRange {k : Disk} (hg : GptDisk k hp hb ents) :
    placeRange k firstLba lastLba = (freeEntry ents hp).map
      (fun idx => ⟨idx, max firstLba hp.firstUsableLba, min lastLba hp.lastUsableLba⟩) := by
  unfold Block.placeRange
  rw [hg.primary, some_bind, hg.backup, some_bind, hg.entriesFor, some_bind]
  cases freeEntry ents hp with
  | none => rfl
  | some idx => rfl

/-- A new entry in the slot `p.idx`, and both copies of the table written: what a successful
`gpt add` does to a GPT disk. -/
structure Adds (k k' : Disk) (hp hb : GptHdr) (ents ents' : Mem) (p : Placement) : Prop where
  disk : GptDisk k' (sealHdr hp ents') (sealHdr hb ents') ents'
  free : freeEntry ents hp = some p.idx
  order : p.span.1 ≤ p.span.2
  usable : p.span.2 ≤ hp.lastUsableLba
  size : k'.size = k.size
  writable : k'.writable = k.writable
  used : usedAt ents' hp.entrySize p.idx = true
  span : spanAt ents' hp.entrySize p.idx = p.span
  other : ∀ i, i ≠ p.idx → usedAt ents' hp.entrySize i = usedAt ents hp.entrySize i ∧
    spanAt ents' hp.entrySize i = spanAt ents hp.entrySize i

/-- The array with the entry that is added. -/
theorem addEntry_spec (hg : GptDisk s.disk hp hb ents) {typeGuid : Text} {guid : Mem} {idx first last : Nat}
    (htype : typeGuidFor type = some typeGuid) (hfree : freeEntry ents hp = some idx)
    (hle : first ≤ last) (hhi : last ≤ hp.lastUsableLba) {ents' : Mem}
    (hents : ents' = setSlot ents hp.entrySize idx (newEntry typeGuid guid name first last)) :
    Adds s.disk (s.disk.withBytes (tablesBytes s.disk.bytes (sealHdr hp ents') (sealHdr hb ents') ents'))
      hp hb ents ents' ⟨idx, first, last⟩ := by
  obtain ⟨-, hsize, -, -, -, -, husable, -⟩ := hg.good.1.bounds
  obtain ⟨⟨-, hin, -⟩, -⟩ := hg.areas
  obtain ⟨hlen, hused⟩ := typeGuidFor_used htype
  obtain ⟨hidx, -, -⟩ := freeEntry_iff.mp hfree
  have hround := Nat.div_mul_le_self s.disk.size 512
  have h64 : s.disk.size / 512 < uint64 := lt_of_le_of_lt (Nat.div_le_self _ _) s.disk.size_lt
  obtain ⟨-, hold, -⟩ := gptReadEntries_some hg.entries (le_trans hin hround)
  have hshort : ∀ i, hp.arrayBytes ≤ i → ents' i = 0 := by
    intro i hi
    have hend : idx * hp.entrySize + hp.entrySize ≤ hp.arrayBytes := by
      unfold GptHdr.arrayBytes
      rw [← Nat.succ_mul]
      exact Nat.mul_le_mul_right _ hidx
    rw [hents]
    unfold setSlot
    rw [Mem.write_out (Or.inr (le_trans hend hi)), hold]
    exact Mem.slice_out hi
  obtain ⟨hself, hspan⟩ := @setSlot_self ents hp.entrySize idx first last typeGuid name guid hsize hlen
    hused (by omega) (by omega)
  refine ⟨hg.put hshort, hfree, hle, hhi, rfl, rfl, ?_, ?_, ?_⟩
  · rw [hents]
    exact hself
  · rw [hents]
    exact hspan
  · intro i hi
    rw [hents]
    exact setSlot_other hsize hi

/-- What a successful `gpt add` has read and found, up to its writes: the headers, the entries, a free slot, and a
range in the usable area. -/
theorem gptAddByRange_inv (h : gptAddByRange type name firstLba lastLba s = .ok () s') :
    ∃ hp hb ents typeGuid idx guid s₁, gptReadHeader s.disk 1 (s.disk.size / lsec) = some hp ∧
      gptReadHeader s.disk hp.backupLba (s.disk.size / lsec) = some hb ∧ entriesFor s.disk hp hb = some ents ∧
      typeGuidFor type = some typeGuid ∧ freeEntry ents hp = some idx ∧
      max firstLba hp.firstUsableLba ≤ min lastLba hp.lastUsableLba ∧ s₁.disk = s.disk ∧
      ∃ ents', ents' = setSlot ents hp.entrySize idx (newEntry typeGuid guid name (max firstLba hp.firstUsableLba)
        (min lastLba hp.lastUsableLba)) ∧
        (gptWrite (sealHdr hp ents') ents' >>= fun _ => gptWrite (sealHdr hb ents') ents') s₁ = .ok () s' := by
  unfold gptAddByRange at h
  obtain ⟨typeGuid, t, ha, h⟩ := bind_ok_iff.mp h
  obtain ⟨htype, ht⟩ := ask_ok_iff.mp ha
  obtain rfl : s = t := ht.symm
  obtain ⟨_, t, hf, h⟩ := bind_ok_iff.mp h
  obtain rfl : s = t := (failIf_ok_iff.mp hf).2.symm
  obtain ⟨hp, t, ha, h⟩ := bind_ok_iff.mp h
  obtain ⟨hprimary, ht⟩ := ask_ok_iff.mp ha
  obtain rfl : s = t := ht.symm
  obtain ⟨hb, t, ha, h⟩ := bind_ok_iff.mp h
  obtain ⟨hbackup, ht⟩ := ask_ok_iff.mp ha
  obtain rfl : s = t := ht.symm
  obtain ⟨ents, t, ha, h⟩ := bind_ok_iff.mp h
  obtain ⟨hents, ht⟩ := ask_ok_iff.mp ha
  obtain rfl : s = t := ht.symm
  obtain ⟨_, t, hf, h⟩ := bind_ok_iff.mp h
  obtain ⟨hle, ht⟩ := failIf_ok_iff.mp hf
  obtain rfl : s = t := ht.symm
  obtain ⟨_, t, hf, h⟩ := bind_ok_iff.mp h
  obtain rfl : s = t := (failIf_ok_iff.mp hf).2.symm
  obtain ⟨idx, t, ha, h⟩ := bind_ok_iff.mp h
  obtain ⟨hfree, ht⟩ := ask_ok_iff.mp ha
  obtain rfl : s = t := ht.symm
  obtain ⟨guid, s₁, hguid, h⟩ := bind_ok_iff.mp h
  have hdisk : s₁.disk = s.disk := by
    cases hguid
    rfl
  exact ⟨hp, hb, ents, typeGuid, idx, guid, s₁, hprimary, hbackup, hents, htype, hfree, Nat.le_of_not_lt hle, hdisk, _, rfl, h⟩

/-- A successful `gpt add` on a GPT disk. -/
theorem gptAddByRange_adds (hg : GptDisk s.disk hp hb ents)
    (h : gptAddByRange type name firstLba lastLba s = .ok () s') :
    ∃ p ents', placeRange s.disk firstLba lastLba = some p ∧ Adds s.disk s'.disk hp hb ents ents' p := by
  obtain ⟨hp', hb', ents₀, typeGuid, idx, guid, s₁, hprimary, hbackup, hents, htype, hfree, hle, hdisk, ents', hnew, hwrite⟩ :=
    gptAddByRange_inv h
  -- the headers and the entries are those of the disk
  obtain rfl : hp = hp' := Option.some.inj (hg.primary.symm.trans hprimary)
  obtain rfl : hb = hb' := Option.some.inj (hg.backup.symm.trans hbackup)
  obtain rfl : ents = ents₀ := Option.some.inj (hg.entriesFor.symm.trans hents)
  rw [← hdisk] at hg
  obtain ⟨-, rfl⟩ := writeTables_inv hg hwrite
  have hspec := @addEntry_spec s₁ hp hb ents type name hg typeGuid guid idx _ _ htype hfree hle (min_le_right _ _) _ hnew
  have hplace := @GptDisk.placeRange hp hb ents firstLba lastLba s₁.disk hg
  rw [hfree, Option.map_some] at hplace
  rw [← hdisk]
  exact ⟨_, _, hplace, hspec⟩

/-- A range that is free in the usable area is added, if a slot is free. -/
theorem gptAddByRange_accepts (hg : GptDisk s.disk hp hb ents) (hw : s.disk.writable = true)
    {typeGuid : Text} (htype : typeGuidFor type = some typeGuid) (hlo : hp.firstUsableLba ≤ firstLba)
    (hle : firstLba ≤ lastLba) (hhi : lastLba ≤ hp.lastUsableLba)
    (hclear : ∀ i, i < hp.numEntries → entOverlaps ents firstLba lastLba (i * hp.entrySize) = false)
    {idx : Nat} (hfree : freeEntry ents hp = some idx) :
    ∃ s', gptAddByRange type name firstLba lastLba s = .ok () s' := by
  obtain ⟨⟨h₁, h₂, h₃, h₄⟩, -⟩ := hg.areas
  obtain ⟨hgp, hgb⟩ := hg.good
  obtain ⟨-, -, -, -, hc, hb', -, he⟩ := hgp.bounds
  obtain ⟨-, -, -, -, hc', -, -, he'⟩ := hgb.bounds
  have hround := Nat.div_mul_le_self s.disk.size 512
  have hone : 1 * lsec % uint64 = 512 := by decide
  have hmax : max firstLba hp.firstUsableLba = firstLba := max_eq_left hlo
  have hmin : min lastLba hp.lastUsableLba = lastLba := min_eq_left hhi
  have hask : ∀ {α : Type} {f : Disk → Option α} {a : α}, f s.disk = some a → ask f s = .ok a s :=
    fun h => ask_ok_iff.mpr ⟨h, rfl⟩
  have hguid : ∃ e s₁, genGuid s = .ok e s₁ ∧ s₁.disk = s.disk := ⟨_, _, rfl, rfl⟩
  obtain ⟨guid, s₁, hguid, hdisk⟩ := hguid
  unfold gptAddByRange
  rw [bind_of_ok (hask htype), bind_of_ok (failIf_of_not (by omega)), bind_of_ok (hask hg.primary),
    bind_of_ok (hask hg.backup), bind_of_ok (hask hg.entriesFor)]
  dsimp only []
  rw [hmax, hmin, bind_of_ok (failIf_of_not (by omega)), bind_of_ok (failIf_of_not ?_),
    bind_of_ok (hask hfree), bind_of_ok hguid]
  · have hwrite : ∀ (t : GptState) (off len : Nat) (src : Mem), t.disk.size = s.disk.size →
        t.disk.writable = true → off % uint64 + len ≤ s.disk.size →
        ∃ t', pwriteBytes off len src t = .ok () t' ∧ t'.disk.size = s.disk.size ∧
          t'.disk.writable = true := by
      intro t off len src hsize hwr hin
      unfold pwriteBytes Disk.write
      rw [if_pos ⟨hwr, by omega, by omega⟩]
      exact ⟨_, rfl, hsize, hwr⟩
    have hstep : ∀ (t : GptState) (h : GptHdr) (e : Mem), t.disk.size = s.disk.size →
        t.disk.writable = true → h.entriesLba * lsec % uint64 + h.arrayBytes ≤ s.disk.size →
        h.currentLba * lsec % uint64 + 512 ≤ s.disk.size →
        ∃ t', gptWrite h e t = .ok () t' ∧ t'.disk.size = s.disk.size ∧ t'.disk.writable = true := by
      intro t h e hsize hwr hin₁ hin₂
      obtain ⟨t₁, hr₁, hs₁, hw₁⟩ := hwrite t (h.entriesLba * lsec) (h.numEntries * h.entrySize) e hsize
        hwr hin₁
      obtain ⟨t₂, hr₂, hs₂, hw₂⟩ := hwrite t₁ (h.currentLba * lsec) lsec (h.slice 0 GptHdr.size) hs₁
        hw₁ hin₂
      refine ⟨t₂, ?_, hs₂, hw₂⟩
      unfold gptWrite
      rw [bind_of_ok hr₁]
      exact hr₂
    have hbytes : hb.arrayBytes = hp.arrayBytes := by
      unfold GptHdr.arrayBytes
      rw [hg.shape.1, hg.shape.2]
    generalize ents.write _ _ _ = ents'
    obtain ⟨t₁, hr₁, hs₁, hw₁⟩ := hstep s₁ (sealHdr hp ents') ents' (by rw [hdisk]) (by rw [hdisk]; exact hw)
      (by rw [sealHdr_entriesLba, mul_lsec_mod_lt he, sealHdr_arrayBytes]; exact le_trans h₂ hround)
      (by rw [sealHdr_currentLba, hg.own.1, hone]; exact le_trans h₁ hround)
    obtain ⟨t₂, hr₂, -, -⟩ := hstep t₁ (sealHdr hb ents') ents' hs₁ hw₁
      (by rw [sealHdr_entriesLba, mul_lsec_mod_lt he', sealHdr_arrayBytes, hbytes]; exact le_trans h₄ hround)
      (by rw [sealHdr_currentLba, hg.own.2, mul_lsec_mod_lt hb']; exact le_trans h₃ hround)
    unfold sealHdr at hr₁ hr₂
    rw [bind_of_ok hr₁]
    exact ⟨t₂, hr₂⟩
  · rintro ⟨i, hi, hover⟩
    rw [hclear i (List.mem_range.mp hi)] at hover
    cases hover

end Adding

end Guppy.Block
