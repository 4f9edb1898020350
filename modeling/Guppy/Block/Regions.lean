import Guppy.Block.GptRun

set_option autoImplicit false

/-! # The regions of a fresh GPT

`gpt init` computes every position from the last sector of the device: the backup header is
there, the backup entries are in the 32 sectors before it, and the usable area ends before them.
It accepts a device when there is room for the MBR, two headers and one array of entries. The
second array is not counted, so on a device of 35 to 67 sectors the regions do not fit. From 68
sectors on they do.
-/

namespace Guppy.Block

open Vfs Prog

/-- Two ranges of sectors have no sector in common. -/
def Span.Apart (a b : Span) : Prop := a.2 < b.1 ∨ b.2 < a.1

/-- The ranges of sectors that a table uses: the MBR, the primary header and its entries, the usable
area, and the entries and the header of the backup. -/
def gptRegions (hp hb : GptHdr) : List Span :=
  [(0, 0), (hp.currentLba, hp.currentLba),
    (hp.entriesLba, hp.entriesLba + hp.numEntries * hp.entrySize / lsec - 1),
    (hp.firstUsableLba, hp.lastUsableLba),
    (hb.entriesLba, hb.entriesLba + hb.numEntries * hb.entrySize / lsec - 1),
    (hb.currentLba, hb.currentLba)]

/-- No region overlaps another one, and each has a sector and lies on the device. -/
structure LaidOut (total : Nat) (hp hb : GptHdr) : Prop where
  apart : (gptRegions hp hb).Pairwise Span.Apart
  inside : ∀ r ∈ gptRegions hp hb, r.1 ≤ r.2 ∧ r.2 < total

section

variable {total : Nat} {hp hb : GptHdr} {guid : Mem}

/-- Where the regions of a fresh table are. -/
theorem gptRegions_fresh (hfp : HdrFields hp total 1 (total - 1) 2 guid)
    (hfb : HdrFields hb total (total - 1) 1 (total - 33) guid) :
    gptRegions hp hb = [(0, 0), (1, 1), (2, 33), (34, total - 34), (total - 33, total - 33 + 32 - 1),
      (total - 1, total - 1)] := by
  unfold gptRegions
  rw [hfp.bytes, hfb.bytes, hfp.currentLba, hfb.currentLba, hfp.entriesLba, hfb.entriesLba,
    hfp.firstUsableLba, hfp.lastUsableLba]
  rfl

theorem laidOut_fresh_iff (h35 : 35 ≤ total) (hfp : HdrFields hp total 1 (total - 1) 2 guid)
    (hfb : HdrFields hb total (total - 1) 1 (total - 33) guid) : LaidOut total hp hb ↔ 68 ≤ total := by
  have hregions := gptRegions_fresh hfp hfb
  constructor
  · intro h
    -- the usable area has a sector
    have hmem : (34, total - 34) ∈ gptRegions hp hb := by
      rw [hregions]
      simp
    obtain ⟨hle, -⟩ := h.inside _ hmem
    dsimp only at hle
    omega
  · intro h68
    constructor
    · rw [hregions]
      simp only [List.pairwise_cons, List.forall_mem_cons, Span.Apart, List.not_mem_nil, false_imp_iff,
        implies_true, List.Pairwise.nil, and_true]
      refine ⟨⟨?_, ?_, ?_, ?_, ?_⟩, ⟨?_, ?_, ?_, ?_⟩, ⟨?_, ?_, ?_⟩, ⟨?_, ?_⟩, ?_⟩ <;> omega
    · rw [hregions]
      simp only [List.forall_mem_cons, List.not_mem_nil, false_imp_iff, implies_true, and_true]
      refine ⟨?_, ?_, ?_, ?_, ?_, ?_⟩ <;> omega

/-- Both headers of a table without entries are read, also where the two arrays overlap: there are
only zeros in them. -/
theorem withCopies_headers {k : Disk} (h35 : 35 ≤ k.size / 512)
    (hfp : HdrFields hp (k.size / 512) 1 (k.size / 512 - 1) 2 guid)
    (hfb : HdrFields hb (k.size / 512) (k.size / 512 - 1) 1 (k.size / 512 - 33) guid)
    (hsp : Sealed hp Mem.zero) (hsb : Sealed hb Mem.zero) :
    gptReadHeader (withCopies k hp hb Mem.zero) 1 (k.size / lsec) = some hp ∧
      gptReadHeader (withCopies k hp hb Mem.zero) hp.backupLba (k.size / lsec) = some hb := by
  have hEB : entriesBytes = 16384 := rfl
  have hsize : (withCopies k hp hb Mem.zero).size = k.size := rfl
  have hbytes : (withCopies k hp hb Mem.zero).bytes =
      copyBytes (copyBytes k.bytes hp Mem.zero 1 2) hb Mem.zero (k.size / 512 - 1) (k.size / 512 - 33) := rfl
  have hprim : OnDisk (withCopies k hp hb Mem.zero) hp Mem.zero 1 2 := by
    constructor
    · rw [hbytes]
      unfold copyBytes
      rw [Mem.slice_write_out (by omega), Mem.slice_write_out (by omega),
        Mem.slice_write_in (by omega) (by omega), Nat.sub_self, slice_short hfp.short]
      exact slice_short hfp.short
    · rw [hbytes]
      unfold copyBytes
      funext i
      by_cases hi : i < entriesBytes
      · rw [Mem.slice_in hi, Mem.write_out (by omega)]
        -- the backup entries may cover these
        by_cases hin : (k.size / 512 - 33) * 512 ≤ 2 * 512 + i
        · rw [Mem.write_in hin (by omega)]
          rfl
        · rw [Mem.write_out (by omega), Mem.write_out (by omega), Mem.write_in (by omega) (by omega)]
          unfold Mem.zero
          rfl
      · rw [Mem.slice_out (by omega)]
        rfl
  have hback : OnDisk (withCopies k hp hb Mem.zero) hb Mem.zero (k.size / 512 - 1) (k.size / 512 - 33) := by
    constructor
    · rw [hbytes]
      unfold copyBytes
      rw [Mem.slice_write_in (by omega) (by omega), Nat.sub_self, slice_short hfb.short]
      exact slice_short hfb.short
    · rw [hbytes]
      unfold copyBytes
      rw [Mem.slice_write_out (by omega), Mem.slice_write_in (by omega) (by omega), Nat.sub_self]
      exact slice_short (fun _ _ => rfl)
  constructor
  · exact hprim.readHeader hfp hsp (by rw [hsize]; omega) (by rw [hsize]; omega) (by rw [hsize]; omega)
  · rw [hfp.backupLba]
    exact hback.readHeader hfb hsb (by rw [hsize]; omega) (by rw [hsize]; omega) (by rw [hsize]; omega)

end

/-- What a successful `gpt init` has written: two headers that are read back, with the fields of a
fresh table. -/
theorem gptCmdInit_headers {s s' : GptState} (h : gptCmdInit s = .ok () s') :
    35 ≤ s.disk.size / lsec ∧ ∃ hp hb guid, gptReadHeader s'.disk 1 (s'.disk.size / lsec) = some hp ∧
      gptReadHeader s'.disk hp.backupLba (s'.disk.size / lsec) = some hb ∧
      HdrFields hp (s.disk.size / lsec) 1 (s.disk.size / lsec - 1) 2 guid ∧
      HdrFields hb (s.disk.size / lsec) (s.disk.size / lsec - 1) 1 (s.disk.size / lsec - 33) guid := by
  obtain ⟨h35, k, hp, hb, guid, hdisk, hsize, -, hfp, hfb, hsp, hsb⟩ := gptCmdInit_writes h
  have hk : s'.disk.size = k.size := by
    rw [hdisk]
    rfl
  rw [← hsize] at h35 ⊢
  obtain ⟨hrp, hrb⟩ := withCopies_headers h35 hfp hfb hsp hsb
  rw [hk, hdisk]
  exact ⟨h35, hp, hb, guid, hrp, hrb, hfp, hfb⟩

/-- `gpt init` leaves a table whose regions fit exactly on the devices of 68 sectors and more. -/
theorem init_regions_fit_iff {s s' : GptState} (h : gptCmdInit s = .ok () s') :
    ∃ hp hb, gptReadHeader s'.disk 1 (s'.disk.size / lsec) = some hp ∧
      gptReadHeader s'.disk hp.backupLba (s'.disk.size / lsec) = some hb ∧
      (LaidOut (s.disk.size / lsec) hp hb ↔ 68 ≤ s.disk.size / lsec) := by
  obtain ⟨h35, hp, hb, guid, hrp, hrb, hfp, hfb⟩ := gptCmdInit_headers h
  exact ⟨hp, hb, hrp, hrb, laidOut_fresh_iff h35 hfp hfb⟩

/-- A blank disk of 35 sectors, the smallest that is accepted. -/
def blankDisk35 : Disk := ⟨17920, true, Mem.zero, by decide⟩

theorem init_regions_fit_iff_small : ∃ s', gptCmdInit ⟨blankDisk35, fun _ => 0⟩ = .ok () s' ∧
    ∃ hp hb, gptReadHeader s'.disk 1 (s'.disk.size / lsec) = some hp ∧
      gptReadHeader s'.disk hp.backupLba (s'.disk.size / lsec) = some hb ∧
      (LaidOut (blankDisk35.size / lsec) hp hb ↔ 68 ≤ blankDisk35.size / lsec) := by
  obtain ⟨s', h⟩ := @gptCmdInit_accepts ⟨blankDisk35, fun _ => 0⟩ rfl (by decide)
  exact ⟨s', h, init_regions_fit_iff h⟩

/-- On 35 sectors the backup entries are put over the primary ones, and the usable area is the range
from 34 to 1. -/
theorem small_regions_overlap : ∃ s', gptCmdInit ⟨blankDisk35, fun _ => 0⟩ = .ok () s' ∧
    ∃ hp hb, gptReadHeader s'.disk 1 (s'.disk.size / lsec) = some hp ∧
      gptReadHeader s'.disk hp.backupLba (s'.disk.size / lsec) = some hb ∧
      hp.entriesLba = 2 ∧ hb.entriesLba = 2 ∧ hp.firstUsableLba = 34 ∧ hp.lastUsableLba = 1 ∧
      ¬ LaidOut (blankDisk35.size / lsec) hp hb := by
  obtain ⟨s', h⟩ := @gptCmdInit_accepts ⟨blankDisk35, fun _ => 0⟩ rfl (by decide)
  obtain ⟨h35, hp, hb, guid, hrp, hrb, hfp, hfb⟩ := gptCmdInit_headers h
  refine ⟨s', h, hp, hb, hrp, hrb, hfp.entriesLba, hfb.entriesLba, hfp.firstUsableLba, hfp.lastUsableLba, ?_⟩
  rw [laidOut_fresh_iff h35 hfp hfb]
  decide

end Guppy.Block
