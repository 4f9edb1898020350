import Guppy.Vdisk.VdiCrash

set_option autoImplicit false

/-! # Writing to an image from elsewhere

`vdi_open` accepts every file whose header passes its checks. These bound the allocated
count and the size of the file, but they say nothing about where the map lies or about its
entries. `WellFormed` is what is missing: the map lies between the header and the data area,
every entry is unallocated or below the allocated count, and no two guest blocks share one.
`vdisk_vdi_inspect` reports an image without these properties as malformed. On a well-formed
image a write stays inside its range (`wellFormed_write_safe`); `shared_entry_unsafe` is an
accepted image on which it does not.
-/

namespace Guppy.Vdisk

open Prog

/-- The file `f` opens as the dynamic image `s`. -/
def Opens (f : HostFile) (s : DiskState) : Prop :=
  vdiOpen (newState f) = .ok () s ∧ s.disk.imageType = vdiImageTypeDynamic

/-- What a write of `len` bytes at `off` must leave alone: the header but for the allocated
count, the map but for the entries of blocks it allocates, and every byte outside its
range. -/
structure WriteSafe (s s' : DiskState) (off len : Nat) : Prop where
  header : ∀ a, a < vdiHeaderBytes → (a < 0x184 ∨ 0x184 + 4 ≤ a) →
    s'.file.bytes a = s.file.bytes a
  map : ∀ g, g < s.disk.blocksCount →
    s'.file.bytes.rd32 (s.disk.blocksOffset + g * 4) = entryOf s g ∨
      entryOf s g = vdiBlockUnallocated ∧
        ∃ i, off ≤ i ∧ i < off + len ∧ i / s.disk.blockSize = g
  guest : ∀ o l, (∀ i, o ≤ i → i < o + l → i < off ∨ off + len ≤ i) →
    readBack s' o l = readBack s o l

/-- The map lies between the header and the data area, and the entries of the guest blocks
that hold bytes of the disk are unallocated, or below the count and distinct. -/
structure WellFormed (s : DiskState) : Prop where
  header_map : vdiHeaderBytes ≤ s.disk.blocksOffset
  map_data : s.disk.blocksOffset + s.disk.blocksCount * 4 ≤ s.disk.dataOffset
  entry_lt : ∀ g, Held s.disk g →
    entryOf s g = vdiBlockUnallocated ∨ entryOf s g < s.disk.blocksAllocated
  entry_inj : ∀ g h, Held s.disk g → Held s.disk h →
    entryOf s g ≠ vdiBlockUnallocated → entryOf s g = entryOf s h → g = h

/-- What `vdi_open` has checked when it returns. -/
structure Accepted (f : HostFile) (s : DiskState) : Prop where
  file : s.file = f
  running : s.stop = none
  disk : s.disk = diskOfHeader blankDisk (f.bytes.slice 0 vdiHeaderBytes) f.size
  header : headerBad (f.bytes.slice 0 vdiHeaderBytes) = false
  size_le : s.disk.sizeBytes ≤ s.disk.blocksCount * s.disk.blockSize
  data_file : s.disk.imageType = vdiImageTypeDynamic →
    s.disk.dataOffset + s.disk.blocksAllocated * s.disk.blockSize ≤ s.file.size

theorem vdiOpen_accepted {f : HostFile} {s : DiskState}
    (h : vdiOpen (newState f) = .ok () s) : Accepted f s := by
  unfold vdiOpen at h
  obtain ⟨b, s₁, hread, h⟩ := bind_ok_iff.mp h
  have hfile : 0 + vdiHeaderBytes ≤ f.size := by
    by_contra hgt
    rw [vdiskHostRead_of_gt (by decide) (Nat.lt_of_not_le hgt)] at hread
    cases hread
  rw [vdiskHostRead_of_le (s := newState f) hfile] at hread
  cases hread
  obtain ⟨n, s₂, hsize, h⟩ := bind_ok_iff.mp h
  cases hsize
  obtain ⟨s₃, s₄, hget, h⟩ := bind_ok_iff.mp h
  cases hget
  obtain ⟨_, s₅, h₅, h⟩ := bind_ok_iff.mp h
  obtain ⟨hbad, rfl⟩ := failIf_ok_iff.mp h₅
  obtain ⟨_, s₆, h₆, h⟩ := bind_ok_iff.mp h
  obtain ⟨hcap, rfl⟩ := failIf_ok_iff.mp h₆
  set d := diskOfHeader (newState f).disk ((newState f).file.bytes.slice 0 vdiHeaderBytes)
    (newState f).file.size with hd
  have hgood : headerBad (f.bytes.slice 0 vdiHeaderBytes) = false := by
    exact Bool.eq_false_iff.mpr hbad
  by_cases ht : d.imageType = vdiImageTypeFixed
  · rw [if_pos ht] at h
    obtain ⟨_, s₇, h₇, h⟩ := bind_ok_iff.mp h
    obtain ⟨-, rfl⟩ := failIf_ok_iff.mp h₇
    obtain ⟨_, s₈, h₈, h⟩ := bind_ok_iff.mp h
    obtain ⟨-, rfl⟩ := failIf_ok_iff.mp h₈
    cases h
    refine ⟨rfl, rfl, rfl, hgood, Nat.le_of_not_lt hcap, fun hdyn => ?_⟩
    have : d.imageType = vdiImageTypeDynamic := hdyn
    rw [this] at ht
    exact absurd ht (by decide)
  · rw [if_neg ht] at h
    obtain ⟨_, s₇, h₇, h⟩ := bind_ok_iff.mp h
    obtain ⟨-, rfl⟩ := failIf_ok_iff.mp h₇
    obtain ⟨_, s₈, h₈, h⟩ := bind_ok_iff.mp h
    obtain ⟨hfit, rfl⟩ := failIf_ok_iff.mp h₈
    cases h
    exact ⟨rfl, rfl, rfl, hgood, Nat.le_of_not_lt hcap, fun _ => Nat.le_of_not_lt hfit⟩

/-- The checks of `vdi_open` and `WellFormed` together separate the image. -/
theorem Accepted.separated {f : HostFile} {s : DiskState} (h : Accepted f s)
    (hdyn : s.disk.imageType = vdiImageTypeDynamic) (hw : WellFormed s) : Separated s := by
  have hgood := h.header
  simp only [headerBad, Bool.or_eq_false_iff, decide_eq_false_iff_not] at hgood
  obtain ⟨⟨⟨⟨⟨⟨⟨⟨⟨⟨⟨⟨-, -⟩, -⟩, -⟩, -⟩, -⟩, hbs⟩, -⟩, -⟩, -⟩, -⟩, -⟩, hal⟩ := hgood
  refine ⟨hdyn, ?_, ?_, h.size_le, hw.header_map, hw.map_data, h.data_file hdyn, ?_, hw.entry_lt,
    hw.entry_inj⟩
  · rw [h.disk]
    exact Nat.pos_of_ne_zero hbs
  · rw [h.disk]
    exact Mem.rd32_lt _ _
  · rw [h.disk]
    exact Nat.le_of_not_lt hal

theorem Touched.writeSafe {s s' : DiskState} {off len : Nat} (h : Touched s s' off len)
    (hs : Separated s) : WriteSafe s s' off len where
  header := h.header
  map := by
    intro g hg
    by_cases hin : ∃ i, off ≤ i ∧ i < off + len ∧ i / s.disk.blockSize = g
    · by_cases hu : entryOf s g = vdiBlockUnallocated
      · exact Or.inr ⟨hu, hin⟩
      · refine Or.inl ?_
        have hstay := h.stays g hg hu
        unfold entryOf at hstay ⊢
        rw [← hstay, h.shape]
    · refine Or.inl ?_
      have hkeep := h.entry_eq hs hg (fun i hi hi' heq => hin ⟨i, hi, hi', heq⟩)
      unfold entryOf at hkeep ⊢
      rw [← hkeep, h.shape]
  guest := by
    intro o l hapart
    refine readBack_congr hs h.separated (by rw [h.shape]) (fun i hi hi' hlt => ?_)
    exact h.outside i (held_of_lt hlt) (hapart i hi hi')

/-- A write to a well-formed image stays inside its range, whether it succeeds or fails. -/
theorem wellFormed_write_safe {f : HostFile} {s : DiskState} (h : Opens f s) (hw : WellFormed s)
    {off : Nat} {data : List UInt8} (hsz : off + data.length ≤ s.disk.sizeBytes) :
    WriteSafe s (answer (fun _ => ([] : List UInt8)) (vdiWrite off data s)).2 off data.length := by
  have hacc := vdiOpen_accepted h.1
  have hsep := hacc.separated h.2 hw
  have hwr : s.disk.writable = true := by
    rw [hacc.disk]
    rfl
  rw [vdiWrite_dynamic hsep hwr hsz]
  cases hrun : vdiWriteLoop data.length off data s with
  | ok u s' =>
      exact (vdiWriteLoop_ok _ _ _ _ _ (le_refl _) hsep hsz hrun).touched.writeSafe hsep
  | error e s' =>
      rcases vdiWriteLoop_error _ _ _ _ _ _ (le_refl _) hsep hsz hrun with ⟨k, hk, -⟩ | ht
      · rw [hacc.running] at hk
        cases hk
      · exact ht.writeSafe hsep

/-! ## An accepted image whose blocks overlap -/

/-- A dynamic image of two guest blocks of 512 bytes with the given map entries and one
allocated data block. -/
def smallImage (entry₀ entry₁ : Nat) : HostFile :=
  { size := 1536
    bytes :=
      ((((initHeader 1024 vdiImageTypeDynamic 2 512 1024 Mem.zero Mem.zero).wr32 0x178 512).wr32
        0x184 1).wr32 512 entry₀).wr32 516 entry₁ }

/-- Both guest blocks have the entry 0. `vdi_open` accepts the image, and a write to the
first block changes the second. -/
theorem shared_entry_unsafe :
    ¬ ∀ f s, Opens f s → ∀ off data, off + data.length ≤ s.disk.sizeBytes →
      WriteSafe s (answer (fun _ => ([] : List UInt8)) (vdiWrite off data s)).2 off
        data.length := by
  intro hall
  set s := (answer (fun _ => ([] : List UInt8)) (vdiOpen (newState (smallImage 0 0)))).2 with hs
  have hopen : Opens (smallImage 0 0) s := by
    refine ⟨?_, by decide +kernel⟩
    have hok : (answer (fun _ => ([] : List UInt8))
        (vdiOpen (newState (smallImage 0 0)))).1 = some [] := by decide +kernel
    rw [hs]
    cases hrun : vdiOpen (newState (smallImage 0 0)) with
    | ok u s' => rfl
    | error e s' =>
        rw [hrun] at hok
        cases hok
  have hsafe := hall _ s hopen 0 [7] (by decide +kernel)
  have hsame := hsafe.guest 512 1 (by
    intro i hi _
    exact Or.inr (by simp only [List.length_cons, List.length_nil]; omega))
  exact absurd hsame (by decide +kernel)

/-- With the second block unallocated the same write is safe. -/
theorem wellFormed_write_safe_small :
    ∃ s, Opens (smallImage 0 vdiBlockUnallocated) s ∧ WellFormed s ∧
      WriteSafe s (answer (fun _ => ([] : List UInt8)) (vdiWrite 510 [1, 2, 3] s)).2 510 3 := by
  set s := (answer (fun _ => ([] : List UInt8))
    (vdiOpen (newState (smallImage 0 vdiBlockUnallocated)))).2 with hs
  have hopen : Opens (smallImage 0 vdiBlockUnallocated) s := by
    refine ⟨?_, by decide +kernel⟩
    have hok : (answer (fun _ => ([] : List UInt8))
        (vdiOpen (newState (smallImage 0 vdiBlockUnallocated)))).1 = some [] := by decide +kernel
    rw [hs]
    cases hrun : vdiOpen (newState (smallImage 0 vdiBlockUnallocated)) with
    | ok u s' => rfl
    | error e s' =>
        rw [hrun] at hok
        cases hok
  have hbs : s.disk.blockSize = 512 := by decide +kernel
  have hsz : s.disk.sizeBytes = 1024 := by decide +kernel
  have h₀ : entryOf s 0 = 0 := by decide +kernel
  have h₁ : entryOf s 1 = vdiBlockUnallocated := by decide +kernel
  have hheld : ∀ g, Held s.disk g → g = 0 ∨ g = 1 := by
    intro g hg
    rw [Held, hbs, hsz] at hg
    omega
  have hwf : WellFormed s := by
    refine ⟨by decide +kernel, by decide +kernel, ?_, ?_⟩
    · intro g hg
      rcases hheld g hg with rfl | rfl
      · exact Or.inr (by rw [h₀]; decide +kernel)
      · exact Or.inl h₁
    · intro g h hg hh hne heq
      rcases hheld g hg with rfl | rfl <;> rcases hheld h hh with rfl | rfl
      · rfl
      · rw [h₀, h₁] at heq
        exact absurd heq (by decide)
      · exact absurd h₁ hne
      · rfl
  exact ⟨s, hopen, hwf, wellFormed_write_safe hopen hwf (by rw [hsz]; decide)⟩

end Guppy.Vdisk
