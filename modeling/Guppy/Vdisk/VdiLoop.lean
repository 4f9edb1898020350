import Guppy.Vdisk.VdiWrite

set_option autoImplicit false

/-! # The write loop

`vdi_write` cuts its range at the block boundaries and writes one chunk per guest block.
`Kept` is what every chunk preserves, completed or interrupted, unless the host stops
between the map entry and the allocated count of a fresh block; `Wrote` adds what a
completed write does to the guest bytes and to the host bytes below the data area. Both
compose, and the loop lemmas follow by induction over the chunks.
-/

namespace Guppy.Vdisk

open Prog

/-- Every block below the allocated count belongs to a guest block. -/
def Full (s : DiskState) : Prop :=
  ∀ e, e < s.disk.blocksAllocated → ∃ g, g < s.disk.blocksCount ∧ entryOf s g = e

/-- The allocated count in the header is the one in memory. -/
def Counted (s : DiskState) : Prop := s.file.bytes.rd32 0x184 = s.disk.blocksAllocated

/-- What a write keeps, whether it completes or is interrupted. -/
structure Kept (s s' : DiskState) : Prop where
  separated : Separated s'
  shape : s'.disk = { s.disk with
    blocksAllocated := s'.disk.blocksAllocated, hostSizeBytes := s'.disk.hostSizeBytes }
  header : ∀ i, i < vdiHeaderBytes → (i < 0x184 ∨ 0x184 + 4 ≤ i) →
    s'.file.bytes i = s.file.bytes i
  counted : Counted s → Counted s'
  full : Full s → Full s'
  stays : ∀ g, g < s.disk.blocksCount → entryOf s g ≠ vdiBlockUnallocated →
    entryOf s' g = entryOf s g

theorem Kept.held {s s' : DiskState} (h : Kept s s') {g : Nat} (hg : Held s.disk g) :
    Held s'.disk g := by
  unfold Held
  rw [h.shape]
  exact hg

theorem Kept.trans {s s' s'' : DiskState} (h₁ : Kept s s') (h₂ : Kept s' s'') : Kept s s'' where
  separated := h₂.separated
  shape := by
    rw [h₂.shape, h₁.shape]
  header := fun i hi hr => by rw [h₂.header i hi hr, h₁.header i hi hr]
  counted := fun h => h₂.counted (h₁.counted h)
  full := fun h => h₂.full (h₁.full h)
  stays := fun g hg hu => by
    have h₃ := h₁.stays g hg hu
    rw [h₂.stays g (by rw [h₁.shape]; exact hg) (by rw [h₃]; exact hu), h₃]

/-- A completed write of `data` at `off`: the guest bytes of the range are the data, all
others are as before, and below the data area only the allocated count and the entries of
blocks of the range that were unallocated may differ. -/
structure Wrote (s s' : DiskState) (off : Nat) (data : List UInt8) : Prop extends Kept s s' where
  guest : ∀ i, Held s.disk (i / s.disk.blockSize) → guestByte s' i
    = if off ≤ i ∧ i < off + data.length then some (data.getD (i - off) 0) else guestByte s i
  below : ∀ a, a < s.disk.dataOffset → (a < 0x184 ∨ 0x184 + 4 ≤ a) →
    (∀ i, off ≤ i → i < off + data.length →
      entryOf s (i / s.disk.blockSize) = vdiBlockUnallocated →
      a < s.disk.blocksOffset + i / s.disk.blockSize * 4 ∨
        s.disk.blocksOffset + i / s.disk.blockSize * 4 + 4 ≤ a) →
    s'.file.bytes a = s.file.bytes a

/-- What is left of a write of `len` bytes at `off`, however far it came: outside its range
the guest bytes are as before, and so is what lies below the data area, but for the
allocated count and the entries of blocks of the range that were unallocated. -/
structure Touched (s s' : DiskState) (off len : Nat) : Prop extends Kept s s' where
  outside : ∀ i, Held s.disk (i / s.disk.blockSize) → (i < off ∨ off + len ≤ i) →
    guestByte s' i = guestByte s i
  low : ∀ a, a < s.disk.dataOffset → (a < 0x184 ∨ 0x184 + 4 ≤ a) →
    (∀ i, off ≤ i → i < off + len → entryOf s (i / s.disk.blockSize) = vdiBlockUnallocated →
      a < s.disk.blocksOffset + i / s.disk.blockSize * 4 ∨
        s.disk.blocksOffset + i / s.disk.blockSize * 4 + 4 ≤ a) →
    s'.file.bytes a = s.file.bytes a

theorem Wrote.touched {s s' : DiskState} {off : Nat} {data : List UInt8}
    (h : Wrote s s' off data) : Touched s s' off data.length where
  toKept := h.toKept
  outside := fun i hi hr => by rw [h.guest i hi, if_neg (by omega)]
  low := h.below

theorem Kept.refl {s : DiskState} (h : Separated s) : Kept s s where
  separated := h
  shape := rfl
  header := fun _ _ _ => rfl
  counted := id
  full := id
  stays := fun _ _ _ => rfl

theorem Touched.refl {s : DiskState} (h : Separated s) (off len : Nat) : Touched s s off len where
  toKept := Kept.refl h
  outside := fun _ _ _ => rfl
  low := fun _ _ _ _ => rfl

theorem Wrote.nil {s : DiskState} (h : Separated s) (off : Nat) : Wrote s s off [] where
  toKept := Kept.refl h
  guest := fun i _ => by rw [if_neg (by simp)]
  below := fun _ _ _ _ => rfl

/-- What the first part of a write and then the second part leave below the data area. -/
theorem low_append {s s' s'' : DiskState} {off m n : Nat} (h₁ : Touched s s' off m)
    (h₂ : ∀ a, a < s'.disk.dataOffset → (a < 0x184 ∨ 0x184 + 4 ≤ a) →
      (∀ i, off + m ≤ i → i < off + m + n →
        entryOf s' (i / s'.disk.blockSize) = vdiBlockUnallocated →
        a < s'.disk.blocksOffset + i / s'.disk.blockSize * 4 ∨
          s'.disk.blocksOffset + i / s'.disk.blockSize * 4 + 4 ≤ a) →
      s''.file.bytes a = s'.file.bytes a)
    (hin : ∀ i, i < off + (m + n) → i / s.disk.blockSize < s.disk.blocksCount) :
    ∀ a, a < s.disk.dataOffset → (a < 0x184 ∨ 0x184 + 4 ≤ a) →
      (∀ i, off ≤ i → i < off + m + n → entryOf s (i / s.disk.blockSize) = vdiBlockUnallocated →
        a < s.disk.blocksOffset + i / s.disk.blockSize * 4 ∨
          s.disk.blocksOffset + i / s.disk.blockSize * 4 + 4 ≤ a) →
      s''.file.bytes a = s.file.bytes a := by
  intro a ha hc hout
  have hs := h₁.shape
  have hb : s'.disk.blockSize = s.disk.blockSize := by rw [hs]
  have ho : s'.disk.blocksOffset = s.disk.blocksOffset := by rw [hs]
  have hD : s'.disk.dataOffset = s.disk.dataOffset := by rw [hs]
  rw [h₂ a (by rw [hD]; exact ha) hc, h₁.low a ha hc]
  · intro i hi hi' hu
    exact hout i hi (by omega) hu
  · -- a block that is unallocated after the first part was unallocated before it
    intro i hi hi' hu
    rw [hb] at hu ⊢
    rw [ho]
    refine hout i (by omega) hi' ?_
    by_contra hne
    rw [h₁.stays _ (hin i (by omega)) hne] at hu
    exact hne hu

theorem Wrote.append {s s' s'' : DiskState} {off : Nat} {d₁ d₂ : List UInt8}
    (h₁ : Wrote s s' off d₁) (h₂ : Wrote s' s'' (off + d₁.length) d₂)
    (hin : ∀ i, i < off + (d₁ ++ d₂).length → i / s.disk.blockSize < s.disk.blocksCount) :
    Wrote s s'' off (d₁ ++ d₂) where
  toKept := h₁.toKept.trans h₂.toKept
  guest := by
    intro i hi
    have hs := h₁.shape
    have hb : s'.disk.blockSize = s.disk.blockSize := by rw [hs]
    have hg₂ := h₂.guest i (by rw [hb]; exact h₁.held hi)
    rw [hg₂, h₁.guest i hi, List.length_append]
    by_cases hin₂ : off + d₁.length ≤ i ∧ i < off + d₁.length + d₂.length
    · rw [if_pos hin₂, if_pos (by omega)]
      have hge : d₁.length ≤ i - off := by omega
      have hsub : i - off - d₁.length = i - (off + d₁.length) := by omega
      simp only [List.getD_eq_getElem?_getD, List.getElem?_append_right hge, hsub]
    · rw [if_neg hin₂]
      by_cases hin₁ : off ≤ i ∧ i < off + d₁.length
      · rw [if_pos hin₁, if_pos (by omega)]
        have hlt : i - off < d₁.length := by omega
        simp only [List.getD_eq_getElem?_getD, List.getElem?_append_left hlt]
      · rw [if_neg hin₁, if_neg (by omega)]
  below := by
    intro a ha hc hout
    rw [List.length_append] at hin hout
    exact low_append h₁.touched h₂.below hin a ha hc (by rw [Nat.add_assoc]; exact hout)

/-! ## One chunk -/

section Chunk

variable {s : DiskState} {off : Nat} {data : List UInt8}

/-- The chunk of a block that is allocated is one host write. -/
theorem vdiWriteChunk_allocated (h : Separated s) (hoff : off < s.disk.sizeBytes)
    (hu : entryOf s (off / s.disk.blockSize) ≠ vdiBlockUnallocated) :
    vdiWriteChunk off data s
      = vdiskHostWrite (s.disk.dataOffset + entryOf s (off / s.disk.blockSize) * s.disk.blockSize
          + off % s.disk.blockSize) data.length (Mem.ofList data) s := by
  have hg := h.mapped.block_lt hoff
  have hl := (h.entry_lt _ (held_of_lt hoff)).resolve_left hu
  show (entryForWrite (off / s.disk.blockSize % (uint32Max + 1)) >>= _) s = _
  rw [h.mapped.block_mod hoff]
  have hent : entryForWrite (off / s.disk.blockSize) s
      = .ok (entryOf s (off / s.disk.blockSize)) s := by
    show (mapGet (off / s.disk.blockSize) >>= _) s = _
    rw [bind_of_ok (mapGet_ok h.mapped hg), if_neg hu, bind_of_ok (failIf_of_not (by omega))]
    rfl
  rw [bind_of_ok hent]

/-- The chunk of an unallocated block allocates it first. -/
theorem vdiWriteChunk_fresh (h : Separated s) (hoff : off < s.disk.sizeBytes)
    (hu : entryOf s (off / s.disk.blockSize) = vdiBlockUnallocated) :
    vdiWriteChunk off data s
      = (allocateBlock (off / s.disk.blockSize) >>= fun entry =>
          vdiskHostWrite (s.disk.dataOffset + entry * s.disk.blockSize + off % s.disk.blockSize)
            data.length (Mem.ofList data)) s := by
  have hg := h.mapped.block_lt hoff
  show (entryForWrite (off / s.disk.blockSize % (uint32Max + 1)) >>= _) s = _
  rw [h.mapped.block_mod hoff]
  have hent : entryForWrite (off / s.disk.blockSize) s = allocateBlock (off / s.disk.blockSize) s := by
    show (mapGet (off / s.disk.blockSize) >>= _) s = _
    rw [bind_of_ok (mapGet_ok h.mapped hg), if_pos hu]
  show EStateM.bind _ _ s = EStateM.bind _ _ s
  unfold EStateM.bind
  rw [hent]

/-- The guest bytes of a chunk, by block and position in the block. -/
theorem chunk_range (hb : 0 < s.disk.blockSize)
    (hfit : off % s.disk.blockSize + data.length ≤ s.disk.blockSize) (i : Nat) :
    (i / s.disk.blockSize = off / s.disk.blockSize ∧ off % s.disk.blockSize ≤ i % s.disk.blockSize
        ∧ i % s.disk.blockSize < off % s.disk.blockSize + data.length)
      ↔ off ≤ i ∧ i < off + data.length := by
  have h₁ := Nat.div_add_mod off s.disk.blockSize
  have h₂ := Nat.div_add_mod i s.disk.blockSize
  constructor
  · rintro ⟨hd, hl, hr⟩
    rw [hd] at h₂
    omega
  · rintro ⟨hl, hr⟩
    obtain ⟨hd, hm⟩ := @chunk_div_mod s.disk hb off (i - off) (by omega)
    rw [Nat.add_sub_cancel' hl] at hd hm
    omega

/-- Writing into an allocated block completes the chunk. -/
theorem wrote_of_write_block {s' : DiskState} (h : Separated s) (hoff : off < s.disk.sizeBytes)
    (hfit : off % s.disk.blockSize + data.length ≤ s.disk.blockSize)
    (hu : entryOf s (off / s.disk.blockSize) ≠ vdiBlockUnallocated) (hd : s'.disk = s.disk)
    (hf : s'.file = s.file.write (s.disk.dataOffset
      + entryOf s (off / s.disk.blockSize) * s.disk.blockSize + off % s.disk.blockSize)
      data.length (Mem.ofList data)) : Wrote s s' off data := by
  have hg := h.mapped.block_lt hoff
  have hmd := h.map_data
  have hhm : 512 ≤ s.disk.blocksOffset := h.header_map
  have hfs : s.disk.dataOffset ≤ s.file.size := le_trans (Nat.le_add_right _ _) h.data_file
  obtain ⟨hsep, hguest⟩ := h.write_block (held_of_lt hoff) hu hfit hd hf
  have hbelow : ∀ a, a < s.disk.dataOffset → s'.file.bytes a = s.file.bytes a := by
    intro a ha
    rw [hf]
    exact HostFile.write_bytes_out (by omega) (by omega)
  have hent : ∀ g, g < s.disk.blocksCount → entryOf s' g = entryOf s g := by
    intro g hg
    simp only [entryOf, hd]
    exact Mem.rd32_congr (fun i hi => hbelow _ (by omega))
  refine ⟨⟨hsep, by rw [hd], fun i hi _ => hbelow i (lt_of_lt_of_le hi (by
    simp only [vdiHeaderBytes]; omega)), ?_, ?_, fun g hg _ => hent g hg⟩, ?_, fun a ha _ _ => hbelow a ha⟩
  · intro hc
    simp only [Counted, hd]
    rw [← hc]
    exact Mem.rd32_congr (fun i hi => hbelow _ (by omega))
  · intro hfull e he
    rw [hd] at he ⊢
    obtain ⟨g, hg, hge⟩ := hfull e he
    exact ⟨g, hg, by rw [hent g hg, hge]⟩
  · intro i hi
    rw [hguest i hi]
    have hrange := chunk_range h.blockSize_pos hfit i
    by_cases hin : off ≤ i ∧ i < off + data.length
    · have hm := (hrange.mpr hin).2
      rw [if_pos (hrange.mpr hin), if_pos hin]
      obtain ⟨-, hmod⟩ := @chunk_div_mod s.disk h.blockSize_pos off (i - off)
        (by omega)
      rw [Nat.add_sub_cancel' hin.1] at hmod
      rw [hmod, Nat.add_sub_cancel_left]
      rfl
    · rw [if_neg (fun hc => hin (hrange.mp hc)), if_neg hin]

/-- An allocation keeps everything a write keeps. -/
theorem Allocated.kept {s' : DiskState} {g : Nat} (ha : Allocated s s' g) (h : Separated s)
    (hc : CanAllocate s.disk) (hg : g < s.disk.blocksCount)
    (hu : entryOf s g = vdiBlockUnallocated) : Kept s s' where
  separated := (ha.separated h hc hg hu).1
  shape := by
    rw [ha.disk]
  header := by
    intro i hi hr
    have hhm : 512 ≤ s.disk.blocksOffset := h.header_map
    have hmd := h.map_data
    have hfd : s.disk.dataOffset ≤ freshOff s.disk := Nat.le_add_right _ _
    have hfs : freshOff s.disk ≤ s.file.size := h.data_file
    simp only [vdiHeaderBytes] at hi
    exact ha.other i (by omega) (by omega) (by omega) hr
  counted := by
    intro _
    simp only [Counted, ha.disk]
    exact ha.count
  full := by
    intro hfull e he
    simp only [ha.disk] at he ⊢
    by_cases hlast : e = s.disk.blocksAllocated
    · exact ⟨g, hg, by rw [ha.entry_self, hlast]⟩
    · obtain ⟨g', hg', hge⟩ := hfull e (by omega)
      refine ⟨g', hg', ?_⟩
      rw [ha.entry_other h hg' ?_, hge]
      intro heq
      rw [heq, hu] at hge
      have h₁ := hc.1
      have h₂ := h.count_lt
      simp only [uint32Max] at h₂
      simp only [vdiBlockUnallocated] at hge
      omega
  stays := by
    intro g' hg' hne
    refine ha.entry_other h hg' ?_
    intro heq
    exact hne (heq ▸ hu)

/-- Changing the file only in the fresh block touches nothing. -/
theorem touched_of_fresh {s' : DiskState} (h : Separated s) (hd : s'.disk = s.disk)
    (hag : AgreesOff s.file s'.file (freshOff s.disk) (freshOff s.disk + s.disk.blockSize))
    (off len : Nat) : Touched s s' off len := by
  have hhm : 512 ≤ s.disk.blocksOffset := h.header_map
  have hmd := h.map_data
  have hfd : s.disk.dataOffset ≤ freshOff s.disk := Nat.le_add_right _ _
  have hfs : freshOff s.disk ≤ s.file.size := h.data_file
  obtain ⟨hsep, hguest⟩ := h.of_fresh hd hag
  have hent : ∀ g, g < s.disk.blocksCount → entryOf s' g = entryOf s g := by
    intro g hg
    simp only [entryOf, hd]
    exact hag.rd32 (by omega) (Or.inl (by omega))
  refine ⟨⟨hsep, by rw [hd], ?_, ?_, ?_, fun g hg _ => hent g hg⟩, fun i hi _ => hguest i hi,
    fun a ha _ _ => hag.bytes_eq a (by omega) (Or.inl (by omega))⟩
  · intro i hi _
    simp only [vdiHeaderBytes] at hi
    exact hag.bytes_eq i (by omega) (Or.inl (by omega))
  · intro hc
    simp only [Counted, hd]
    rw [← hc]
    exact hag.rd32 (by omega) (Or.inl (by omega))
  · intro hfull e he
    rw [hd] at he ⊢
    obtain ⟨g, hg, hge⟩ := hfull e he
    exact ⟨g, hg, by rw [hent g hg, hge]⟩

/-- An allocation for the block of `off` touches no more than a write there may. -/
theorem Allocated.touched {s' : DiskState} (ha : Allocated s s' (off / s.disk.blockSize))
    (h : Separated s) (hc : CanAllocate s.disk) (hoff : off < s.disk.sizeBytes)
    (hu : entryOf s (off / s.disk.blockSize) = vdiBlockUnallocated) {len : Nat} (hlen : 0 < len) :
    Touched s s' off len where
  toKept := ha.kept h hc (h.mapped.block_lt hoff) hu
  outside := fun i hi _ => (ha.separated h hc (h.mapped.block_lt hoff) hu).2 i hi
  low := by
    intro a haD hcount hout
    have hfd : s.disk.dataOffset ≤ freshOff s.disk := Nat.le_add_right _ _
    have hfs : freshOff s.disk ≤ s.file.size := h.data_file
    have hself := hout off (le_refl _) (by omega) hu
    exact ha.other a (by omega) (by omega) hself hcount

/-- A chunk that allocates its block and then completes. -/
theorem Allocated.wrote {s' s'' : DiskState} (ha : Allocated s s' (off / s.disk.blockSize))
    (h : Separated s) (hc : CanAllocate s.disk) (hoff : off < s.disk.sizeBytes)
    (hfit : off % s.disk.blockSize + data.length ≤ s.disk.blockSize)
    (hu : entryOf s (off / s.disk.blockSize) = vdiBlockUnallocated) (hne : data ≠ [])
    (hw : Wrote s' s'' off data) : Wrote s s'' off data := by
  have ht := ha.touched h hc hoff hu (List.length_pos_of_ne_nil hne)
  have hb : s'.disk.blockSize = s.disk.blockSize := by rw [ha.disk]
  have ho : s'.disk.blocksOffset = s.disk.blocksOffset := by rw [ha.disk]
  have hD : s'.disk.dataOffset = s.disk.dataOffset := by rw [ha.disk]
  refine ⟨ht.toKept.trans hw.toKept, ?_, ?_⟩
  · intro i hi
    rw [hw.guest i (by rw [hb]; exact ht.held hi),
      (ha.separated h hc (h.mapped.block_lt hoff) hu).2 i hi]
  · intro a haD hcount hout
    rw [hw.below a (by rw [hD]; exact haD) hcount, ht.low a haD hcount hout]
    intro i hi hi' hui
    rw [hb] at hui ⊢
    rw [ho, ((chunk_range h.blockSize_pos hfit i).mpr ⟨hi, hi'⟩).1]
    exact hout off (le_refl _) (by have := List.length_pos_of_ne_nil hne; omega) hu

/-- The host writes of the chunk at `off`. -/
def chunkWrites (s : DiskState) (off : Nat) : Nat :=
  if entryOf s (off / s.disk.blockSize) = vdiBlockUnallocated then publishWrites s.disk + 2 else 1

/-- A completed chunk writes its guest bytes. -/
theorem vdiWriteChunk_ok {s' : DiskState} (h : Separated s) (hoff : off < s.disk.sizeBytes)
    (hfit : off % s.disk.blockSize + data.length ≤ s.disk.blockSize) (hne : data ≠ [])
    (hrun : vdiWriteChunk off data s = .ok () s') :
    Wrote s s' off data ∧ Allows s.stop (chunkWrites s off)
      ∧ s'.stop = s.stop.map (· - chunkWrites s off) := by
  have hg := h.mapped.block_lt hoff
  by_cases hu : entryOf s (off / s.disk.blockSize) = vdiBlockUnallocated
  · rw [vdiWriteChunk_fresh h hoff hu] at hrun
    obtain ⟨e, s₁, hal, hwr⟩ := bind_ok_iff.mp hrun
    have hc : CanAllocate s.disk := by
      by_contra hc
      rw [allocateBlock_of_not_can hc] at hal
      cases hal
    have hallow : Allows s.stop (publishWrites s.disk + 1) := by
      intro k hk
      by_contra hlt
      by_cases hpub : k < publishWrites s.disk
      · obtain ⟨s₂, herr, -⟩ := allocateBlock_stopped hc hg hk hpub
        rw [herr] at hal
        cases hal
      · obtain ⟨s₂, herr⟩ := allocateBlock_torn hc hg (by rw [hk]; congr 1; omega)
        rw [herr] at hal
        cases hal
    obtain ⟨s₂, hal', hA, hstop⟩ := allocateBlock_ok h hc hg hallow
    rw [hal'] at hal
    cases hal
    have hne0 : s₁.stop ≠ some 0 := by
      intro h0
      rw [vdiskHostWrite_of_stopped h0] at hwr
      cases hwr
    rw [vdiskHostWrite_of_ne hne0] at hwr
    cases hwr
    have hb : s₁.disk.blockSize = s.disk.blockSize := by rw [hA.disk]
    have hD : s₁.disk.dataOffset = s.disk.dataOffset := by rw [hA.disk]
    have hent : entryOf s₁ (off / s₁.disk.blockSize) = s.disk.blocksAllocated := by
      rw [hb]
      exact hA.entry_self
    have hwrites : chunkWrites s off = publishWrites s.disk + 2 := if_pos hu
    refine ⟨hA.wrote h hc hoff hfit hu hne
      (wrote_of_write_block (hA.separated h hc hg hu).1 (by rw [hA.disk]; exact hoff)
        (by rw [hb]; exact hfit) ?_ rfl ?_), ?_, ?_⟩
    · rw [hent]
      have h₁ := hc.1
      have h₂ := h.count_lt
      simp only [uint32Max] at h₂
      simp only [vdiBlockUnallocated]
      omega
    · rw [hent, hb, hD]
    · intro k hk
      have := hallow k hk
      rw [hstop, hk, Option.map_some] at hne0
      have : k - (publishWrites s.disk + 1) ≠ 0 := fun h0 => hne0 (by rw [h0])
      omega
    · show s₁.stop.map (· - 1) = _
      rw [hstop, hwrites, map_sub_succ]
  · rw [vdiWriteChunk_allocated h hoff hu] at hrun
    have hne0 : s.stop ≠ some 0 := by
      intro h0
      rw [vdiskHostWrite_of_stopped h0] at hrun
      cases hrun
    rw [vdiskHostWrite_of_ne hne0] at hrun
    cases hrun
    have hwrites : chunkWrites s off = 1 := if_neg hu
    refine ⟨wrote_of_write_block h hoff hfit hu rfl rfl, ?_, by rw [hwrites]⟩
    intro k hk
    have : k ≠ 0 := fun h0 => hne0 (by rw [hk, h0])
    omega

/-- The host stops between the map entry and the allocated count of the fresh block of the
chunk at `off`. -/
def TornChunk (s : DiskState) (off : Nat) : Prop :=
  entryOf s (off / s.disk.blockSize) = vdiBlockUnallocated ∧ s.stop = some (publishWrites s.disk)

/-- A chunk that fails keeps the image and all its guest bytes, unless the host stopped
between the map entry and the allocated count of a fresh block. -/
theorem vdiWriteChunk_error {s' : DiskState} {e : Int} (h : Separated s)
    (hoff : off < s.disk.sizeBytes) (hne : data ≠ [])
    (hrun : vdiWriteChunk off data s = .error e s') :
    (TornChunk s off ∨ Touched s s' off data.length)
      ∧ ((∃ k, s.stop = some k ∧ k < chunkWrites s off) ∨
        entryOf s (off / s.disk.blockSize) = vdiBlockUnallocated ∧ ¬ CanAllocate s.disk) := by
  have hg := h.mapped.block_lt hoff
  have hlen : 0 < data.length := List.length_pos_of_ne_nil hne
  by_cases hu : entryOf s (off / s.disk.blockSize) = vdiBlockUnallocated
  · have hwrites : chunkWrites s off = publishWrites s.disk + 2 := if_pos hu
    rw [vdiWriteChunk_fresh h hoff hu] at hrun
    by_cases hc : CanAllocate s.disk
    · by_cases hallow : Allows s.stop (publishWrites s.disk + 1)
      · -- the block is allocated and counted; its data is the write that failed
        obtain ⟨s₁, hal, hA, hstop⟩ := allocateBlock_ok h hc hg hallow
        rw [bind_of_ok hal] at hrun
        have h0 : s₁.stop = some 0 := by
          by_contra h0
          rw [vdiskHostWrite_of_ne h0] at hrun
          cases hrun
        rw [vdiskHostWrite_of_stopped h0] at hrun
        cases hrun
        rw [hstop] at h0
        obtain ⟨k, hk, hk0⟩ := Option.map_eq_some_iff.mp h0
        exact ⟨Or.inr (hA.touched h hc hoff hu hlen), Or.inl ⟨k, hk, by omega⟩⟩
      · obtain ⟨k, hk, hlt⟩ : ∃ k, s.stop = some k ∧ k < publishWrites s.disk + 1 := by
          simp only [Allows, not_forall, not_le] at hallow
          obtain ⟨k, hk, hlt⟩ := hallow
          exact ⟨k, hk, hlt⟩
        refine ⟨?_, Or.inl ⟨k, hk, by omega⟩⟩
        by_cases hpub : k < publishWrites s.disk
        · obtain ⟨s₁, herr, hd, hag⟩ := allocateBlock_stopped hc hg hk hpub
          rw [bind_of_error herr] at hrun
          cases hrun
          exact Or.inr (touched_of_fresh h hd hag _ _)
        · refine Or.inl ⟨hu, ?_⟩
          rw [hk]
          congr 1
          omega
    · rw [bind_of_error (allocateBlock_of_not_can hc _)] at hrun
      cases hrun
      exact ⟨Or.inr (Touched.refl h _ _), Or.inr ⟨hu, hc⟩⟩
  · have hwrites : chunkWrites s off = 1 := if_neg hu
    rw [vdiWriteChunk_allocated h hoff hu] at hrun
    have h0 : s.stop = some 0 := by
      by_contra h0
      rw [vdiskHostWrite_of_ne h0] at hrun
      cases hrun
    rw [vdiskHostWrite_of_stopped h0] at hrun
    cases hrun
    exact ⟨Or.inr (Touched.refl h _ _), Or.inl ⟨0, h0, by omega⟩⟩

end Chunk

/-! ## The host writes of a write -/

/-- What a host write of `vdi_write` is for. -/
inductive HostStep
  | fill
  | map
  | count
  | data
  deriving DecidableEq, Repr

/-- The host writes of one chunk, in order. -/
def chunkSteps (s : DiskState) (off : Nat) : List HostStep :=
  if entryOf s (off / s.disk.blockSize) = vdiBlockUnallocated then
    List.replicate (fillWrites 65536 s.disk.blockSize) .fill ++ [.map, .count, .data]
  else [.data]

/-- The host writes of a write of `len` bytes at `off`, in order. -/
def writeSteps (s : DiskState) : Nat → Nat → Nat → List HostStep
  | 0, _, _ => []
  | fuel + 1, off, len =>
      if len = 0 then []
      else
        let n := chunkLen s.disk off len
        chunkSteps s off ++ writeSteps s fuel (off + n) (len - n)

/-- The `k`-th host write of a write of `len` bytes at `off` is the map entry of a fresh
block: a host that stops after it never counts the block. -/
def TornAt (s : DiskState) (off len k : Nat) : Prop :=
  0 < k ∧ (writeSteps s len off len)[k - 1]? = some .map

instance (s : DiskState) (off len k : Nat) : Decidable (TornAt s off len k) :=
  inferInstanceAs (Decidable (_ ∧ _))

theorem length_chunkSteps (s : DiskState) (off : Nat) :
    (chunkSteps s off).length = chunkWrites s off := by
  unfold chunkSteps chunkWrites
  by_cases hu : entryOf s (off / s.disk.blockSize) = vdiBlockUnallocated
  · rw [if_pos hu, if_pos hu, List.length_append, List.length_replicate]
    rfl
  · rw [if_neg hu, if_neg hu]
    rfl

/-- A torn chunk stops at its map entry. -/
theorem TornChunk.step {s : DiskState} {off : Nat} (h : TornChunk s off) :
    (chunkSteps s off)[publishWrites s.disk - 1]? = some .map := by
  unfold chunkSteps
  rw [if_pos h.1, publishWrites, Nat.add_sub_cancel,
    List.getElem?_append_right (by rw [List.length_replicate]), List.length_replicate, Nat.sub_self]
  rfl

theorem Touched.entry_eq {s s' : DiskState} {off len : Nat} (h : Touched s s' off len)
    (hs : Separated s) {g : Nat} (hg : g < s.disk.blocksCount)
    (hout : ∀ i, off ≤ i → i < off + len → i / s.disk.blockSize ≠ g) :
    entryOf s' g = entryOf s g := by
  have hmd := hs.map_data
  have hhm : 512 ≤ s.disk.blocksOffset := hs.header_map
  have hshape := h.shape
  have ho : s'.disk.blocksOffset = s.disk.blocksOffset := by rw [hshape]
  simp only [entryOf, ho]
  refine Mem.rd32_congr (fun j hj => h.low _ (by omega) (by omega) (fun i hi hi' _ => ?_))
  have := hout i hi hi'
  omega

/-- The host writes of a write depend only on which blocks of its range are allocated. -/
theorem writeSteps_congr {s s' : DiskState} (hb : s'.disk.blockSize = s.disk.blockSize) :
    ∀ (fuel off len : Nat),
      (∀ i, off ≤ i → i < off + len →
        entryOf s' (i / s.disk.blockSize) = entryOf s (i / s.disk.blockSize)) →
      writeSteps s' fuel off len = writeSteps s fuel off len := by
  intro fuel
  induction fuel with
  | zero =>
      intro off len _
      rfl
  | succ fuel ih =>
      intro off len hent
      unfold writeSteps
      by_cases h0 : len = 0
      · rw [if_pos h0, if_pos h0]
      · have hn : chunkLen s'.disk off len = chunkLen s.disk off len := by
          simp only [chunkLen, hb]
        have hle := chunkLen_le s.disk off len
        rw [if_neg h0, if_neg h0]
        simp only [hn]
        rw [ih _ _ (fun i hi hi' => hent i (by omega) (by omega))]
        congr 1
        simp only [chunkSteps, hb, hent off (le_refl _) (by omega)]

/-! ## The loop -/

theorem vdiWriteLoop_step {fuel off : Nat} {data : List UInt8} (s : DiskState) (hne : data ≠ []) :
    vdiWriteLoop (fuel + 1) off data s
      = (vdiWriteChunk off (data.take (chunkLen s.disk off data.length)) >>= fun _ =>
          vdiWriteLoop fuel (off + chunkLen s.disk off data.length)
            (data.drop (chunkLen s.disk off data.length))) s := by
  rw [vdiWriteLoop, if_neg hne]
  rfl

/-- The first chunk of a non-empty write: it lies in one block and leaves room for the
rest. -/
structure FirstChunk (s : DiskState) (off : Nat) (data : List UInt8) (n : Nat) : Prop where
  pos : 0 < n
  le : n ≤ data.length
  length_take : (data.take n).length = n
  length_drop : (data.drop n).length = data.length - n
  ne_nil : data.take n ≠ []
  fit : off % s.disk.blockSize + (data.take n).length ≤ s.disk.blockSize
  off_lt : off < s.disk.sizeBytes
  in_disk : ∀ i, i < off + data.length → i / s.disk.blockSize < s.disk.blocksCount
  rest_block : ∀ i, off + n ≤ i → i < off + data.length →
    i / s.disk.blockSize ≠ off / s.disk.blockSize

theorem firstChunk {s : DiskState} (h : Separated s) {off : Nat} {data : List UInt8}
    (hne : data ≠ []) (hsz : off + data.length ≤ s.disk.sizeBytes) :
    FirstChunk s off data (chunkLen s.disk off data.length) := by
  have hlen : 0 < data.length := List.length_pos_of_ne_nil hne
  have hpos := @chunkLen_pos _ h.mapped off _ hlen
  have hle := chunkLen_le s.disk off data.length
  have hfit := chunkLen_block h.mapped off data.length
  have htake : (data.take (chunkLen s.disk off data.length)).length
      = chunkLen s.disk off data.length := by
    rw [List.length_take]
    omega
  refine ⟨hpos, hle, htake, List.length_drop, ?_, by rw [htake]; exact hfit, by omega,
    fun i hi => h.mapped.block_lt (by omega), ?_⟩
  · intro hnil
    rw [hnil, List.length_nil] at htake
    omega
  · -- the rest starts at the next block
    intro i hi hi' heq
    have h₁ := Nat.div_add_mod off s.disk.blockSize
    have h₂ := Nat.div_add_mod i s.disk.blockSize
    have h₃ := Nat.mod_lt i h.blockSize_pos
    rw [heq] at h₂
    simp only [chunkLen] at hi
    omega

/-- A completed loop writes its bytes. -/
theorem vdiWriteLoop_ok :
    ∀ (fuel off : Nat) (data : List UInt8) (s s' : DiskState), data.length ≤ fuel → Separated s →
      off + data.length ≤ s.disk.sizeBytes → vdiWriteLoop fuel off data s = .ok () s' →
      Wrote s s' off data := by
  intro fuel
  induction fuel with
  | zero =>
      intro off data s s' hl h _ hrun
      obtain ⟨-, rfl⟩ := pure_ok_iff.mp hrun
      rw [List.eq_nil_of_length_eq_zero (Nat.le_zero.mp hl)]
      exact Wrote.nil h off
  | succ fuel ih =>
      intro off data s s' hl h hsz hrun
      by_cases hnil : data = []
      · subst hnil
        obtain ⟨-, rfl⟩ := pure_ok_iff.mp hrun
        exact Wrote.nil h off
      · have hf := firstChunk h hnil hsz
        rw [vdiWriteLoop_step s hnil] at hrun
        set n := chunkLen s.disk off data.length with hn
        obtain ⟨_, s₁, h₁, h₂⟩ := bind_ok_iff.mp hrun
        have hpos := hf.pos
        have hle := hf.le
        obtain ⟨hw, -, -⟩ := vdiWriteChunk_ok h hf.off_lt hf.fit hf.ne_nil h₁
        have hshape := hw.shape
        have hsz₁ : s₁.disk.sizeBytes = s.disk.sizeBytes := by rw [hshape]
        have hrest := ih (off + n) (data.drop n) s₁ s' (by rw [hf.length_drop]; omega)
          hw.separated (by rw [hf.length_drop, hsz₁]; omega) h₂
        have hall := hw.append (by rw [hf.length_take]; exact hrest)
          (by rw [List.take_append_drop]; exact hf.in_disk)
        rwa [List.take_append_drop] at hall

/-- A loop that fails has touched only its range, unless the host stopped right after the
map entry of a fresh block. -/
theorem vdiWriteLoop_error :
    ∀ (fuel off : Nat) (data : List UInt8) (s s' : DiskState) (e : Int), data.length ≤ fuel →
      Separated s → off + data.length ≤ s.disk.sizeBytes →
      vdiWriteLoop fuel off data s = .error e s' →
      (∃ k, s.stop = some k ∧ 0 < k ∧ (writeSteps s fuel off data.length)[k - 1]? = some .map)
        ∨ Touched s s' off data.length := by
  intro fuel
  induction fuel with
  | zero =>
      intro off data s s' e hl h _ hrun
      exact absurd hrun pure_ne_error
  | succ fuel ih =>
      intro off data s s' e hl h hsz hrun
      by_cases hnil : data = []
      · subst hnil
        exact absurd hrun pure_ne_error
      · have hf := firstChunk h hnil hsz
        have hlen0 : data.length ≠ 0 := fun h0 => hnil (List.eq_nil_of_length_eq_zero h0)
        rw [vdiWriteLoop_step s hnil] at hrun
        unfold writeSteps
        rw [if_neg hlen0]
        simp only []
        set n := chunkLen s.disk off data.length with hn
        have hle := hf.le
        have hpos := hf.pos
        rcases bind_error_iff.mp hrun with h₁ | ⟨_, s₁, h₁, h₂⟩
        · rcases (vdiWriteChunk_error h hf.off_lt hf.ne_nil h₁).1 with htorn | ht
          · refine Or.inl ⟨_, htorn.2, Nat.succ_pos _, ?_⟩
            rw [List.getElem?_append_left, htorn.step]
            rw [length_chunkSteps, chunkWrites, if_pos htorn.1]
            omega
          · rw [hf.length_take] at ht
            refine Or.inr ⟨ht.toKept, fun i hi hr => ht.outside i hi (by omega), ?_⟩
            intro a ha hc hout
            exact ht.low a ha hc (fun i hi hi' => hout i hi (by omega))
        · obtain ⟨hw, hallow, hstop⟩ := vdiWriteChunk_ok h hf.off_lt hf.fit hf.ne_nil h₁
          have ht := hw.touched
          rw [hf.length_take] at ht
          have hshape := hw.shape
          have hsz₁ : s₁.disk.sizeBytes = s.disk.sizeBytes := by rw [hshape]
          have hb₁ : s₁.disk.blockSize = s.disk.blockSize := by rw [hshape]
          have hsteps : writeSteps s₁ fuel (off + n) (data.length - n)
              = writeSteps s fuel (off + n) (data.length - n) := by
            refine writeSteps_congr hb₁ _ _ _ (fun i hi hi' => ?_)
            refine ht.entry_eq h (hf.in_disk i (by omega)) (fun j hj hj' heq => ?_)
            have hsame := (chunk_range h.blockSize_pos hf.fit j).mpr
              ⟨hj, by rw [hf.length_take]; exact hj'⟩
            exact hf.rest_block i hi (by omega) (by rw [← heq, hsame.1])
          rcases ih (off + n) (data.drop n) s₁ s' e (by rw [hf.length_drop]; omega) hw.separated
            (by rw [hf.length_drop, hsz₁]; omega) h₂ with ⟨k, hk, hk0, hmap⟩ | hrest
          · -- the stop comes `chunkWrites` host writes later than seen from the rest
            obtain ⟨k', hk', hkk⟩ := Option.map_eq_some_iff.mp (hstop ▸ hk)
            have hge := hallow k' hk'
            refine Or.inl ⟨k', hk', by omega, ?_⟩
            rw [hf.length_drop, hsteps] at hmap
            rw [List.getElem?_append_right (by rw [length_chunkSteps]; omega), length_chunkSteps,
              show k' - 1 - chunkWrites s off = k - 1 by omega]
            exact hmap
          · rw [hf.length_drop] at hrest
            refine Or.inr ⟨ht.toKept.trans hrest.toKept, ?_, ?_⟩
            · intro i hi hr
              rw [hrest.outside i (by rw [hb₁]; exact ht.held hi) (by omega),
                ht.outside i hi (by omega)]
            · intro a ha hc hout
              have hsum : off + n + (data.length - n) = off + data.length := by omega
              exact low_append ht hrest.low (fun i hi => hf.in_disk i (by omega)) a ha hc
                (by rw [hsum]; exact hout)

end Guppy.Vdisk
