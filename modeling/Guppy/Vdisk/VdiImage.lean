import Guppy.Vdisk.VdiLoop
import Mathlib.Data.Finset.Card

set_option autoImplicit false

/-! # Images that open as they are

A separated image is *sound* when, in addition, every data block below the allocated count
belongs to a guest block, the header describes the disk in memory, and the data area can
hold every guest block. `vdi_create_sparse` makes a sound image (`vdiCreateSparse_ok`), an
in-bounds write to a sound image completes when the host does not stop
(`Sound.vdiWrite_ok`), and `vdi_open` gives back the disk of a sound image
(`Sound.vdiOpen_ok`).
-/

namespace Guppy.Vdisk

open Prog

/-- The header fields that `vdi_open` reads, the allocated count aside. -/
structure Described (f : HostFile) (d : Disk) : Prop where
  signature : f.bytes.rd32 0x40 = vdiSignature
  version : f.bytes.rd32 0x44 = vdiVersion11
  headerSize : 0x180 ≤ f.bytes.rd32 0x48
  imageType : f.bytes.rd32 0x4c = d.imageType
  blocksOffset : f.bytes.rd32 0x154 = d.blocksOffset
  dataOffset : f.bytes.rd32 0x158 = d.dataOffset
  sectorSize : f.bytes.rd32 0x168 = vdiSectorSize
  sizeBytes : f.bytes.rd64 0x170 = d.sizeBytes
  blockSize : f.bytes.rd32 0x178 = d.blockSize
  blockExtra : f.bytes.rd32 0x17c = 0
  blocksCount : f.bytes.rd32 0x180 = d.blocksCount

/-- The description only depends on the header bytes before the allocated count, and on the
fields of the disk that a write keeps. -/
theorem Described.congr {f f' : HostFile} {d d' : Disk} (h : Described f d)
    (hbytes : ∀ i, i < 0x184 → f'.bytes i = f.bytes i)
    (hd : d' = { d with
      blocksAllocated := d'.blocksAllocated, hostSizeBytes := d'.hostSizeBytes }) :
    Described f' d' := by
  have h32 : ∀ o, o + 4 ≤ 0x184 → f'.bytes.rd32 o = f.bytes.rd32 o := fun o ho =>
    Mem.rd32_congr (fun i hi => hbytes _ (by omega))
  have h64 : f'.bytes.rd64 0x170 = f.bytes.rd64 0x170 :=
    Mem.rd64_congr (fun i hi => hbytes _ (by omega))
  rw [hd]
  refine ⟨?_, ?_, ?_, ?_, ?_, ?_, ?_, ?_, ?_, ?_, ?_⟩
  · rw [h32 _ (by omega)]; exact h.signature
  · rw [h32 _ (by omega)]; exact h.version
  · rw [h32 _ (by omega)]; exact h.headerSize
  · rw [h32 _ (by omega)]; exact h.imageType
  · rw [h32 _ (by omega)]; exact h.blocksOffset
  · rw [h32 _ (by omega)]; exact h.dataOffset
  · rw [h32 _ (by omega)]; exact h.sectorSize
  · rw [h64]; exact h.sizeBytes
  · rw [h32 _ (by omega)]; exact h.blockSize
  · rw [h32 _ (by omega)]; exact h.blockExtra
  · rw [h32 _ (by omega)]; exact h.blocksCount

/-- A separated image that its own header describes and that can be filled. -/
structure Sound (s : DiskState) : Prop extends Separated s where
  full : Full s
  counted : Counted s
  described : Described s.file s.disk
  size_pos : 0 < s.disk.sizeBytes
  room : s.disk.blocksCount ≤ (uint64Max - s.disk.dataOffset) / s.disk.blockSize
  writable : s.disk.writable = true

/-- A write, complete or not, keeps an image sound. -/
theorem Sound.of_kept {s s' : DiskState} (h : Sound s) (hk : Kept s s') : Sound s' := by
  have hs := hk.shape
  have hsz : s'.disk.sizeBytes = s.disk.sizeBytes := by rw [hs]
  have hN : s'.disk.blocksCount = s.disk.blocksCount := by rw [hs]
  have hD : s'.disk.dataOffset = s.disk.dataOffset := by rw [hs]
  have hb : s'.disk.blockSize = s.disk.blockSize := by rw [hs]
  have hw : s'.disk.writable = s.disk.writable := by rw [hs]
  refine ⟨hk.separated, hk.full h.full, hk.counted h.counted, h.described.congr ?_ hs,
    by rw [hsz]; exact h.size_pos, by rw [hN, hD, hb]; exact h.room, by rw [hw]; exact h.writable⟩
  intro i hi
  exact hk.header i (by simp only [vdiHeaderBytes]; omega) (Or.inl hi)

/-- While a guest block is unallocated there is a block left for it. -/
theorem Sound.canAllocate {s : DiskState} (h : Sound s) {g : Nat} (hg : g < s.disk.blocksCount)
    (hu : entryOf s g = vdiBlockUnallocated) : CanAllocate s.disk := by
  -- the allocated blocks are entries of the other guest blocks, so there are fewer of them
  have hcount : s.disk.blocksAllocated < s.disk.blocksCount := by
    have hsub : Finset.range s.disk.blocksAllocated
        ⊆ ((Finset.range s.disk.blocksCount).erase g).image (entryOf s) := by
      intro e he
      obtain ⟨g', hg', hge⟩ := h.full e (Finset.mem_range.mp he)
      refine Finset.mem_image.mpr ⟨g', Finset.mem_erase.mpr ⟨?_, Finset.mem_range.mpr hg'⟩, hge⟩
      intro heq
      have he' := Finset.mem_range.mp he
      have h₁ := h.allocated_le
      have h₂ := h.count_lt
      rw [heq, hu] at hge
      simp only [vdiBlockUnallocated] at hge
      simp only [uint32Max] at h₂
      omega
    have hcard := (Finset.card_le_card hsub).trans Finset.card_image_le
    rw [Finset.card_range, Finset.card_erase_of_mem (Finset.mem_range.mpr hg),
      Finset.card_range] at hcard
    omega
  exact ⟨hcount, le_trans h.allocated_le h.room⟩

/-! ## Writing -/

theorem Sound.writeLoop_ok :
    ∀ (fuel off : Nat) (data : List UInt8) (s : DiskState), data.length ≤ fuel → Sound s →
      s.stop = none → off + data.length ≤ s.disk.sizeBytes →
      ∃ s', vdiWriteLoop fuel off data s = .ok () s' ∧ s'.stop = none := by
  intro fuel
  induction fuel with
  | zero =>
      intro off data s _ _ hstop _
      exact ⟨s, rfl, hstop⟩
  | succ fuel ih =>
      intro off data s hl h hstop hsz
      by_cases hnil : data = []
      · subst hnil
        exact ⟨s, rfl, hstop⟩
      · have hf := firstChunk h.toSeparated hnil hsz
        rw [vdiWriteLoop_step s hnil]
        set n := chunkLen s.disk off data.length with hn
        have hpos := hf.pos
        have hle := hf.le
        cases hrun : vdiWriteChunk off (data.take n) s with
        | error e s₁ =>
            -- the host does not stop, so the block could not be allocated
            rcases (vdiWriteChunk_error h.toSeparated hf.off_lt hf.ne_nil hrun).2 with
              ⟨k, hk, -⟩ | ⟨hu, hcan⟩
            · rw [hstop] at hk
              cases hk
            · exact absurd (h.canAllocate (h.mapped.block_lt hf.off_lt) hu) hcan
        | ok u s₁ =>
            obtain ⟨hw, -, hstop₁⟩ :=
              vdiWriteChunk_ok h.toSeparated hf.off_lt hf.fit hf.ne_nil hrun
            have hshape := hw.shape
            have hsz₁ : s₁.disk.sizeBytes = s.disk.sizeBytes := by rw [hshape]
            rw [bind_of_ok hrun]
            refine ih (off + n) (data.drop n) s₁ (by rw [hf.length_drop]; omega)
              (h.of_kept hw.toKept) ?_ (by rw [hf.length_drop, hsz₁]; omega)
            rw [hstop₁, hstop]
            rfl

theorem boundsOk_iff {d : Disk} {off len : Nat} :
    boundsOk d off len = true ↔ off + len ≤ d.sizeBytes := by
  simp only [boundsOk, Bool.and_eq_true, decide_eq_true_eq]
  omega

/-- A write to a dynamic image runs the loop once it has passed the bounds check. -/
theorem vdiWrite_dynamic {s : DiskState} (h : Separated s) (hw : s.disk.writable = true)
    {off : Nat} {data : List UInt8} (hsz : off + data.length ≤ s.disk.sizeBytes) :
    vdiWrite off data s = vdiWriteLoop data.length off data s := by
  have hb : boundsOk s.disk off data.length = true := boundsOk_iff.mpr hsz
  have hne : ¬ (s.disk.writable = false ∨ boundsOk s.disk off data.length = false) := by
    simp [hw, hb]
  have hdyn : s.disk.imageType ≠ vdiImageTypeFixed := by
    rw [h.dynamic]
    decide
  show (failIf (s.disk.writable = false ∨ boundsOk s.disk off data.length = false) (-1) >>= _) s
    = _
  rw [bind_of_ok (failIf_of_not hne), if_neg hdyn]

/-- A write outside the disk, or to a read-only one, fails at once. -/
theorem vdiWrite_out {s : DiskState} {off : Nat} {data : List UInt8}
    (h : ¬ off + data.length ≤ s.disk.sizeBytes) : vdiWrite off data s = .error (-1) s := by
  have hb : boundsOk s.disk off data.length = false := by
    rw [← Bool.not_eq_true, boundsOk_iff]
    exact h
  show (failIf (s.disk.writable = false ∨ boundsOk s.disk off data.length = false) (-1) >>= _) s
    = _
  rw [bind_of_error (failIf_of (Or.inr hb))]

theorem Sound.vdiWrite_ok {s : DiskState} (h : Sound s) (hstop : s.stop = none) {off : Nat}
    {data : List UInt8} (hsz : off + data.length ≤ s.disk.sizeBytes) :
    ∃ s', vdiWrite off data s = .ok () s' ∧ s'.stop = none ∧ Wrote s s' off data := by
  obtain ⟨s', hrun, hstop'⟩ := h.writeLoop_ok _ _ _ _ (le_refl _) hstop hsz
  refine ⟨s', ?_, hstop', vdiWriteLoop_ok _ _ _ _ _ (le_refl _) h.toSeparated hsz hrun⟩
  rw [vdiWrite_dynamic h.toSeparated h.writable hsz, hrun]

/-! ## Reading -/

theorem vdiRead_out {s : DiskState} {off len : Nat} (h : ¬ off + len ≤ s.disk.sizeBytes) :
    vdiRead off len s = .error (-1) s := by
  have hb : boundsOk s.disk off len = false := by
    rw [← Bool.not_eq_true, boundsOk_iff]
    exact h
  show (failIf (boundsOk s.disk off len = false) (-1) >>= _) s = _
  rw [bind_of_error (failIf_of hb)]

/-- A read inside a dynamic disk: its guest bytes, when all of them can be read. -/
theorem vdiRead_dynamic {s : DiskState} (h : Mapped s)
    (hdyn : s.disk.imageType = vdiImageTypeDynamic) {off len : Nat}
    (hsz : off + len ≤ s.disk.sizeBytes) :
    vdiRead off len s
      = if ∀ j, j < len → guestByte s (off + j) ≠ none then .ok (guestBytes s off len) s
        else .error (-1) s := by
  have hb : ¬ boundsOk s.disk off len = false := by
    rw [boundsOk_iff.mpr hsz]
    decide
  have hne : s.disk.imageType ≠ vdiImageTypeFixed := by
    rw [hdyn]
    decide
  show (failIf (boundsOk s.disk off len = false) (-1) >>= _) s = _
  rw [bind_of_ok (failIf_of_not hb), if_neg hne]
  exact vdiReadLoop_eq h _ _ _ (le_refl _) hsz

theorem Separated.vdiRead_ok {s : DiskState} (h : Separated s) {off len : Nat}
    (hsz : off + len ≤ s.disk.sizeBytes) : vdiRead off len s = .ok (guestBytes s off len) s := by
  rw [vdiRead_dynamic h.mapped h.dynamic hsz, if_pos]
  intro j hj
  exact h.guestByte_ne_none (held_of_lt (by omega))

/-! ## Opening -/

theorem rd32_header (m : Mem) {o : Nat} (ho : o + 4 ≤ 512) :
    (m.slice 0 vdiHeaderBytes).rd32 o = m.rd32 o := by
  have := Mem.rd32_slice (p := m) (a := 0) (n := vdiHeaderBytes) (o := o) ho
  rwa [Nat.zero_add] at this

theorem Sound.headerBad_eq {s : DiskState} (h : Sound s) :
    headerBad (s.file.bytes.slice 0 vdiHeaderBytes) = false := by
  have h32 := fun o ho => rd32_header s.file.bytes (o := o) ho
  have h64 : (s.file.bytes.slice 0 vdiHeaderBytes).rd64 0x170 = s.file.bytes.rd64 0x170 := by
    rw [Mem.rd64_slice (by simp only [vdiHeaderBytes]; omega), Nat.zero_add]
  have hd := h.described
  have hb := h.blockSize_pos
  have hsz := h.size_pos
  have hle := h.size_le
  have hal := h.allocated_le
  have hcnt : s.file.bytes.rd32 0x184 = s.disk.blocksAllocated := h.counted
  have hm : 512 ≤ s.disk.blocksOffset := h.header_map
  have hmd := h.map_data
  have hN : s.disk.blocksCount ≠ 0 := by
    intro h0
    rw [h0, Nat.zero_mul] at hle
    omega
  have hsize := hd.headerSize
  simp only [headerBad, h32 _ (show 0x40 + 4 ≤ 512 by omega), h32 _ (show 0x44 + 4 ≤ 512 by omega),
    h32 _ (show 0x48 + 4 ≤ 512 by omega), h32 _ (show 0x4c + 4 ≤ 512 by omega),
    h32 _ (show 0x168 + 4 ≤ 512 by omega), h32 _ (show 0x178 + 4 ≤ 512 by omega),
    h32 _ (show 0x180 + 4 ≤ 512 by omega), h32 _ (show 0x154 + 4 ≤ 512 by omega),
    h32 _ (show 0x158 + 4 ≤ 512 by omega), h32 _ (show 0x17c + 4 ≤ 512 by omega),
    h32 _ (show 0x184 + 4 ≤ 512 by omega), h64, hd.signature, hd.version, hd.imageType,
    hd.blocksOffset, hd.dataOffset, hd.sectorSize, hd.sizeBytes, hd.blockSize, hd.blockExtra,
    hd.blocksCount, hcnt, h.dynamic]
  simp only [Bool.or_eq_false_iff, Bool.and_eq_false_iff, decide_eq_false_iff_not]
  omega

/-- `vdi_open` on a sound image gives back its disk; only the host size is read anew. -/
theorem Sound.vdiOpen_ok {s : DiskState} (h : Sound s) {d : Disk}
    (hw : d.writable = true) :
    vdiOpen { s with disk := d }
      = .ok () { s with disk := { s.disk with hostSizeBytes := s.file.size } } := by
  have hm : 512 ≤ s.disk.blocksOffset := h.header_map
  have hmd := h.map_data
  have hdf := h.data_file
  have hread : 0 + vdiHeaderBytes ≤ s.file.size := by
    simp only [vdiHeaderBytes]
    omega
  have hd := h.described
  have h32 := fun o ho => rd32_header s.file.bytes (o := o) ho
  have hdisk : diskOfHeader d (s.file.bytes.slice 0 vdiHeaderBytes) s.file.size
      = { s.disk with hostSizeBytes := s.file.size } := by
    simp only [diskOfHeader, h32 _ (show 0x158 + 4 ≤ 512 by omega),
      h32 _ (show 0x178 + 4 ≤ 512 by omega), h32 _ (show 0x154 + 4 ≤ 512 by omega),
      h32 _ (show 0x180 + 4 ≤ 512 by omega), h32 _ (show 0x184 + 4 ≤ 512 by omega),
      h32 _ (show 0x4c + 4 ≤ 512 by omega), hd.dataOffset, hd.blockSize, hd.blocksOffset,
      hd.blocksCount, hd.imageType, hw, h.writable,
      show s.file.bytes.rd32 0x184 = s.disk.blocksAllocated from h.counted]
    rw [Mem.rd64_slice (by simp only [vdiHeaderBytes]; omega), Nat.zero_add, hd.sizeBytes]
  set d' := diskOfHeader d (s.file.bytes.slice 0 vdiHeaderBytes) s.file.size with hd'
  have hsize : ¬ d'.blocksCount * d'.blockSize < d'.sizeBytes := by
    rw [hdisk]
    exact Nat.not_lt.mpr h.size_le
  have hdyn : d'.imageType ≠ vdiImageTypeFixed := by
    rw [hdisk, h.dynamic]
    decide
  have hroom : ¬ (uint64Max - d'.dataOffset) / d'.blockSize < d'.blocksAllocated := by
    rw [hdisk]
    exact Nat.not_lt.mpr (le_trans h.allocated_le h.room)
  have hfile : ¬ s.file.size < d'.dataOffset + d'.blocksAllocated * d'.blockSize := by
    rw [hdisk]
    exact Nat.not_lt.mpr h.data_file
  have hgood : ¬ headerBad (s.file.bytes.slice 0 vdiHeaderBytes) = true := by
    rw [h.headerBad_eq]
    decide
  unfold vdiOpen
  rw [bind_of_ok (vdiskHostRead_of_le (s := { s with disk := d }) hread)]
  show (failIf (headerBad (s.file.bytes.slice 0 vdiHeaderBytes) = true) (-1) >>= fun _ => _)
    { s with disk := d } = _
  rw [bind_of_ok (failIf_of_not hgood)]
  simp only [← hd']
  rw [bind_of_ok (failIf_of_not hsize), if_neg hdyn, bind_of_ok (failIf_of_not hroom),
    bind_of_ok (failIf_of_not hfile), ← hdisk]
  rfl

/-- The size of the host file in the disk plays no role. -/
theorem Sound.reopened {s : DiskState} (h : Sound s) (n : Nat) :
    Sound { s with disk := { s.disk with hostSizeBytes := n } } :=
  ⟨⟨h.dynamic, h.blockSize_pos, h.count_lt, h.size_le, h.header_map, h.map_data, h.data_file,
    h.allocated_le, h.entry_lt, h.entry_inj⟩, h.full, h.counted, h.described.congr
    (fun _ _ => rfl) rfl, h.size_pos, h.room, h.writable⟩

/-! ## Creating -/

/-- What `layout_for` promises: the size is rounded up to sectors, the blocks hold it, the
map follows the header and the data area the map, and nothing has wrapped around. -/
structure Layout.Fits (l : Layout) (sizeBytes : Nat) : Prop where
  size_eq : l.sizeBytes = (sizeBytes + 511) / 512 * 512
  size_pos : 0 < l.sizeBytes
  size_lt : l.sizeBytes < uint64Max + 1
  map_eq : l.offBlocks = vdiHeaderBytes
  blocks_lt : l.blocks < 1073741824
  size_le : l.sizeBytes ≤ l.blocks * vdiBlockSize
  map_data : l.offBlocks + l.blocks * 4 ≤ l.offData
  data_lt : l.offData < uint32Max + 1

/-- The layout of a disk of `sizeBytes` bytes, computed without wrapping around. -/
structure Layout.Exact (l : Layout) (sizeBytes : Nat) : Prop where
  pos : 0 < sizeBytes
  size_eq : l.sizeBytes = (sizeBytes + 511) / 512 * 512
  blocks_eq : l.blocks = (l.sizeBytes + 1048575) / 1048576
  map_eq : l.offBlocks = 512
  data_eq : l.offData = 512 + (l.blocks * 4 + 511) / 512 * 512
  round_size : sizeBytes + 511 ≤ uint64Max
  round_blocks : l.sizeBytes + 1048575 ≤ uint64Max
  round_map : l.blocks * 4 + 511 ≤ uint64Max
  blocks_le : l.blocks ≤ uint32Max
  data_le : l.offData ≤ uint32Max
  end_le : l.offData + l.sizeBytes ≤ uint64Max

theorem layoutFor_exact {sizeBytes : Nat} {l : Layout} (h : layoutFor sizeBytes = some l) :
    l.Exact sizeBytes := by
  unfold layoutFor at h
  by_cases h₁ : sizeBytes = 0 ∨ uint64Max - (vdiSectorSize - 1) < sizeBytes
  · rw [if_pos h₁] at h
    cases h
  rw [if_neg h₁] at h
  simp only [] at h
  set size := roundUpU64 sizeBytes vdiSectorSize with hsize
  set blocks := (size + vdiBlockSize - 1) % (uint64Max + 1) / vdiBlockSize with hblocks
  by_cases h₂ : uint32Max < blocks
  · rw [if_pos h₂] at h
    cases h
  rw [if_neg h₂] at h
  by_cases h₃ : blocks = 0
  · rw [if_pos h₃] at h
    cases h
  rw [if_neg h₃] at h
  set mapPadded := roundUpU64 (blocks * 4) vdiSectorSize with hmap
  by_cases h₄ : uint32Max - vdiHeaderBytes < mapPadded
  · rw [if_pos h₄] at h
    cases h
  rw [if_neg h₄] at h
  cases h
  simp only [roundUpU64, uint64Max, vdiSectorSize, vdiBlockSize, uint32Max, vdiHeaderBytes]
    at h₁ h₂ h₃ h₄ hsize hblocks hmap
  refine ⟨Nat.pos_of_ne_zero (fun h0 => h₁ (Or.inl h0)), ?_, ?_, rfl, ?_, ?_, ?_, ?_, ?_, ?_, ?_⟩ <;>
    simp only [uint64Max, uint32Max, vdiHeaderBytes] <;> omega

theorem layoutFor_fits {sizeBytes : Nat} {l : Layout} (h : layoutFor sizeBytes = some l) :
    l.Fits sizeBytes := by
  have he := layoutFor_exact h
  have h₁ := he.pos
  have h₂ := he.size_eq
  have h₃ := he.blocks_eq
  have h₄ := he.map_eq
  have h₅ := he.data_eq
  have h₆ := he.round_blocks
  have h₇ := he.data_le
  have hsize : l.sizeBytes ≤ l.blocks * vdiBlockSize := by
    simp only [vdiBlockSize]
    omega
  simp only [uint64Max, uint32Max] at h₆ h₇
  refine ⟨h₂, by omega, ?_, h₄, by omega, hsize, by omega, Nat.lt_succ_of_le h₇⟩
  simp only [uint64Max]
  omega

/-- The map after `write_map`; the bytes before it are kept. -/
theorem writeMapOf_ok {s : DiskState} (hstop : s.stop = none) (fixed : Bool)
    {blocks offBlocks offData : Nat} (hblocks : blocks ≤ uint32Max)
    (hle : offBlocks + blocks * 4 ≤ offData) (hfile : offBlocks ≤ s.file.size) :
    ∃ f', writeMapOf fixed blocks offBlocks offData s = .ok () { s with file := f' }
      ∧ (∀ i, i < offBlocks → f'.bytes i = s.file.bytes i)
      ∧ (∀ g, g < blocks → f'.bytes.rd32 (offBlocks + g * 4)
          = if fixed = true then g else vdiBlockUnallocated)
      ∧ offData ≤ f'.size := by
  obtain ⟨u, t, hloop, ⟨f₁, rfl, hkeep, hmap, hsize⟩⟩ :=
    forLoop_total (f := fun i (_ : Unit) =>
        vdiskHostWrite (offBlocks + i * 4) 4
          (Mem.le (if fixed = true then i else vdiBlockUnallocated)))
      (n := blocks) (l := 0) (a := ()) (s := s)
      (fun i _ t => ∃ f, t = { s with file := f }
        ∧ (∀ j, j < offBlocks → f.bytes j = s.file.bytes j)
        ∧ (∀ g, g < i → f.bytes.rd32 (offBlocks + g * 4)
            = if fixed = true then g else vdiBlockUnallocated)
        ∧ offBlocks + i * 4 ≤ f.size)
      ⟨s.file, rfl, fun _ _ => rfl, fun g hg => absurd hg (by omega), by omega⟩
      (fun i _ t _ hi ⟨f, ht, hkeep, hmap, hsize⟩ => by
        subst ht
        have hne : s.stop ≠ some 0 := by
          rw [hstop]
          simp
        have hag := agreesOff_write f (offBlocks + i * 4) 4
          (Mem.le (if fixed = true then i else vdiBlockUnallocated))
        refine ⟨(), _, vdiskHostWrite_of_ne (s := { s with file := f }) hne, _,
          by rw [hstop]; rfl, ?_, ?_, ?_⟩
        · intro j hj
          rw [hag.bytes_eq j (by omega) (Or.inl (by omega)), hkeep j hj]
        · intro g hg
          by_cases hgi : g = i
          · -- the entry just written is a 32-bit number in either kind of image
            rw [hgi, HostFile.rd32_write_le]
            apply Nat.mod_eq_of_lt
            by_cases hf : fixed = true
            · rw [if_pos hf]
              simp only [uint32Max] at hblocks
              omega
            · rw [if_neg hf]
              decide
          · rw [hag.rd32 (by omega) (Or.inl (by omega)), hmap g (by omega)]
        · rw [HostFile.write_size (by omega)]
          omega)
  rw [Nat.zero_add] at hmap hsize
  have hallow : Allows s.stop (fillWrites 4096 (offData - (offBlocks + blocks * 4))) := by
    intro k hk
    rw [hstop] at hk
    cases hk
  obtain ⟨f₂, hrun, hag, -, hend⟩ := zeroFill_ok (show 0 < 4096 by omega)
    (offData - (offBlocks + blocks * 4)) (offBlocks + blocks * 4)
    (offData - (offBlocks + blocks * 4)) { s with file := f₁ } (le_refl _) hallow
  have hs₂ : f₁.size ≤ f₂.size := hag.size_le
  refine ⟨f₂, ?_, ?_, ?_, ?_⟩
  · unfold writeMapOf
    rw [bind_of_ok hloop]
    refine hrun.trans ?_
    simp only [hstop, Option.map_none]
  · intro i hi
    rw [hag.bytes_eq i (show i < f₁.size by omega) (Or.inl (by omega)), hkeep i hi]
  · intro g hg
    rw [hag.rd32 (show _ ≤ f₁.size by omega) (Or.inl (by omega)), hmap g hg]
  · by_cases h0 : offData = offBlocks + blocks * 4
    · omega
    · have := hend (by omega)
      omega

/-- The header that `init_header` fills in describes the disk. -/
theorem initHeader_described {f : HostFile} {d : Disk} {imageType blocks offBlocks offData size : Nat}
    {imageUuid uuid : Mem}
    (hbytes : ∀ i, i < vdiHeaderBytes →
      f.bytes i = initHeader size imageType blocks offBlocks offData imageUuid uuid i)
    (hsize : d.sizeBytes = size) (hsize_lt : size < uint64Max + 1)
    (hblocks : d.blocksCount = blocks) (hblocks_lt : blocks < uint32Max + 1)
    (hmap : d.blocksOffset = offBlocks) (hmap_lt : offBlocks < uint32Max + 1)
    (hdata : d.dataOffset = offData) (hdata_lt : offData < uint32Max + 1)
    (hbs : d.blockSize = vdiBlockSize) (htype : d.imageType = imageType)
    (htype_lt : imageType < uint32Max + 1) :
    Described f d ∧ f.bytes.rd32 0x48 = 0x180 ∧
      f.bytes.rd32 0x184 = if imageType = vdiImageTypeFixed then blocks else 0 := by
  simp only [uint32Max, uint64Max] at hsize_lt hblocks_lt hmap_lt hdata_lt htype_lt
  simp only [vdiHeaderBytes] at hbytes
  have h32 : ∀ o, o + 4 ≤ 512 → f.bytes.rd32 o
      = (initHeader size imageType blocks offBlocks offData imageUuid uuid).rd32 o :=
    fun o ho => Mem.rd32_congr (fun i hi => hbytes _ (by omega))
  have h64 : f.bytes.rd64 0x170
      = (initHeader size imageType blocks offBlocks offData imageUuid uuid).rd64 0x170 :=
    Mem.rd64_congr (fun i hi => hbytes _ (by omega))
  have hsame : ∀ (p : Mem) (o v : Nat), v < 4294967296 → (p.write o 4 (Mem.le v)).rd32 o = v :=
    fun p o v hv => by
      have := Mem.rd32_wr32_self p o v
      rwa [Mem.wr32, Nat.mod_eq_of_lt hv] at this
  have hcount : (if imageType = vdiImageTypeFixed then blocks else 0) < 4294967296 := by
    by_cases ht : imageType = vdiImageTypeFixed
    · rwa [if_pos ht]
    · rw [if_neg ht]
      omega
  have h48 : f.bytes.rd32 0x48 = 0x180 := by
    rw [h32 _ (by omega), initHeader]
    simp (disch := omega) only [Mem.wr32, Mem.wr64, Mem.rd32_write_out]
    exact hsame _ _ _ (by decide)
  refine ⟨⟨?_, ?_, le_of_eq h48.symm, ?_, ?_, ?_, ?_, ?_, ?_, ?_, ?_⟩, h48, ?_⟩
  case refine_7 =>
    rw [h64, hsize, initHeader]
    simp (disch := omega) only [Mem.wr32, Mem.rd64_write_out]
    rw [Mem.rd64_wr64_self, Nat.mod_eq_of_lt hsize_lt]
  all_goals
    rw [h32 _ (by omega), initHeader]
    simp (disch := omega) only [Mem.wr32, Mem.wr64, Mem.rd32_write_out]
    rw [hsame _ _ _ (by first | assumption | decide)]
  · exact htype.symm
  · exact hmap.symm
  · exact hdata.symm
  · exact hbs.symm
  · exact hblocks.symm

/-- `vdi_create_sparse` makes a sound image of the rounded size, with no block allocated. -/
theorem vdiCreateSparse_ok {s : DiskState} (hstop : s.stop = none) (hw : s.disk.writable = true)
    {sizeBytes : Nat} {l : Layout} (hl : layoutFor sizeBytes = some l) (imageUuid uuid : Mem) :
    ∃ s', vdiCreateSparse sizeBytes imageUuid uuid s = .ok () s' ∧ Sound s' ∧ s'.stop = none
      ∧ s'.disk.sizeBytes = (sizeBytes + 511) / 512 * 512
      ∧ (∀ g, g < s'.disk.blocksCount → entryOf s' g = vdiBlockUnallocated)
      ∧ s'.file.bytes.rd32 0x48 = 0x180 ∧ s'.disk.blocksCount = l.blocks
      ∧ s'.disk.blockSize = vdiBlockSize := by
  have hfit := layoutFor_fits hl
  have hne : s.stop ≠ some 0 := by
    rw [hstop]
    simp
  set h := initHeader l.sizeBytes vdiImageTypeDynamic l.blocks l.offBlocks l.offData imageUuid uuid
    with hh
  obtain ⟨f', hmap, hkeep, hent, hsize⟩ := writeMapOf_ok
    (s := { s with file := s.file.write 0 vdiHeaderBytes h }) hstop false
    (le_trans (Nat.le_of_lt hfit.blocks_lt) (by decide)) hfit.map_data
    (by
      rw [hfit.map_eq, HostFile.write_size (by decide)]
      omega)
  rw [writeMapOf_sparse] at hmap
  set d : Disk :=
    { sizeBytes := l.sizeBytes
      dataOffset := l.offData
      hostSizeBytes := l.offData
      blockSize := vdiBlockSize
      blocksOffset := l.offBlocks
      blocksCount := l.blocks
      blocksAllocated := 0
      imageType := vdiImageTypeDynamic
      writable := s.disk.writable } with hd
  have hheader : ∀ i, i < vdiHeaderBytes → f'.bytes i = h i := by
    intro i hi
    rw [hkeep i (by rw [hfit.map_eq]; exact hi), HostFile.write_bytes_in (Nat.zero_le _) (by omega)]
    rfl
  have hb := hfit.blocks_lt
  have hdata := hfit.data_lt
  have hmd := hfit.map_data
  obtain ⟨hdesc, h48, hzero⟩ := initHeader_described (d := d) hheader rfl hfit.size_lt rfl
    (by simp only [uint32Max]; omega) rfl (by omega) rfl hdata rfl rfl (by decide)
  have hlt : ∀ g, Held d g → g < l.blocks := fun g hg =>
    lt_of_mul_lt_mul_right (lt_of_lt_of_le hg hfit.size_le) (Nat.zero_le _)
  refine ⟨{ s with file := f', disk := d }, ?_, ?_, hstop, hfit.size_eq, hent, h48, rfl, rfl⟩
  · unfold vdiCreateSparse
    rw [hl]
    simp only [← hh]
    rw [bind_of_ok (vdiskHostWrite_of_ne hne)]
    have hstop' : s.stop.map (· - 1) = s.stop := by
      rw [hstop]
      rfl
    rw [hstop', bind_of_ok hmap]
    rfl
  · refine ⟨⟨rfl, show 0 < vdiBlockSize by decide, ?_, hfit.size_le, le_of_eq hfit.map_eq.symm, hmd, ?_,
      Nat.zero_le _, fun g hg => Or.inl (hent g (hlt g hg)),
      fun g g' hg _ hn => absurd (hent g (hlt g hg)) hn⟩,
      fun e he => absurd he (Nat.not_lt_zero _), hzero, hdesc, hfit.size_pos, ?_, hw⟩
    · show l.blocks < uint32Max + 1
      simp only [uint32Max]
      omega
    · show l.offData + 0 * vdiBlockSize ≤ f'.size
      omega
    · show l.blocks ≤ (uint64Max - l.offData) / vdiBlockSize
      simp only [uint64Max, uint32Max, vdiBlockSize] at hdata ⊢
      omega

/-- A size with no layout is refused. -/
theorem vdiCreateSparse_none {s : DiskState} {sizeBytes : Nat} (hl : layoutFor sizeBytes = none)
    (imageUuid uuid : Mem) : vdiCreateSparse sizeBytes imageUuid uuid s = .error (-1) s := by
  unfold vdiCreateSparse
  rw [hl]
  rfl

end Guppy.Vdisk
