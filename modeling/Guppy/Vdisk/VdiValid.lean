import Guppy.Vdisk.VdiInspect

set_option autoImplicit false

/-! # New images stay valid

`layout_for` computes in 64-bit and 32-bit numbers; for every size it accepts nothing wraps
around (`layoutFor_exact`). The two ways of creating an image give one that
`vdisk_vdi_inspect` reports valid, and so does every later write that succeeds
(`created_images_stay_valid`).

A fixed image stays valid because a write does not reach below the data area
(`Valid.of_agree`). In a sparse image a write may allocate blocks; there the invariant is
`Sound`, together with the fact that no entry of the map is left over (`Tight`).
-/

namespace Guppy.Vdisk

open Prog

/-! ## Writing into the data area -/

theorem HeaderFacts.mono {h : Mem} {m n : Nat} (hh : HeaderFacts h m) (hmn : m ≤ n) : HeaderFacts h n :=
  { hh with
    data_file := le_trans hh.data_file hmn
    fixed := fun ht => ⟨(hh.fixed ht).1, (hh.fixed ht).2.1, le_trans (hh.fixed ht).2.2 hmn⟩
    dynamic := fun ht => le_trans (hh.dynamic ht) hmn }

theorem MapFacts.congr {calloc : Bool} {f f' : HostFile} {imageType offBlocks blocks allocated : Nat}
    (h : MapFacts calloc f imageType offBlocks blocks allocated)
    (he : ∀ i, i < blocks → mapEntry f' offBlocks i = mapEntry f offBlocks i) :
    MapFacts calloc f' imageType offBlocks blocks allocated where
  good := by
    intro i hi
    have hg := h.good i hi
    unfold GoodEntry at hg ⊢
    rwa [he i hi]
  allocated_eq := by
    rw [← h.allocated_eq]
    apply le_antisymm
    · apply Nat.count_mono_left
      intro i hi hne
      rwa [he i hi] at hne
    · apply Nat.count_mono_left
      intro i hi hne
      rwa [he i hi]
  distinct := by
    intro hle hc i j hij hj hi hj'
    unfold Placed at hi hj'
    rw [he i (by omega)] at hi ⊢
    rw [he j hj] at hj' ⊢
    exact h.distinct hle hc i j hij hj hi hj'

/-- The verdict depends on the bytes below the data area, and on the file being long enough. -/
theorem Valid.of_agree {calloc : Bool} {f f' : HostFile} (h : Valid calloc f) (hsize : f.size ≤ f'.size)
    (hb : ∀ i, i < (headerOf f).rd32 0x158 → f'.bytes i = f.bytes i) :
    Valid calloc f' ∧ headerOf f' = headerOf f := by
  obtain ⟨hlen, hh, hm⟩ := valid_iff.mp h
  have hmap := hh.map_data
  have hhm := hh.header_map
  have hhead : headerOf f' = headerOf f := by
    funext i
    unfold headerOf
    by_cases hi : i < vdiHeaderBytes
    · rw [Mem.slice_in hi, Mem.slice_in hi]
      exact hb _ (by omega)
    · rw [Mem.slice_out (by omega), Mem.slice_out (by omega)]
  refine ⟨valid_iff.mpr ⟨le_trans hlen hsize, ?_, ?_⟩, hhead⟩
  · rw [hhead]
    exact hh.mono hsize
  · rw [hhead]
    apply hm.congr
    intro i hi
    exact Mem.rd32_congr (fun k hk => hb _ (by omega))

/-- A fixed image that is reported valid, open. -/
structure FixedOk (calloc : Bool) (s : DiskState) : Prop where
  valid : Valid calloc s.file
  fixed : s.disk.imageType = vdiImageTypeFixed
  data : (headerOf s.file).rd32 0x158 ≤ s.disk.dataOffset

/-- A write to a fixed image goes to the data area. -/
theorem FixedOk.write {calloc : Bool} {s s' : DiskState} (h : FixedOk calloc s) {off : Nat}
    {data : List UInt8} (hw : vdiWrite off data s = .ok () s') : FixedOk calloc s' := by
  have hw' : (failIf (s.disk.writable = false ∨ boundsOk s.disk off data.length = false) (-1) >>=
      fun _ => if s.disk.imageType = vdiImageTypeFixed then
        vdiskHostWrite (s.disk.dataOffset + off) data.length (Mem.ofList data)
      else vdiWriteLoop data.length off data) s = .ok () s' := hw
  rw [if_pos h.fixed] at hw'
  obtain ⟨_, s₁, hf, hrun⟩ := bind_ok_iff.mp hw'
  obtain ⟨-, hs⟩ := failIf_ok_iff.mp hf
  rw [hs] at hrun
  by_cases hstop : s.stop = some 0
  · rw [vdiskHostWrite_of_stopped hstop] at hrun
    cases hrun
  rw [vdiskHostWrite_of_ne hstop] at hrun
  cases hrun
  have hfile := (valid_iff.mp h.valid).2.1.data_file
  have hdata := h.data
  obtain ⟨hv, hhead⟩ := h.valid.of_agree (HostFile.size_le_write s.file (s.disk.dataOffset + off)
    data.length (Mem.ofList data)) (fun i hi =>
      HostFile.write_bytes_out (Or.inl (by omega)) (by omega))
  refine ⟨hv, h.fixed, ?_⟩
  show (headerOf (s.file.write _ _ _)).rd32 0x158 ≤ _
  rw [hhead]
  exact hdata

/-! ## Allocating blocks -/

/-- A sound image whose header has the usual size and whose map has no entries to spare. -/
structure Tight (s : DiskState) : Prop extends Sound s where
  headerSize_le : s.file.bytes.rd32 0x48 ≤ vdiHeaderBytes
  held : ∀ g, g < s.disk.blocksCount → Held s.disk g

theorem Tight.header {s : DiskState} (h : Tight s) : HeaderFacts (headerOf s.file) s.file.size := by
  have h32 := fun o ho => rd32_header s.file.bytes (o := o) ho
  have h64 : (headerOf s.file).rd64 0x170 = s.file.bytes.rd64 0x170 := by
    unfold headerOf
    rw [Mem.rd64_slice (by simp only [vdiHeaderBytes]; omega), Nat.zero_add]
  have hd := h.described
  have hcnt : s.file.bytes.rd32 0x184 = s.disk.blocksAllocated := h.counted
  have hblocks : s.disk.blocksCount ≠ 0 := by
    intro h0
    have hsz := h.size_pos
    have hle := h.size_le
    rw [h0, Nat.zero_mul] at hle
    omega
  have hfile := le_trans (Nat.le_add_right _ _) h.data_file
  unfold headerOf at h64 ⊢
  constructor <;> simp only [h32 _ (show 0x40 + 4 ≤ 512 by omega), h32 _ (show 0x44 + 4 ≤ 512 by omega),
    h32 _ (show 0x48 + 4 ≤ 512 by omega), h32 _ (show 0x4c + 4 ≤ 512 by omega),
    h32 _ (show 0x168 + 4 ≤ 512 by omega), h32 _ (show 0x178 + 4 ≤ 512 by omega),
    h32 _ (show 0x180 + 4 ≤ 512 by omega), h32 _ (show 0x154 + 4 ≤ 512 by omega),
    h32 _ (show 0x158 + 4 ≤ 512 by omega), h32 _ (show 0x17c + 4 ≤ 512 by omega),
    h32 _ (show 0x184 + 4 ≤ 512 by omega), h64, hd.signature, hd.version, hd.imageType,
    hd.blocksOffset, hd.dataOffset, hd.sectorSize, hd.sizeBytes, hd.blockSize, hd.blockExtra,
    hd.blocksCount, hcnt, h.dynamic]
  case headerSize => exact ⟨hd.headerSize, h.headerSize_le⟩
  case imageType => exact Or.inr trivial
  case size_ne => exact Nat.ne_of_gt h.size_pos
  case blockSize_ne => exact Nat.ne_of_gt h.blockSize_pos
  case blocks_ne => exact hblocks
  case allocated_le => exact h.allocated_le
  case header_map => exact h.header_map
  case map_data => exact h.map_data
  case data_file => exact hfile
  case size_le => exact h.size_le
  case fixed => exact fun ht => absurd ht (by decide)
  case dynamic => exact fun _ => h.data_file

/-- The guest blocks that have an entry are as many as the data blocks. -/
theorem Tight.count_eq {s : DiskState} (h : Tight s) :
    Nat.count (fun g => entryOf s g ≠ vdiBlockUnallocated) s.disk.blocksCount = s.disk.blocksAllocated := by
  have hlast : s.disk.blocksAllocated ≤ vdiBlockUnallocated := by
    have h₁ := h.allocated_le
    have h₂ := h.count_lt
    simp only [uint32Max] at h₂
    simp only [vdiBlockUnallocated]
    omega
  -- an entry is a number below the count, each number is an entry, and no number is one twice
  rw [Nat.count_eq_card_filter_range, ← Finset.card_range s.disk.blocksAllocated]
  apply Finset.card_bij (fun g _ => entryOf s g)
  · intro g hg
    obtain ⟨hlt, hne⟩ := Finset.mem_filter.mp hg
    exact Finset.mem_range.mpr ((h.entry_lt g (h.held g (Finset.mem_range.mp hlt))).resolve_left hne)
  · intro g hg g' hg' heq
    obtain ⟨hlt, hne⟩ := Finset.mem_filter.mp hg
    obtain ⟨hlt', -⟩ := Finset.mem_filter.mp hg'
    exact h.entry_inj g g' (h.held g (Finset.mem_range.mp hlt)) (h.held g' (Finset.mem_range.mp hlt'))
      hne heq
  · intro e he
    have helt := Finset.mem_range.mp he
    obtain ⟨g, hg, hge⟩ := h.full e helt
    refine ⟨g, Finset.mem_filter.mpr ⟨Finset.mem_range.mpr hg, ?_⟩, hge⟩
    rw [hge]
    exact Nat.ne_of_lt (lt_of_lt_of_le helt hlast)

theorem Tight.valid {s : DiskState} (h : Tight s) (calloc : Bool) : Valid calloc s.file := by
  have h32 := fun o ho => rd32_header s.file.bytes (o := o) ho
  have hd := h.described
  have hfile := le_trans (Nat.le_add_right _ _) h.data_file
  have hhm := h.header_map
  have hmd := h.map_data
  have hsize : vdiHeaderBytes ≤ s.file.size := by omega
  have htype : (headerOf s.file).rd32 0x4c = vdiImageTypeDynamic := by
    rw [headerOf, h32 _ (by omega), hd.imageType, h.dynamic]
  have hoff : (headerOf s.file).rd32 0x154 = s.disk.blocksOffset := by
    rw [headerOf, h32 _ (by omega), hd.blocksOffset]
  have hblocks : (headerOf s.file).rd32 0x180 = s.disk.blocksCount := by
    rw [headerOf, h32 _ (by omega), hd.blocksCount]
  have hcnt : (headerOf s.file).rd32 0x184 = s.disk.blocksAllocated := by
    rw [headerOf, h32 _ (by omega)]
    exact h.counted
  rw [valid_iff, htype, hoff, hblocks, hcnt]
  refine ⟨hsize, h.header, ?_, h.count_eq, ?_⟩
  · intro g hg
    unfold GoodEntry
    by_cases hu : mapEntry s.file s.disk.blocksOffset g = vdiBlockUnallocated
    · rw [if_pos hu]
      decide
    · rw [if_neg hu]
      have hlt := (h.entry_lt g (h.held g hg)).resolve_left hu
      exact ⟨hlt, lt_of_lt_of_le hlt h.allocated_le⟩
  · intro _ _ g g' hlt hg' hp _ heq
    exact Nat.ne_of_lt hlt (h.entry_inj g g' (h.held g (by omega)) (h.held g' hg') hp.1 heq)

/-- A write to a sparse image that succeeds keeps the invariant. -/
theorem Tight.write {s s' : DiskState} (h : Tight s) {off : Nat} {data : List UInt8}
    (hw : vdiWrite off data s = .ok () s') : Tight s' := by
  have hsz : off + data.length ≤ s.disk.sizeBytes := by
    by_contra hout
    rw [vdiWrite_out hout] at hw
    cases hw
  rw [vdiWrite_dynamic h.toSeparated h.writable hsz] at hw
  have hk := (vdiWriteLoop_ok _ _ _ _ _ (le_refl _) h.toSeparated hsz hw).toKept
  refine ⟨h.toSound.of_kept hk, ?_, fun g hg => ?_⟩
  · have hsame : s'.file.bytes.rd32 0x48 = s.file.bytes.rd32 0x48 :=
      Mem.rd32_congr (fun i hi => hk.header _ (by simp only [vdiHeaderBytes]; omega) (Or.inl (by omega)))
    rw [hsame]
    exact h.headerSize_le
  · apply hk.held
    apply h.held
    rw [hk.shape] at hg
    exact hg

/-! ## New images -/

/-- `vdi_create_sparse` leaves a valid image. -/
theorem vdiCreateSparse_tight {s : DiskState} (hstop : s.stop = none) (hw : s.disk.writable = true)
    {sizeBytes : Nat} {l : Layout} (hl : layoutFor sizeBytes = some l) (imageUuid uuid : Mem) :
    ∃ s', vdiCreateSparse sizeBytes imageUuid uuid s = .ok () s' ∧ Tight s' := by
  have he := layoutFor_exact hl
  obtain ⟨s', hrun, hsound, -, hsize, -, h48, hblocks, hbs⟩ :=
    vdiCreateSparse_ok hstop hw hl imageUuid uuid
  refine ⟨s', hrun, hsound, by rw [h48]; decide, fun g hg => ?_⟩
  -- the last block begins before the end of the disk
  have h₁ := he.size_eq
  have h₂ := he.blocks_eq
  rw [hblocks] at hg
  unfold Held
  rw [hbs, hsize]
  simp only [vdiBlockSize]
  omega

/-- `vdi_create_fixed` leaves a valid image. -/
theorem vdiCreateFixed_ok {s : DiskState} (hstop : s.stop = none) {sizeBytes : Nat} {l : Layout}
    (hl : layoutFor sizeBytes = some l) (imageUuid uuid : Mem) :
    ∃ s', vdiCreateFixed sizeBytes imageUuid uuid s = .ok () s' ∧ ∀ calloc, FixedOk calloc s' := by
  have hfit := layoutFor_fits hl
  have he := layoutFor_exact hl
  have hne : s.stop ≠ some 0 := by
    rw [hstop]
    simp
  have hstop' : s.stop.map (· - 1) = s.stop := by
    rw [hstop]
    rfl
  set h := initHeader l.sizeBytes vdiImageTypeFixed l.blocks l.offBlocks l.offData imageUuid uuid with hh
  obtain ⟨f₁, hmap, hkeep, hent, hsize₁⟩ := writeMapOf_ok
    (s := { s with file := s.file.write 0 vdiHeaderBytes h }) hstop true he.blocks_le hfit.map_data
    (by
      rw [hfit.map_eq, HostFile.write_size (by decide)]
      omega)
  set d : Disk :=
    { sizeBytes := l.sizeBytes
      dataOffset := l.offData
      hostSizeBytes := l.offData + l.sizeBytes
      blockSize := vdiBlockSize
      blocksOffset := l.offBlocks
      blocksCount := l.blocks
      blocksAllocated := l.blocks
      imageType := vdiImageTypeFixed
      writable := s.disk.writable } with hd
  set f₂ := f₁.write (l.offData + l.sizeBytes - 1) 1 Mem.zero with hf₂
  have hpos := hfit.size_pos
  have hmd := hfit.map_data
  have hme := hfit.map_eq
  have hsize : l.offData + l.sizeBytes ≤ f₂.size := by
    rw [hf₂, HostFile.write_size (by omega)]
    omega
  -- the last byte of the file lies in the data area
  have hlow : ∀ i, i < l.offData → f₂.bytes i = f₁.bytes i := fun i hi =>
    HostFile.write_bytes_out (Or.inl (by omega)) (by omega)
  have hheader : ∀ i, i < vdiHeaderBytes → f₂.bytes i = h i := by
    intro i hi
    rw [hlow i (by omega), hkeep i (by omega), HostFile.write_bytes_in (Nat.zero_le _) (by omega)]
    rfl
  obtain ⟨hdesc, h48, hcnt⟩ := initHeader_described (d := d) hheader rfl hfit.size_lt rfl
    (Nat.lt_succ_of_le he.blocks_le) rfl (by rw [hme]; decide) rfl hfit.data_lt rfl rfl (by decide)
  rw [if_pos rfl] at hcnt
  have hentry : ∀ g, g < l.blocks → mapEntry f₂ l.offBlocks g = g := by
    intro g hg
    have hrd : mapEntry f₂ l.offBlocks g = mapEntry f₁ l.offBlocks g :=
      Mem.rd32_congr (fun k hk => hlow _ (by omega))
    rw [hrd]
    exact (hent g hg).trans (if_pos rfl)
  have h32 := fun o ho => rd32_header f₂.bytes (o := o) ho
  have hdata : (headerOf f₂).rd32 0x158 = l.offData := by
    rw [headerOf, h32 _ (by omega), hdesc.dataOffset]
  refine ⟨{ s with file := f₂, disk := d }, ?_, fun calloc => ⟨?_, rfl, le_of_eq hdata⟩⟩
  · have hroom : ¬ uint64Max - l.offData < l.sizeBytes := by
      have := he.end_le
      omega
    unfold vdiCreateFixed
    rw [hl]
    simp only [← hh]
    have hlast : vdiskHostWrite (l.offData + l.sizeBytes - 1) 1 Mem.zero { s with file := f₁ }
        = .ok () { s with file := f₂ } := by
      rw [vdiskHostWrite_of_ne (s := { s with file := f₁ }) hne]
      simp only [hstop', hf₂]
    rw [bind_of_ok (failIf_of_not hroom), bind_of_ok (vdiskHostWrite_of_ne hne), hstop', bind_of_ok hmap]
    show (vdiskHostWrite (l.offData + l.sizeBytes - 1) 1 Mem.zero >>= fun _ => _) { s with file := f₁ } = _
    rw [bind_of_ok hlast]
    rfl
  · have h64 : (headerOf f₂).rd64 0x170 = l.sizeBytes := by
      rw [headerOf, Mem.rd64_slice (by simp only [vdiHeaderBytes]; omega), Nat.zero_add, hdesc.sizeBytes]
    have htype : (headerOf f₂).rd32 0x4c = vdiImageTypeFixed := by
      rw [headerOf, h32 _ (by omega), hdesc.imageType]
    have hoff : (headerOf f₂).rd32 0x154 = l.offBlocks := by
      rw [headerOf, h32 _ (by omega), hdesc.blocksOffset]
    have hblocks : (headerOf f₂).rd32 0x180 = l.blocks := by
      rw [headerOf, h32 _ (by omega), hdesc.blocksCount]
    have hal : (headerOf f₂).rd32 0x184 = l.blocks := by
      rw [headerOf, h32 _ (by omega), hcnt]
    have hbs : (headerOf f₂).rd32 0x178 = vdiBlockSize := by
      rw [headerOf, h32 _ (by omega), hdesc.blockSize]
    have hb0 : 0 < l.blocks := by
      have h₁ := he.blocks_eq
      omega
    rw [valid_iff, htype, hoff, hblocks, hal]
    refine ⟨show vdiHeaderBytes ≤ f₂.size by omega, ?_, ?_, ?_, ?_⟩
    · constructor <;> simp only [htype, hoff, hblocks, hal, hbs, hdata, h64]
      case signature => rw [headerOf, h32 _ (by omega), hdesc.signature]
      case version => rw [headerOf, h32 _ (by omega), hdesc.version]
      case headerSize =>
        rw [headerOf, h32 _ (by omega), h48]
        decide
      case imageType => exact Or.inl trivial
      case sectorSize => rw [headerOf, h32 _ (by omega), hdesc.sectorSize]
      case size_ne => omega
      case blockSize_ne => decide
      case blockExtra => rw [headerOf, h32 _ (by omega), hdesc.blockExtra]
      case blocks_ne => omega
      case allocated_le => exact le_refl _
      case header_map => exact le_of_eq hme.symm
      case map_data => exact hmd
      case data_file => exact le_trans (Nat.le_add_right _ _) hsize
      case size_le => exact hfit.size_le
      case fixed => exact fun _ => ⟨trivial, he.end_le, hsize⟩
      case dynamic => exact fun ht => absurd ht (by decide)
    · -- the entry of a block is its own number, which is not the mark of an unallocated block
      intro g hg
      have hb := he.blocks_le
      simp only [uint32Max] at hb
      unfold GoodEntry
      rw [hentry g hg, if_neg (by simp only [vdiBlockUnallocated]; omega)]
      exact ⟨hg, hg⟩
    · rw [Nat.count_iff_forall]
      intro g hg
      have hb := he.blocks_le
      simp only [uint32Max] at hb
      show mapEntry f₂ l.offBlocks g ≠ vdiBlockUnallocated
      rw [hentry g hg]
      simp only [vdiBlockUnallocated]
      omega
    · intro _ _ g g' hlt hg' _ _
      rw [hentry g (by omega), hentry g' hg']
      exact Nat.ne_of_lt hlt

theorem vdiCreateFixed_none {s : DiskState} {sizeBytes : Nat} (hl : layoutFor sizeBytes = none)
    (imageUuid uuid : Mem) : vdiCreateFixed sizeBytes imageUuid uuid s = .error (-1) s := by
  unfold vdiCreateFixed
  rw [hl]
  rfl

/-! ## Runs of writes -/

/-- Writes one after another, as long as they succeed. -/
def vdiWrites : List (Nat × List UInt8) → Prog DiskState Unit
  | [] => pure ()
  | w :: ws => do
      vdiWrite w.1 w.2
      vdiWrites ws

/-- What every write that succeeds keeps, a run of them keeps. -/
theorem vdiWrites_keep {P : DiskState → Prop}
    (step : ∀ s s' off data, P s → vdiWrite off data s = .ok () s' → P s') :
    ∀ ws s s', P s → vdiWrites ws s = .ok () s' → P s' := by
  intro ws
  induction ws with
  | nil =>
      intro s s' h hrun
      cases hrun
      exact h
  | cons w ws ih =>
      intro s s' h hrun
      obtain ⟨u, s₁, hw, hrest⟩ := bind_ok_iff.mp hrun
      exact ih s₁ s' (step s s₁ w.1 w.2 h hw) hrest

/-- The layout of a new image is computed exactly, `vdisk_vdi_inspect` reports the image valid, and
it still does after any run of writes that succeed. -/
theorem created_images_stay_valid {f : HostFile} {sparse : Bool} {sizeBytes : Nat} {imageUuid uuid : Mem}
    {s : DiskState} (h : vdiCreate sparse sizeBytes imageUuid uuid (newState f) = .ok () s) :
    (∃ l, layoutFor sizeBytes = some l ∧ l.Exact sizeBytes) ∧
      ∀ calloc ws s', vdiWrites ws s = .ok () s' → Valid calloc s'.file := by
  cases hl : layoutFor sizeBytes with
  | none =>
      -- a size without a layout is refused either way
      cases sparse with
      | true =>
          rw [vdiCreate, if_pos rfl, vdiCreateSparse_none hl] at h
          cases h
      | false =>
          rw [vdiCreate, if_neg (by decide), vdiCreateFixed_none hl] at h
          cases h
  | some l =>
      refine ⟨⟨l, rfl, layoutFor_exact hl⟩, fun calloc ws s' hws => ?_⟩
      cases sparse with
      | true =>
          obtain ⟨s₁, hrun, ht⟩ := vdiCreateSparse_tight (s := newState f) rfl rfl hl imageUuid uuid
          rw [vdiCreate, if_pos rfl, hrun] at h
          cases h
          have hfin : Tight s' := vdiWrites_keep (fun _ _ _ _ ht hw => ht.write hw) ws s s' ht hws
          exact hfin.valid calloc
      | false =>
          obtain ⟨s₁, hrun, ht⟩ := vdiCreateFixed_ok (s := newState f) rfl hl imageUuid uuid
          rw [vdiCreate, if_neg (by decide), hrun] at h
          cases h
          have hfin : FixedOk calloc s' :=
            vdiWrites_keep (fun _ _ _ _ ht hw => ht.write hw) ws s s' (ht calloc) hws
          exact hfin.valid

/-- A sparse image of one byte, and one write to it. -/
theorem created_images_stay_valid_small :
    ∃ s s', vdiCreate true 1 Mem.zero Mem.zero (newState ⟨0, Mem.zero⟩) = .ok () s ∧
      vdiWrites [(3, [7])] s = .ok () s' ∧ Valid true s'.file := by
  have hl : layoutFor 1 = some ⟨512, 1, 512, 1024⟩ := rfl
  obtain ⟨s, hrun, hsound, hstop, hsize, -⟩ :=
    vdiCreateSparse_ok (s := newState ⟨0, Mem.zero⟩) rfl rfl hl Mem.zero Mem.zero
  have hcreate : vdiCreate true 1 Mem.zero Mem.zero (newState ⟨0, Mem.zero⟩) = .ok () s := hrun
  have hfit : 3 + [(7 : UInt8)].length ≤ s.disk.sizeBytes := by
    rw [hsize]
    decide
  obtain ⟨s', hw, -, -⟩ := hsound.vdiWrite_ok hstop hfit
  have hws : vdiWrites [(3, [7])] s = .ok () s' := by
    show (vdiWrite 3 [7] >>= fun _ => pure ()) s = _
    rw [bind_of_ok hw]
    rfl
  exact ⟨s, s', hcreate, hws, (created_images_stay_valid hcreate).2 true _ s' hws⟩

end Guppy.Vdisk
