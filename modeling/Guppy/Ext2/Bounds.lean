import Guppy.Ext2.Access

set_option autoImplicit false

/-! # Arithmetic and indexing

What the functions of `src/ext2.c` shift by, divide by, copy and index with metadata that
`ext2_load_meta` has accepted. The superblock is only partly checked there, so an access can
be outside its buffer. `AccessesDefined` says that none is, on whatever device the functions
run; `GeometryFits` is what the superblock and the descriptors have to satisfy for that.
-/

namespace Guppy.Ext2

open Prog

/-! ## Scans -/

/-- A loop over bits: leave it at the first `stop`, pass over every `skip`, return at the
first `hit`. The bits that it tests, and the one that it returns at. -/
def scan (stop skip hit : Nat → Bool) : (count start : Nat) → List Nat × Option Nat
  | 0, _ => ([], none)
  | count + 1, i =>
      if stop i then ([], none)
      else if skip i then scan stop skip hit count (i + 1)
      else if hit i then ([i], some i)
      else
        let rest := scan stop skip hit count (i + 1)
        (i :: rest.1, rest.2)

section Scan

variable {stop skip hit : Nat → Bool}

/-- Only bits before the first `stop` are tested, and none that is passed over. -/
theorem of_mem_scan {count start i : Nat} (h : i ∈ (scan stop skip hit count start).1) :
    start ≤ i ∧ i < start + count ∧ (∀ j, start ≤ j → j ≤ i → stop j = false) ∧ skip i = false := by
  induction count generalizing start with
  | zero => exact absurd h List.not_mem_nil
  | succ count ih =>
      rw [scan] at h
      split at h
      · exact absurd h List.not_mem_nil
      · rename_i hstop
        have hstop : stop start = false := by simpa using hstop
        have hstep : i ∈ (scan stop skip hit count (start + 1)).1 →
            start ≤ i ∧ i < start + (count + 1) ∧ (∀ j, start ≤ j → j ≤ i → stop j = false) ∧
              skip i = false := by
          intro hi
          obtain ⟨h₁, h₂, h₃, h₄⟩ := ih hi
          refine ⟨by omega, by omega, fun j hj hji => ?_, h₄⟩
          rcases Nat.eq_or_lt_of_le hj with rfl | hlt
          · exact hstop
          · exact h₃ j hlt hji
        have hhere : skip start = false → start ≤ start ∧ start < start + (count + 1) ∧
            (∀ j, start ≤ j → j ≤ start → stop j = false) ∧ skip start = false := by
          intro hskip
          refine ⟨le_refl _, by omega, fun j hj hji => ?_, hskip⟩
          rw [show j = start by omega]
          exact hstop
        split at h
        · exact hstep h
        · rename_i hskip
          have hskip : skip start = false := by simpa using hskip
          split at h
          · rw [List.mem_singleton.mp h]
            exact hhere hskip
          · rcases List.mem_cons.mp h with rfl | hi
            · exact hhere hskip
            · exact hstep hi

/-- Where nothing below `bound` is a `hit`, a scan that could test a bit from `bound` on does
test one. -/
theorem exists_mem_scan {bound count start i : Nat} (hhit : ∀ j, j < bound → hit j = false)
    (hi : bound ≤ i) (h₁ : start ≤ i) (h₂ : i < start + count)
    (h₃ : ∀ j, start ≤ j → j ≤ i → stop j = false) (h₄ : skip i = false) :
    ∃ j ∈ (scan stop skip hit count start).1, bound ≤ j := by
  induction count generalizing start with
  | zero => omega
  | succ count ih =>
      rw [scan, h₃ start (le_refl _) h₁]
      by_cases hlt : start < i
      · obtain ⟨j, hj, hb⟩ := ih hlt (by omega) (fun j hj => h₃ j (by omega))
        cases skip start with
        | true => exact ⟨j, hj, hb⟩
        | false =>
            cases hs : hit start with
            | true =>
                refine ⟨start, List.mem_cons_self .., ?_⟩
                by_contra hlow
                rw [hhit start (by omega)] at hs
                cases hs
            | false => exact ⟨j, List.mem_cons_of_mem _ hj, hb⟩
      · obtain rfl : start = i := by omega
        rw [h₄]
        cases hit start with
        | true => exact ⟨start, List.mem_cons_self .., hi⟩
        | false => exact ⟨start, List.mem_cons_self .., hi⟩

/-- A scan returns at a bit that it has tested. -/
theorem scan_some {count start i : Nat} (h : (scan stop skip hit count start).2 = some i) :
    i ∈ (scan stop skip hit count start).1 ∧ hit i = true := by
  induction count generalizing start with
  | zero => cases h
  | succ count ih =>
      rw [scan] at h ⊢
      split at h
      · cases h
      · rename_i hstop
        rw [if_neg hstop]
        split at h
        · rename_i hskip
          rw [if_pos hskip]
          exact ih h
        · rename_i hskip
          rw [if_neg hskip]
          split at h
          · rename_i hs
            cases h
            rw [if_pos hs]
            exact ⟨List.mem_cons_self .., hs⟩
          · rename_i hs
            rw [if_neg hs]
            exact ⟨List.mem_cons_of_mem _ (ih h).1, (ih h).2⟩

/-- A loop that only ever stops for good returns at the first `hit` that it does not pass
over. -/
theorem scan_found {count start : Nat}
    (hmono : ∀ i, start ≤ i → i + 1 < start + count → stop i = true → stop (i + 1) = true) :
    (scan stop skip hit count start).2
      = firstFrom (fun i => !stop i && !skip i && hit i) count start := by
  induction count generalizing start with
  | zero => rfl
  | succ count ih =>
      have hrest := @ih (start + 1) (fun i h₁ h₂ => hmono i (by omega) (by omega))
      rw [scan, firstFrom]
      cases hstop : stop start with
      | true =>
          have hall : ∀ j, start ≤ j → j < start + (count + 1) → stop j = true := by
            intro j hj
            induction j, hj using Nat.le_induction with
            | base => exact fun _ => hstop
            | succ j hj ihj => exact fun hlt => hmono j hj hlt (ihj (by omega))
          have hnone : firstFrom (fun i => !stop i && !skip i && hit i) count (start + 1) = none := by
            rw [firstFrom_none]
            intro j hj hlt
            rw [hall j (by omega) (by omega)]
            rfl
          rw [hnone]
          rfl
      | false =>
          cases hskip : skip start with
          | true => exact hrest
          | false =>
              cases hit start with
              | true => rfl
              | false => exact hrest

end Scan

/-! ## Accesses -/

/-- What a function does with its metadata that may be undefined. -/
inductive Access where
  /-- `1024u << k` -/
  | shift (k : Nat)
  /-- `… / k` or `… % k` -/
  | divide (k : Nat)
  /-- `m->gd[g]` -/
  | group (g : Nat)
  /-- a copy of `count` descriptors between `m->gd + first` and a block buffer -/
  | groups (first count : Nat)
  /-- a copy of an inode from or to offset `off` of a block buffer -/
  | inode (off : Nat)
  /-- byte `i` of a bitmap -/
  | bitmap (i : Nat)

/-- The access is defined: the shift is below the width, the divisor is not zero, and what is
indexed or copied is there. The block buffers have 4096 bytes. -/
def Access.Defined (m : Ext2Meta) : Access → Prop
  | shift k => k < 32
  | divide k => k ≠ 0
  | group g => g < m.groupCount
  | groups first count => first + count ≤ m.groupCount ∧ count * GroupDesc.size ≤ m.blockSize
  | inode off => off + Inode.size ≤ 4096
  | bitmap i => i < m.blockSize

/-- The loop over the blocks of descriptors, in `ext2_load_meta` and `ext2_store_meta`. -/
def gdtAccesses (m : Ext2Meta) : List Access :=
  (List.range m.gdtBlocks).map (fun k => .groups (gdtSpan m k).1 (gdtSpan m k).2)

/-- `ext2_load_meta`, for the metadata that it gives. -/
def loadAccesses (m : Ext2Meta) : List Access :=
  [.shift m.sb.sLogBlockSize, .divide m.sb.sBlocksPerGroup, .divide (m.blockSize / GroupDesc.size),
    .divide m.blockSize] ++ gdtAccesses m

/-- `ext2_read_inode_at` and `ext2_write_inode_at`. -/
def inodeAccesses (d : Vblk) (m : Ext2Meta) (ino : Nat) : List Access :=
  if ino = 0 ∨ m.sb.sInodesCount < ino then []
  else
    let group := (ino - 1) / m.sb.sInodesPerGroup
    let local' := (ino - 1) % m.sb.sInodesPerGroup
    .divide m.sb.sInodesPerGroup ::
      if m.groupCount ≤ group then []
      else
        let inodesPerBlock := m.blockSize / m.sb.sInodeSize
        .divide m.sb.sInodeSize ::
          if inodesPerBlock = 0 then []
          else
            let blk := ((m.gd group).bgInodeTable + local' / inodesPerBlock) % uint32
            .divide inodesPerBlock :: .group group ::
              match preadBlock d m.blockSize blk m.blockSize with
              | .error _ => []
              | .ok _ => [.inode (local' % inodesPerBlock * m.sb.sInodeSize)]

/-- The loop over the groups of an allocator: `free` is the count of a group, `bitmap'` its
bitmap block and `test` the loop over its bits. After a hit the counts and the metadata are
stored. -/
def allocAccesses (d : Vblk) (m : Ext2Meta) (free bitmap' : GroupDesc → Nat)
    (test : Nat → Mem → List Nat × Option Nat) : (count g : Nat) → List Access
  | 0, _ => []
  | count + 1, g =>
      .group g ::
        if free (m.gd g) = 0 then allocAccesses d m free bitmap' test count (g + 1)
        else
          match preadBlock d m.blockSize (bitmap' (m.gd g)) m.blockSize with
          | .error _ => []
          | .ok map =>
              (test g map).1.map (fun i => .bitmap (i / 8)) ++
                match (test g map).2 with
                | some _ => gdtAccesses m
                | none => allocAccesses d m free bitmap' test count (g + 1)

/-- The inode number of bit `i` of group `g`, in 32 bits. -/
def inoOf (m : Ext2Meta) (g i : Nat) : Nat := (g * m.sb.sInodesPerGroup + i + 1) % uint32

/-- The loop over the bits in `ext2_alloc_inode`. -/
def testInodes (m : Ext2Meta) (g : Nat) (ib : Mem) : List Nat × Option Nat :=
  scan (fun i => m.sb.sInodesCount < inoOf m g i)
    (fun i => inoOf m g i < m.sb.sFirstIno ∧ inoOf m g i ≠ 2) (fun i => !ib.bit i)
    m.sb.sInodesPerGroup 0

/-- The loop over the bits in `ext2_alloc_block`. -/
def testBlocks (m : Ext2Meta) (g : Nat) (bb : Mem) : List Nat × Option Nat :=
  scan (fun _ => false) (fun _ => false) (fun i => !bb.bit i) (ext2GroupBlockCount m g) 0

/-- `ext2_alloc_inode`. -/
def allocInodeAccesses (d : Vblk) (m : Ext2Meta) : List Access :=
  allocAccesses d m GroupDesc.bgFreeInodesCount GroupDesc.bgInodeBitmap (testInodes m) m.groupCount 0

/-- `ext2_alloc_block`. -/
def allocBlockAccesses (d : Vblk) (m : Ext2Meta) : List Access :=
  allocAccesses d m GroupDesc.bgFreeBlocksCount GroupDesc.bgBlockBitmap (testBlocks m) m.groupCount 0

theorem testBlocks_found (m : Ext2Meta) (g : Nat) (bb : Mem) :
    (testBlocks m g bb).2 = firstFrom (fun i => !bb.bit i) (ext2GroupBlockCount m g) 0 := by
  unfold testBlocks
  rw [scan_found (fun _ _ _ h => by cases h)]
  simp

/-- As long as no inode number wraps, the loop looks for what `inodeFree` says. -/
theorem testInodes_found {m : Ext2Meta} {g : Nat} (ib : Mem)
    (h : g * m.sb.sInodesPerGroup + m.sb.sInodesPerGroup < uint32) :
    (testInodes m g ib).2 = firstFrom (inodeFree m g ib) m.sb.sInodesPerGroup 0 := by
  have hino : ∀ i, i < m.sb.sInodesPerGroup → inoOf m g i = g * m.sb.sInodesPerGroup + i + 1 :=
    fun i hi => Nat.mod_eq_of_lt (by omega)
  unfold testInodes
  rw [scan_found]
  · refine firstFrom_congr (fun i _ hi => ?_)
    rw [Nat.zero_add] at hi
    rw [hino i hi]
    unfold inodeFree
    rw [Bool.eq_iff_iff]
    simp only [Bool.and_eq_true, Bool.not_eq_true', decide_eq_true_eq, decide_eq_false_iff_not,
      and_assoc, Nat.not_lt]
  · intro i _ hi hstop
    rw [Nat.zero_add] at hi
    rw [decide_eq_true_eq, hino i (by omega)] at hstop
    rw [decide_eq_true_eq, hino (i + 1) hi]
    omega

/-- Everything that the functions do is defined, on whatever device and for every inode
number. -/
def AccessesDefined (m : Ext2Meta) : Prop :=
  ∀ d ino, ∀ a ∈ loadAccesses m ++ gdtAccesses m ++ inodeAccesses d m ino ++
    allocInodeAccesses d m ++ allocBlockAccesses d m, a.Defined m

/-! ## What the geometry has to satisfy -/

/-- The shift is defined; the last inode of a block of the inode table lies in the block
buffer; the bits that the allocators test lie in the bitmap block. -/
structure GeometryFits (m : Ext2Meta) : Prop where
  shift : m.sb.sLogBlockSize < 32
  inodes : m.sb.sInodesCount = 0 ∨ m.blockSize < m.sb.sInodeSize ∨
    (min (min m.sb.sInodesPerGroup m.sb.sInodesCount) (m.blockSize / m.sb.sInodeSize) - 1)
      * m.sb.sInodeSize + 128 ≤ 4096
  inodeBits : ∀ g, g < m.groupCount → (m.gd g).bgFreeInodesCount ≠ 0 → ∀ i, 8 * m.blockSize ≤ i →
    i < m.sb.sInodesPerGroup → (∃ j, j ≤ i ∧ m.sb.sInodesCount < inoOf m g j) ∨
      inoOf m g i < m.sb.sFirstIno ∧ inoOf m g i ≠ 2
  blockBits : ∀ g, g < m.groupCount → (m.gd g).bgFreeBlocksCount ≠ 0 →
    ext2GroupBlockCount m g ≤ 8 * m.blockSize

/-- What `ext2_load_meta` has checked. -/
structure LoadChecked (m : Ext2Meta) : Prop where
  blockSize : m.blockSize = 1024 ∨ m.blockSize = 2048 ∨ m.blockSize = 4096
  blocksPerGroup : m.sb.sBlocksPerGroup ≠ 0
  inodesPerGroup : m.sb.sInodesPerGroup ≠ 0
  inodeSize : m.sb.sInodeSize ≠ 0
  groupCount : 0 < m.groupCount
  gdtBlocks : m.gdtBlocks = (m.groupCount + m.blockSize / 32 - 1) / (m.blockSize / 32)

theorem blockSize_of_shift (k : Fin 32) :
    1024 * 2 ^ k.val % 4294967296 = 0 ∨ 4096 < 1024 * 2 ^ k.val % 4294967296 ∨
      1024 * 2 ^ k.val % 4294967296 = 1024 ∨ 1024 * 2 ^ k.val % 4294967296 = 2048 ∨
      1024 * 2 ^ k.val % 4294967296 = 4096 := by
  revert k
  decide

theorem checked_of_load {d : Vblk} {m : Ext2Meta} (h : ext2LoadMeta d = .ok m) : LoadChecked m := by
  unfold ext2LoadMeta at h
  obtain ⟨sb, -, h⟩ := except_bind_ok_iff.mp h
  obtain ⟨_, -, h⟩ := except_bind_ok_iff.mp h
  obtain ⟨_, hsize, h⟩ := except_bind_ok_iff.mp h
  obtain ⟨_, hper, h⟩ := except_bind_ok_iff.mp h
  obtain ⟨_, hcount, h⟩ := except_bind_ok_iff.mp h
  have hsize := check_ok_iff.mp hsize
  have hper := check_ok_iff.mp hper
  have hcount := check_ok_iff.mp hcount
  -- the default for the inode size changes no other field
  obtain ⟨sb', hsb'⟩ : ∃ sb' : Superblock, (if sb.sInodeSize = 0 then sb.wr16 88 128 else sb) = sb' :=
    ⟨_, rfl⟩
  rw [hsb'] at h hcount
  have h32 : ∀ o, o + 4 ≤ 88 → sb'.rd32 o = sb.rd32 o := by
    intro o ho
    rw [← hsb']
    split
    · exact Mem.rd32_write_out (by omega)
    · rfl
  have hisz : sb'.sInodeSize ≠ 0 := by
    rw [← hsb']
    split
    · unfold Superblock.sInodeSize
      rw [Mem.rd16_wr16_self]
      omega
    · assumption
  have hlog : sb'.sLogBlockSize = sb.sLogBlockSize := h32 24 (by omega)
  have hbpg : sb'.sBlocksPerGroup = sb.sBlocksPerGroup := h32 32 (by omega)
  have hipg : sb'.sInodesPerGroup = sb.sInodesPerGroup := h32 40 (by omega)
  have hbs : (metaOf sb').blockSize = (metaOf sb).blockSize := by
    unfold metaOf
    dsimp only []
    rw [hlog]
  rw [loadGdt_keeps h]
  refine ⟨?_, ?_, ?_, hisz, ?_, rfl⟩
  · show (metaOf sb').blockSize = 1024 ∨ (metaOf sb').blockSize = 2048 ∨ (metaOf sb').blockSize = 4096
    have hk := blockSize_of_shift ⟨sb.sLogBlockSize % 32, Nat.mod_lt _ (by omega)⟩
    rw [hbs]
    unfold metaOf uint32 at hsize ⊢
    dsimp only [] at hsize hk ⊢
    omega
  · show sb'.sBlocksPerGroup ≠ 0
    rw [hbpg]
    exact fun h0 => hper (Or.inl h0)
  · show sb'.sInodesPerGroup ≠ 0
    rw [hipg]
    exact fun h0 => hper (Or.inr h0)
  · show 0 < (metaOf sb').groupCount
    omega

section Defined

variable {m : Ext2Meta} {d : Vblk}

theorem gdtAccesses_defined (h : LoadChecked m) : ∀ a ∈ gdtAccesses m, a.Defined m := by
  intro a ha
  obtain ⟨k, hk, rfl⟩ := List.mem_map.mp ha
  have hk := List.mem_range.mp hk
  have hbs := h.blockSize
  have hper : 0 < m.blockSize / 32 := by omega
  rw [h.gdtBlocks] at hk
  have hlt : k * (m.blockSize / 32) < m.groupCount := by
    have h₁ := (Nat.lt_div_iff_mul_lt hper).mp hk
    have h₂ := h.groupCount
    omega
  unfold gdtSpan Access.Defined GroupDesc.size
  dsimp only []
  omega

theorem loadAccesses_defined (h : LoadChecked m) (hshift : m.sb.sLogBlockSize < 32) :
    ∀ a ∈ loadAccesses m, a.Defined m := by
  intro a ha
  have hbs := h.blockSize
  unfold loadAccesses at ha
  rw [List.mem_append] at ha
  rcases ha with ha | ha
  · simp only [List.mem_cons, List.not_mem_nil, or_false] at ha
    rcases ha with rfl | rfl | rfl | rfl
    · exact hshift
    · exact h.blocksPerGroup
    · show m.blockSize / GroupDesc.size ≠ 0
      unfold GroupDesc.size
      omega
    · show m.blockSize ≠ 0
      omega
  · exact gdtAccesses_defined h a ha

/-- Where inode `ino` starts in its block of the inode table. -/
def slotOf (m : Ext2Meta) (ino : Nat) : Nat :=
  (ino - 1) % m.sb.sInodesPerGroup % (m.blockSize / m.sb.sInodeSize) * m.sb.sInodeSize

theorem inodeAccesses_defined (h : LoadChecked m) {ino : Nat}
    (hslot : 1 ≤ ino → ino ≤ m.sb.sInodesCount → m.blockSize / m.sb.sInodeSize ≠ 0 →
      slotOf m ino + 128 ≤ 4096) : ∀ a ∈ inodeAccesses d m ino, a.Defined m := by
  intro a ha
  unfold inodeAccesses at ha
  split at ha
  · exact absurd ha List.not_mem_nil
  · rename_i hino
    dsimp only [] at ha
    rcases List.mem_cons.mp ha with rfl | ha
    · exact h.inodesPerGroup
    split at ha
    · exact absurd ha List.not_mem_nil
    rename_i hgroup
    rcases List.mem_cons.mp ha with rfl | ha
    · exact h.inodeSize
    split at ha
    · exact absurd ha List.not_mem_nil
    rename_i hipb
    rcases List.mem_cons.mp ha with rfl | ha
    · exact hipb
    rcases List.mem_cons.mp ha with rfl | ha
    · show (ino - 1) / m.sb.sInodesPerGroup < m.groupCount
      omega
    split at ha
    · exact absurd ha List.not_mem_nil
    · rw [List.mem_singleton.mp ha]
      exact hslot (by omega) (by omega) hipb

theorem allocAccesses_defined (h : LoadChecked m) {free bitmap' : GroupDesc → Nat}
    {test : Nat → Mem → List Nat × Option Nat}
    (htest : ∀ g, g < m.groupCount → free (m.gd g) ≠ 0 → ∀ map, ∀ i ∈ (test g map).1,
      i < 8 * m.blockSize) {count g : Nat} (hcount : g + count ≤ m.groupCount) :
    ∀ a ∈ allocAccesses d m free bitmap' test count g, a.Defined m := by
  induction count generalizing g with
  | zero => exact fun a ha => absurd ha List.not_mem_nil
  | succ count ih =>
      intro a ha
      have hrest := @ih (g + 1) (by omega)
      rw [allocAccesses] at ha
      rcases List.mem_cons.mp ha with rfl | ha
      · show g < m.groupCount
        omega
      split at ha
      · exact hrest a ha
      rename_i hfree
      split at ha
      · exact absurd ha List.not_mem_nil
      rename_i map _
      rcases List.mem_append.mp ha with ha | ha
      · obtain ⟨i, hi, rfl⟩ := List.mem_map.mp ha
        have := htest g (by omega) hfree map i hi
        show i / 8 < m.blockSize
        omega
      split at ha
      · exact gdtAccesses_defined h a ha
      · exact hrest a ha

theorem geometry_slot (hfits : GeometryFits m) (hchecked : LoadChecked m) {ino : Nat} (h₁ : 1 ≤ ino)
    (h₂ : ino ≤ m.sb.sInodesCount) (hipb : m.blockSize / m.sb.sInodeSize ≠ 0) :
    slotOf m ino + 128 ≤ 4096 := by
  have hsize := Nat.pos_of_ne_zero hchecked.inodeSize
  have hle : ¬ m.blockSize < m.sb.sInodeSize := fun hlt => hipb (Nat.div_eq_of_lt hlt)
  have hmax : (min (min m.sb.sInodesPerGroup m.sb.sInodesCount) (m.blockSize / m.sb.sInodeSize) - 1)
      * m.sb.sInodeSize + 128 ≤ 4096 := by
    rcases hfits.inodes with h0 | h0 | h0
    · omega
    · exact absurd h0 hle
    · exact h0
  have hloc : (ino - 1) % m.sb.sInodesPerGroup < m.sb.sInodesPerGroup :=
    Nat.mod_lt _ (Nat.pos_of_ne_zero hchecked.inodesPerGroup)
  have hloc' : (ino - 1) % m.sb.sInodesPerGroup ≤ ino - 1 := Nat.mod_le _ _
  have hin : (ino - 1) % m.sb.sInodesPerGroup % (m.blockSize / m.sb.sInodeSize)
      < m.blockSize / m.sb.sInodeSize := Nat.mod_lt _ (Nat.pos_of_ne_zero hipb)
  have hin' : (ino - 1) % m.sb.sInodesPerGroup % (m.blockSize / m.sb.sInodeSize)
      ≤ (ino - 1) % m.sb.sInodesPerGroup := Nat.mod_le _ _
  have hslot : slotOf m ino ≤ (min (min m.sb.sInodesPerGroup m.sb.sInodesCount)
      (m.blockSize / m.sb.sInodeSize) - 1) * m.sb.sInodeSize :=
    Nat.mul_le_mul_right _ (by omega)
  omega

theorem accessesDefined_of_fits (h : LoadChecked m) (hfits : GeometryFits m) : AccessesDefined m := by
  intro d ino a ha
  simp only [List.mem_append] at ha
  rcases ha with (((ha | ha) | ha) | ha) | ha
  · exact loadAccesses_defined h hfits.shift a ha
  · exact gdtAccesses_defined h a ha
  · exact inodeAccesses_defined h (fun h₁ h₂ hipb => geometry_slot hfits h h₁ h₂ hipb) a ha
  · refine allocAccesses_defined h (fun g hg hfree map i hi => ?_) (by omega) a ha
    obtain ⟨-, hlt, hstop, hskip⟩ := of_mem_scan hi
    by_contra hge
    rcases hfits.inodeBits g hg hfree i (by omega) (by omega) with ⟨j, hj, hgt⟩ | hres
    · have := hstop j (Nat.zero_le _) hj
      rw [decide_eq_false_iff_not] at this
      exact this hgt
    · rw [decide_eq_false_iff_not] at hskip
      exact hskip hres
  · refine allocAccesses_defined h (fun g hg hfree map i hi => ?_) (by omega) a ha
    have hlt := (of_mem_scan hi).2.1
    have := hfits.blockBits g hg hfree
    omega

/-! ## The worst device -/

/-- A device with every block that has a number, and all of its bits set. -/
def fullDevice : Vblk := ⟨uint32 * 4096, false, fun _ => 255, fun _ => 0⟩

theorem preadBlock_full (h : LoadChecked m) {b : Nat} (hb : b < uint32) :
    preadBlock fullDevice m.blockSize b m.blockSize
      = .ok (fullDevice.bytes.slice (b * m.blockSize) m.blockSize) := by
  have hbs := h.blockSize
  refine preadBlock_of_le (show _ ≤ uint32 * 4096 from ?_)
  calc b * m.blockSize + m.blockSize = (b + 1) * m.blockSize := by ring
    _ ≤ uint32 * m.blockSize := Nat.mul_le_mul_right _ hb
    _ ≤ uint32 * 4096 := Nat.mul_le_mul_left _ (by omega)

theorem bit_full {off len i : Nat} (hi : i < 8 * len) : (fullDevice.bytes.slice off len).bit i = true := by
  have hbyte : fullDevice.bytes.slice off len (i / 8) = 255 := Mem.slice_in (by omega)
  unfold Mem.bit
  rw [hbyte]
  have hmod : i % 8 < 8 := Nat.mod_lt _ (by omega)
  generalize i % 8 = k at hmod
  interval_cases k <;> decide

/-- On the full device an allocator whose accesses are all defined tests the bits of every
group with a free count, and finds none. -/
theorem tests_of_defined (h : LoadChecked m) {free bitmap' : GroupDesc → Nat}
    {test : Nat → Mem → List Nat × Option Nat} (hbm : ∀ gd, bitmap' gd < uint32)
    (hsome : ∀ g map i, (test g map).2 = some i → i ∈ (test g map).1 ∧ map.bit i = false)
    {count g : Nat} (hall : ∀ a ∈ allocAccesses fullDevice m free bitmap' test count g, a.Defined m) :
    ∀ g', g ≤ g' → g' < g + count → free (m.gd g') ≠ 0 →
      ∃ off, ∀ i ∈ (test g' (fullDevice.bytes.slice off m.blockSize)).1, i < 8 * m.blockSize := by
  induction count generalizing g with
  | zero => exact fun g' h₁ h₂ => absurd h₂ (by omega)
  | succ count ih =>
      intro g' h₁ h₂ hfree
      rw [allocAccesses] at hall
      have hall := fun a ha => hall a (List.mem_cons_of_mem _ ha)
      by_cases hg0 : free (m.gd g) = 0
      · rw [if_pos hg0] at hall
        rcases Nat.eq_or_lt_of_le h₁ with rfl | hlt
        · exact absurd hg0 hfree
        · exact ih hall g' hlt (by omega) hfree
      · rw [if_neg hg0, preadBlock_full h (hbm _)] at hall
        dsimp only [] at hall
        generalize bitmap' (m.gd g) * m.blockSize = off at hall
        have htested : ∀ i ∈ (test g (fullDevice.bytes.slice off m.blockSize)).1,
            i < 8 * m.blockSize := by
          intro i hi
          have hdef : i / 8 < m.blockSize := hall (.bitmap (i / 8))
            (List.mem_append_left _ (List.mem_map.mpr ⟨i, hi, rfl⟩))
          omega
        rcases Nat.eq_or_lt_of_le h₁ with rfl | hlt
        · exact ⟨off, htested⟩
        · -- a bit that was found would be one of the set ones
          have hnone : (test g (fullDevice.bytes.slice off m.blockSize)).2 = none := by
            by_contra hne
            obtain ⟨i, hi⟩ := Option.ne_none_iff_exists'.mp hne
            obtain ⟨hmem, hbit⟩ := hsome _ _ _ hi
            rw [bit_full (htested i hmem)] at hbit
            cases hbit
          rw [hnone] at hall
          exact ih (fun a ha => hall a (List.mem_append_right _ ha)) g' hlt (by omega) hfree

theorem fits_of_accessesDefined (h : LoadChecked m) (hdef : AccessesDefined m) : GeometryFits m := by
  have hdef := hdef fullDevice
  refine ⟨?_, ?_, fun g hg hfree i hi hlt => ?_, fun g hg hfree => ?_⟩
  · exact hdef 0 (.shift m.sb.sLogBlockSize) (by simp [loadAccesses])
  · -- the inode in the last slot that is used
    by_contra hnot
    push Not at hnot
    obtain ⟨hcount, hsize, hout⟩ := hnot
    have hisz := Nat.pos_of_ne_zero h.inodeSize
    have hipg := Nat.pos_of_ne_zero h.inodesPerGroup
    have hgc := h.groupCount
    have hipb : 0 < m.blockSize / m.sb.sInodeSize := Nat.div_pos hsize hisz
    obtain ⟨ino, hino⟩ : ∃ ino, ino = min (min m.sb.sInodesPerGroup m.sb.sInodesCount)
      (m.blockSize / m.sb.sInodeSize) := ⟨_, rfl⟩
    rw [← hino] at hout
    have hlocal : (ino - 1) % m.sb.sInodesPerGroup = ino - 1 := Nat.mod_eq_of_lt (by omega)
    have hgroup : (ino - 1) / m.sb.sInodesPerGroup = 0 := Nat.div_eq_of_lt (by omega)
    have hslot : (ino - 1) % (m.blockSize / m.sb.sInodeSize) = ino - 1 := Nat.mod_eq_of_lt (by omega)
    have hmem : Access.inode ((ino - 1) * m.sb.sInodeSize) ∈ inodeAccesses fullDevice m ino := by
      unfold inodeAccesses
      dsimp only []
      rw [if_neg (by omega), hgroup, hlocal, if_neg (by omega), if_neg (by omega), hslot,
        preadBlock_full h (Nat.mod_lt _ (by unfold uint32; omega))]
      simp
    have hin : (Access.inode ((ino - 1) * m.sb.sInodeSize)).Defined m := hdef ino _ (by
      simp only [List.mem_append]
      exact Or.inl (Or.inl (Or.inr hmem)))
    have hin : (ino - 1) * m.sb.sInodeSize + 128 ≤ 4096 := hin
    omega
  · obtain ⟨off, htested⟩ := @tests_of_defined m h GroupDesc.bgFreeInodesCount
      GroupDesc.bgInodeBitmap (testInodes m) (fun gd => Mem.rd32_lt gd 4) (fun g map j hj =>
        ⟨(scan_some hj).1, by simpa using (scan_some hj).2⟩) m.groupCount 0 (fun a ha => hdef 0 a (by
        simp only [List.mem_append]
        exact Or.inl (Or.inr ha))) g (Nat.zero_le _) (by omega) hfree
    by_contra hnot
    push Not at hnot
    obtain ⟨hstop, hskip⟩ := hnot
    -- the bit could be tested, so one outside the bitmap is
    obtain ⟨j, hj, hge⟩ := @exists_mem_scan (fun i => decide (m.sb.sInodesCount < inoOf m g i))
      (fun i => decide (inoOf m g i < m.sb.sFirstIno ∧ inoOf m g i ≠ 2))
      (fun i => !(fullDevice.bytes.slice off m.blockSize).bit i) (8 * m.blockSize)
      m.sb.sInodesPerGroup 0 i (fun j hj => by simp [bit_full hj]) hi (Nat.zero_le _) (by omega)
      (fun j _ hj => by simpa using hstop j hj) (by simpa using hskip)
    have := htested j hj
    omega
  · obtain ⟨off, htested⟩ := @tests_of_defined m h GroupDesc.bgFreeBlocksCount
      GroupDesc.bgBlockBitmap (testBlocks m) (fun gd => Mem.rd32_lt gd 0) (fun g map j hj =>
        ⟨(scan_some hj).1, by simpa using (scan_some hj).2⟩) m.groupCount 0 (fun a ha => hdef 0 a (by
        simp only [List.mem_append]
        exact Or.inr ha)) g (Nat.zero_le _) (by omega) hfree
    by_contra hgt
    obtain ⟨j, hj, hge⟩ := @exists_mem_scan (fun _ => false) (fun _ => false)
      (fun i => !(fullDevice.bytes.slice off m.blockSize).bit i) (8 * m.blockSize)
      (ext2GroupBlockCount m g) 0 (8 * m.blockSize) (fun j hj => by simp [bit_full hj]) (le_refl _)
      (Nat.zero_le _) (by omega) (fun _ _ _ => rfl) rfl
    have := htested j hj
    omega

/-- With metadata that `ext2_load_meta` has accepted, the functions are defined for every
inode number and on every device exactly when the geometry fits. -/
theorem accessesDefined_iff (h : ext2LoadMeta d = .ok m) : AccessesDefined m ↔ GeometryFits m :=
  ⟨fits_of_accessesDefined (checked_of_load h), accessesDefined_of_fits (checked_of_load h)⟩

end Defined

/-! ## Two superblocks -/

/-- A device of 4096 blocks with a superblock for one group of 1024 inodes of `inodeSize`
bytes. -/
def oneGroup (inodeSize : Nat) : Vblk where
  limit := 4096 * 4096
  ro := false
  bytes := (((((((Mem.zero.wr32 1024 1024).wr32 1028 4096).wr32 1048 2).wr32 1056 32768).wr32 1064
    1024).wr16 1080 0xEF53).wr32 1108 11).wr16 1112 inodeSize
  clock := fun _ => 0

/-- Inodes of 128 bytes. -/
theorem oneGroup_defined : ∃ m, ext2LoadMeta (oneGroup 128) = .ok m ∧ AccessesDefined m := by
  have heval : ∃ m, ext2LoadMeta (oneGroup 128) = .ok m ∧
      decide (m.sb.sLogBlockSize = 2 ∧ m.blockSize = 4096 ∧ m.sb.sInodeSize = 128 ∧
        m.sb.sInodesPerGroup = 1024 ∧ m.sb.sInodesCount = 1024 ∧ m.sb.sBlocksPerGroup = 32768) = true :=
    exists_ok_of_eval (by decide +kernel)
  obtain ⟨m, hload, hm⟩ := heval
  obtain ⟨hlog, hbs, hisz, hipg, hcount, hbpg⟩ := of_decide_eq_true hm
  refine ⟨m, hload, (accessesDefined_iff hload).mpr ⟨?_, Or.inr (Or.inr ?_), ?_, ?_⟩⟩
  · omega
  · rw [hbs, hisz, hipg, hcount]
    decide
  · intro g _ _ i hi hlt
    omega
  · intro g _ _
    unfold ext2GroupBlockCount
    omega

/-- Inodes of 16 bytes: the copy of inode 256 starts 16 bytes before the end of the block
buffer. -/
theorem oneGroup_small_inode : ∃ m, ext2LoadMeta (oneGroup 16) = .ok m ∧
    Access.inode 4080 ∈ inodeAccesses (oneGroup 16) m 256 ∧ ¬ (Access.inode 4080).Defined m ∧
    ¬ AccessesDefined m := by
  have heval : ∃ m, ext2LoadMeta (oneGroup 16) = .ok m ∧
      decide (m.blockSize = 4096 ∧ m.sb.sInodeSize = 16 ∧ m.sb.sInodesPerGroup = 1024 ∧
        m.sb.sInodesCount = 1024 ∧ m.groupCount = 1 ∧ (m.gd 0).bgInodeTable = 0) = true :=
    exists_ok_of_eval (by decide +kernel)
  obtain ⟨m, hload, hm⟩ := heval
  obtain ⟨hbs, hisz, hipg, hcount, hgc, htable⟩ := of_decide_eq_true hm
  have hread : preadBlock (oneGroup 16) 4096 0 4096 = .ok ((oneGroup 16).bytes.slice (0 * 4096) 4096) :=
    preadBlock_of_le (by decide)
  have hmem : Access.inode 4080 ∈ inodeAccesses (oneGroup 16) m 256 := by
    unfold inodeAccesses
    simp only [hbs, hisz, hipg, hcount, hgc]
    norm_num
    rw [htable, Nat.zero_mod, hread]
    simp
  have hout : ¬ (Access.inode 4080).Defined m := by
    show ¬ 4080 + 128 ≤ 4096
    omega
  refine ⟨m, hload, hmem, hout, fun hall => hout (hall (oneGroup 16) 256 _ ?_)⟩
  simp only [List.mem_append]
  exact Or.inl (Or.inl (Or.inr hmem))

end Guppy.Ext2
