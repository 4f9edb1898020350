import Guppy.Ext2.Bounds
import Guppy.Ext2.Deferred
import Guppy.Ext2.Lookup

set_option autoImplicit false

/-! # Bits and blocks

`ext2_fsck_phase1` takes bit `i` of the bitmap of group `g` for block
`s_first_data_block + g * s_blocks_per_group + i`. The allocator and `ext2_free_block_ctx`
leave the first data block out. So they mean the same blocks as the checker exactly when the
first data block is 0 (`sameCorrespondence_iff`).
-/

namespace Guppy.Ext2

open Prog

/-! ## The checker -/

namespace FsckGeometry

variable (q : FsckGeometry)

/-- The group of block `b`, and its bit there. -/
def groupOf (b : Nat) : Nat := (b - q.first) / q.bpg
def bitOf (b : Nat) : Nat := (b - q.first) % q.bpg

/-- The descriptor of group `g`, from where the checker reads it. -/
def descOf (d : Vblk) (g : Nat) : GroupDesc := d.bytes.slice ((q.first + 1) * q.bs + 32 * g) 32

/-- The bit of block `b` is set, in the bitmap that the checker reads for its group. -/
def blockBit (d : Vblk) (b : Nat) : Bool :=
  (d.bytes.slice ((q.descOf d (q.groupOf b)).bgBlockBitmap * q.bs) q.bs).bit (q.bitOf b)

end FsckGeometry

/-- What the loop over the block bitmaps collects. -/
theorem loadBlockBitmaps_some {d : Vblk} {q : FsckGeometry} {gdt : Mem} {count g b : Nat}
    {a a' : Nat → Bool} (h : loadBlockBitmaps d q gdt count g a = some a') :
    a' b = true ↔ a b = true ∨ ∃ g', g ≤ g' ∧ g' < g + count ∧ q.start g' ≤ b ∧
      b < q.start g' + q.nblk g' ∧
      (d.bytes.slice (gdt.rd32 (32 * g') * q.bs) q.bs).bit (b - q.start g') = true := by
  induction count generalizing g a with
  | zero =>
      cases h
      constructor
      · exact Or.inl
      · rintro (h | ⟨g', h₁, h₂, -⟩)
        · exact h
        · omega
  | succ count ih =>
      unfold loadBlockBitmaps at h
      dsimp only [] at h
      split at h
      · cases h
      · split at h
        · cases h
        · rename_i bb hread
          have hbb : bb = d.bytes.slice (gdt.rd32 (32 * g) * q.bs) q.bs := readat_some hread
          rw [ih h, hbb]
          simp only [Bool.or_eq_true, Bool.and_eq_true, decide_eq_true_eq]
          constructor
          · rintro ((ha | ⟨hin, hbit⟩) | ⟨g', h₁, h₂, hrest⟩)
            · exact Or.inl ha
            · exact Or.inr ⟨g, le_refl _, by omega, hin.1, hin.2, hbit⟩
            · exact Or.inr ⟨g', by omega, by omega, hrest⟩
          · rintro (ha | ⟨g', h₁, h₂, h₃, h₄, hbit⟩)
            · exact Or.inl (Or.inl ha)
            · rcases Nat.eq_or_lt_of_le h₁ with rfl | hlt
              · exact Or.inl (Or.inr ⟨⟨h₃, h₄⟩, hbit⟩)
              · exact Or.inr ⟨g', hlt, by omega, h₃, h₄, hbit⟩

/-- A block belongs to the group that the division gives, and to no other. -/
theorem FsckGeometry.groupOf_unique {q : FsckGeometry} {b g : Nat} (h₁ : q.start g ≤ b)
    (h₂ : b < q.start g + q.nblk g) : g = q.groupOf b ∧ b - q.start g = q.bitOf b := by
  unfold FsckGeometry.start FsckGeometry.nblk FsckGeometry.groupOf FsckGeometry.bitOf at *
  have hb : b - q.first = q.bpg * g + (b - (q.first + g * q.bpg)) := by
    rw [Nat.mul_comm]
    omega
  have hlt : b - (q.first + g * q.bpg) < q.bpg := by omega
  constructor
  · rw [hb, Nat.mul_add_div (by omega), Nat.div_eq_of_lt hlt, Nat.add_zero]
  · rw [hb, Nat.mul_add_mod, Nat.mod_eq_of_lt hlt]

theorem FsckGeometry.groupOf_lt {q : FsckGeometry} {b : Nat} (hbpg : 0 < q.bpg) (h₁ : q.first ≤ b)
    (h₂ : b < q.blocks) : q.groupOf b < q.groups ∧ q.start (q.groupOf b) ≤ b ∧
      b < q.start (q.groupOf b) + q.nblk (q.groupOf b) := by
  have hsplit := Nat.div_add_mod (b - q.first) q.bpg
  have hmod := Nat.mod_lt (b - q.first) hbpg
  unfold FsckGeometry.groups FsckGeometry.nblk FsckGeometry.start FsckGeometry.groupOf
  rw [Nat.mul_comm] at hsplit
  have hlt : ((b - q.first) / q.bpg + 1) * q.bpg ≤ q.blocks - q.first + q.bpg - 1 := by
    rw [Nat.succ_mul]
    omega
  refine ⟨(Nat.le_div_iff_mul_le hbpg).mpr hlt, by omega, by omega⟩

/-- For a block of the filesystem the checker keeps the bit that `blockBit` names. -/
theorem loadBlockBitmaps_blockBit {d : Vblk} {q : FsckGeometry} {b : Nat} {a : Nat → Bool}
    (hbpg : 0 < q.bpg)
    (h : loadBlockBitmaps d q (d.bytes.slice ((q.first + 1) * q.bs) (q.groups * 32)) q.groups 0
      (fun _ => false) = some a) (h₁ : q.first ≤ b) (h₂ : b < q.blocks) : a b = q.blockBit d b := by
  obtain ⟨hg, hlo, hhi⟩ := FsckGeometry.groupOf_lt hbpg h₁ h₂
  have hdesc : ∀ g, g < q.groups → (d.bytes.slice ((q.first + 1) * q.bs) (q.groups * 32)).rd32 (32 * g)
      = (q.descOf d g).bgBlockBitmap := by
    intro g hg
    rw [Mem.rd32_slice (by omega)]
    exact (@Mem.rd32_slice d.bytes ((q.first + 1) * q.bs + 32 * g) 32 0 (by omega)).symm
  rw [Bool.eq_iff_iff, loadBlockBitmaps_some h]
  unfold FsckGeometry.blockBit
  constructor
  · rintro (hfalse | ⟨g, -, hlt, hin₁, hin₂, hbit⟩)
    · cases hfalse
    · obtain ⟨rfl, hloc⟩ := FsckGeometry.groupOf_unique hin₁ hin₂
      rwa [← hdesc _ hg, ← hloc]
  · intro hbit
    refine Or.inr ⟨q.groupOf b, Nat.zero_le _, by omega, hlo, hhi, ?_⟩
    rwa [hdesc _ hg, (FsckGeometry.groupOf_unique hlo hhi).2]

/-- The descriptors that the checker accepts are in bounds. -/
theorem ext2FsckPhase1_inBounds {d : Vblk} {q : FsckGeometry}
    (hq : q = fsckGeometry (d.bytes.slice 1024 1024)) (h : ext2FsckPhase1 d = 0) :
    0 < q.groups ∧ ∀ g, g < q.groups → groupInBounds q (q.descOf d g) g = true := by
  obtain ⟨-, -, -, hgroups, _, _, h⟩ := ext2FsckPhase1_passed hq h
  exact ⟨by omega, fun g hg => fsckGroups_inBounds h hg⟩

/-! ## The allocator -/

/-- The allocator and `ext2_free_block_ctx` mean the same blocks as a checker with geometry
`q`. Whatever the allocator returns is a block of the filesystem whose bit was clear; freeing
a block clears its bit and no other, in every context. -/
structure SameCorrespondence (d : Vblk) (m : Ext2Meta) (q : FsckGeometry) : Prop where
  alloc : ∀ b m' d', ext2AllocBlock m d = .ok (b, m') d' →
    q.first ≤ b ∧ b < q.blocks ∧ q.blockBit d b = false
  free : ∀ ctx b, q.first ≤ b → b < q.blocks → b ≠ 0 →
    ∃ m' ctx', ext2FreeBlockCtx d m ctx b = .ok (m', ctx') ∧
      ∀ g i, (ctx'.bitmapOf d m g).bit i =
        ((ctx.bitmapOf d m g).bit i && !decide (g = q.groupOf b ∧ i = q.bitOf b))

/-- A block that the allocator returns: some bit of some group was clear. -/
theorem allocBlockFrom_bit {m m' : Ext2Meta} {d d' : Vblk} {count g b : Nat}
    (h : allocBlockFrom m count g d = .ok (b, m') d') :
    ∃ g' i, g ≤ g' ∧ g' < g + count ∧ i < ext2GroupBlockCount m g' ∧
      (d.bytes.slice ((m.gd g').bgBlockBitmap * m.blockSize) m.blockSize).bit i = false ∧
      b = g' * m.sb.sBlocksPerGroup + i := by
  induction count generalizing g with
  | zero => exact absurd h throw_ne_ok
  | succ count ih =>
      -- a group that is left for the next one
      have hnext : allocBlockFrom m count (g + 1) d = .ok (b, m') d' → ∃ g' i, g ≤ g' ∧
          g' < g + (count + 1) ∧ i < ext2GroupBlockCount m g' ∧
          (d.bytes.slice ((m.gd g').bgBlockBitmap * m.blockSize) m.blockSize).bit i = false ∧
          b = g' * m.sb.sBlocksPerGroup + i := by
        intro h
        obtain ⟨g', i, h₁, h₂, hrest⟩ := ih h
        exact ⟨g', i, by omega, by omega, hrest⟩
      unfold allocBlockFrom at h
      split at h
      · exact hnext h
      · obtain ⟨bb, d₁, hread, h⟩ := bind_ok_iff.mp h
        obtain ⟨hread, hd⟩ := look_ok_iff.mp hread
        obtain ⟨-, rfl⟩ := preadBytesAt_ok_iff.mp hread
        rw [hd] at h
        cases hfound : firstFrom (fun i =>
            !(d.bytes.slice ((m.gd g).bgBlockBitmap * m.blockSize) m.blockSize).bit i)
            (ext2GroupBlockCount m g) 0 with
        | none =>
            rw [hfound] at h
            exact hnext h
        | some i =>
            rw [hfound] at h
            obtain ⟨-, hlt, hclear, -⟩ := firstFrom_some hfound
            obtain ⟨_, _, -, h⟩ := bind_ok_iff.mp h
            obtain ⟨_, _, -, h⟩ := bind_ok_iff.mp h
            obtain ⟨_, _, -, h⟩ := bind_ok_iff.mp h
            cases h
            refine ⟨g, i, le_refl _, by omega, by omega, ?_, rfl⟩
            simpa using hclear

/-- What freeing a block does to the bitmaps of a context: the bit that the remainder names is
cleared, in the group that the quotient names. -/
theorem ext2FreeBlockCtx_bit {m : Ext2Meta} {d : Vblk} (ctx : AllocCtx) {b : Nat} (h0 : b ≠ 0)
    (hb : b < m.sb.sBlocksCount) (hg : b / m.sb.sBlocksPerGroup < m.groupCount)
    (hread : ctx.loaded (b / m.sb.sBlocksPerGroup) = true ∨
      ((m.gd (b / m.sb.sBlocksPerGroup)).bgBlockBitmap + 1) * m.blockSize ≤ d.limit) :
    ∃ m' ctx', ext2FreeBlockCtx d m ctx b = .ok (m', ctx') ∧
      ∀ g i, (ctx'.bitmapOf d m g).bit i = ((ctx.bitmapOf d m g).bit i &&
        !decide (g = b / m.sb.sBlocksPerGroup ∧ i = b % m.sb.sBlocksPerGroup)) := by
  generalize hq : b / m.sb.sBlocksPerGroup = q at *
  generalize hr : b % m.sb.sBlocksPerGroup = r
  obtain ⟨ctx₁, hctx₁, hl₁, -, -, -, hsame⟩ := ctx.load_ok hread
  have hnot : ¬ (b = 0 ∨ m.sb.sBlocksCount ≤ b) := by omega
  have hpre : ext2FreeBlockCtx d m ctx b =
      if (ctx₁.bitmaps q).bit r then
        .ok (m.giveBlock q,
          { ctx₁ with
            bitmaps := Function.update ctx₁.bitmaps q ((ctx₁.bitmaps q).clearBit r)
            dirty := Function.update ctx₁.dirty q true })
      else .ok (m, ctx₁) := by
    unfold ext2FreeBlockCtx
    dsimp only []
    rw [check_of_not hnot, hq, hr, check_of_not (show ¬ m.groupCount ≤ q by omega), hctx₁]
    rfl
  rw [hpre]
  have hself : ctx.bitmapOf d m q = ctx₁.bitmaps q := by
    rw [← hsame, AllocCtx.bitmapOf, if_pos hl₁]
  by_cases hbit : (ctx₁.bitmaps q).bit r = true
  · rw [if_pos hbit]
    refine ⟨_, _, rfl, fun g i => ?_⟩
    by_cases hgq : g = q
    · subst hgq
      rw [hself, AllocCtx.bitmapOf, if_pos hl₁]
      dsimp only []
      rw [Function.update_self, Mem.bit_clearBit]
      by_cases hir : r = i
      · simp [hir]
      · simp [hir, Ne.symm hir]
    · have : decide (g = q ∧ i = r) = false := decide_eq_false (fun h => hgq h.1)
      rw [this, ← hsame, AllocCtx.bitmapOf, AllocCtx.bitmapOf]
      dsimp only []
      rw [Function.update_of_ne hgq, Bool.not_false, Bool.and_true]
  · rw [if_neg hbit]
    refine ⟨_, _, rfl, fun g i => ?_⟩
    rw [hsame]
    by_cases hh : g = q ∧ i = r
    · rw [hh.1, hh.2, hself]
      simpa using hbit
    · simp [hh]

/-! ## Where they agree -/

section Agree

variable {d : Vblk} {m : Ext2Meta} {q : FsckGeometry}

/-- The checker and `ext2_load_meta` read the same geometry. -/
theorem geometry_of_load (hload : ext2LoadMeta d = .ok m)
    (hq : q = fsckGeometry (d.bytes.slice 1024 1024)) (hlog : d.bytes.rd32 1048 ≤ 2) :
    m.sb.sFirstDataBlock = q.first ∧ m.sb.sBlocksCount = q.blocks ∧ m.sb.sBlocksPerGroup = q.bpg ∧
      m.blockSize = q.bs := by
  have hsb := sb_of_load hload
  have hslice : ∀ o, o + 4 ≤ 1024 → (d.bytes.slice 1024 1024).rd32 o = d.bytes.rd32 (1024 + o) :=
    fun o ho => Mem.rd32_slice ho
  have hfield : ∀ o, o + 4 ≤ 88 → m.sb.rd32 o = d.bytes.rd32 (1024 + o) := by
    intro o ho
    rw [hsb]
    exact loadedSb_rd32 d (Or.inl ho) (by omega)
  have hfields : ∀ o, o + 4 ≤ 88 → m.sb.rd32 o = (d.bytes.slice 1024 1024).rd32 o := by
    intro o ho
    rw [hfield o ho, hslice o (by omega)]
  rw [hq]
  have hle : m.sb.sLogBlockSize ≤ 2 := by
    have : m.sb.sLogBlockSize = d.bytes.rd32 1048 := hfield 24 (by omega)
    omega
  refine ⟨hfields 20 (by omega), hfields 4 (by omega), hfields 32 (by omega), ?_⟩
  rw [(loaded_of_ok hload hle).blockSize]
  show 1024 * 2 ^ m.sb.rd32 24 = 1024 * 2 ^ (d.bytes.slice 1024 1024).rd32 24
  rw [hfields 24 (by omega)]

/-- The group of a block, without the first data block, is one that was loaded. -/
theorem group_of_load (hload : ext2LoadMeta d = .ok m) {b : Nat} (hb : b < m.sb.sBlocksCount) :
    b / m.sb.sBlocksPerGroup < m.groupCount := by
  have hpos := (checked_of_load hload).groupCount
  have hbpg := (checked_of_load hload).blocksPerGroup
  have hlt : m.sb.sBlocksCount < uint32 := Mem.rd32_lt _ _
  have hperlt : m.sb.sBlocksPerGroup < uint32 := Mem.rd32_lt _ _
  have hcount : m.groupCount =
      (m.sb.sBlocksCount + m.sb.sBlocksPerGroup - 1) % uint32 / m.sb.sBlocksPerGroup := by
    rw [meta_of_load hload]
    rfl
  rw [hcount] at hpos ⊢
  generalize m.sb.sBlocksCount = n at *
  generalize m.sb.sBlocksPerGroup = per at *
  -- a sum that wraps leaves less than one group
  have hsum : (n + per - 1) % uint32 = n + per - 1 := by
    apply Nat.mod_eq_of_lt
    by_contra hge
    have hwrap : (n + per - 1) % uint32 < per := by
      rw [Nat.mod_eq_sub_mod (by omega), Nat.mod_eq_of_lt (by omega)]
      omega
    rw [Nat.div_eq_of_lt hwrap] at hpos
    exact absurd hpos (Nat.lt_irrefl 0)
  rw [hsum]
  apply (Nat.le_div_iff_mul_le (Nat.pos_of_ne_zero hbpg)).mpr
  have hdiv := Nat.div_mul_le_self b per
  rw [Nat.succ_mul]
  omega

/-- With 0 for the first data block, the descriptors of the allocator are those of the
checker. -/
theorem desc_of_load (hload : ext2LoadMeta d = .ok m) (hfsck : ext2FsckPhase1 d = 0)
    (hq : q = fsckGeometry (d.bytes.slice 1024 1024)) (h0 : q.first = 0) {g : Nat}
    (hg : g < m.groupCount) : m.gd g = q.descOf d g := by
  have hacc := ext2FsckPhase1_accepted hfsck
  rw [← hq] at hacc
  obtain ⟨hfirst, hblocks, hbpg, hbs⟩ := geometry_of_load hload hq hacc.log
  have hle : m.sb.sLogBlockSize ≤ 2 := by
    have : m.sb.sLogBlockSize = d.bytes.rd32 1048 := by
      rw [sb_of_load hload]
      exact loadedSb_rd32 d (by omega) (by omega)
    have := hacc.log
    omega
  have hloaded := loaded_of_ok hload hle
  -- blocks of 1024 bytes would put the first descriptor onto the superblock
  have hlarge : m.blockSize ≠ 1024 := by
    intro hsmall
    obtain ⟨hpos, hin⟩ := ext2FsckPhase1_inBounds hq hfsck
    have h₀ := hin 0 hpos
    have himap : (q.descOf d 0).bgInodeBitmap = q.blocks := by
      have h₁ : (q.descOf d 0).bgInodeBitmap = d.bytes.rd32 (1024 + 4) := by
        unfold FsckGeometry.descOf
        rw [h0, ← hbs, hsmall]
        exact Mem.rd32_slice (by omega)
      have h₂ : q.blocks = d.bytes.rd32 (1024 + 4) := by
        rw [hq]
        exact Mem.rd32_slice (by omega)
      rw [h₁, h₂]
    unfold groupInBounds at h₀
    rw [decide_eq_true_eq, himap] at h₀
    have hstart : q.start 0 + q.nblk 0 ≤ q.blocks := by
      unfold FsckGeometry.nblk FsckGeometry.start
      omega
    omega
  have hblk : m.gdtBlk = 1 := by
    rw [hloaded.gdtBlk, if_neg hlarge]
  rw [(hloaded.gd g hg).1, hblk, hbs]
  unfold FsckGeometry.descOf
  rw [h0, Nat.mul_comm g 32]

theorem sameCorrespondence_of_zero (hload : ext2LoadMeta d = .ok m) (hfsck : ext2FsckPhase1 d = 0)
    (hq : q = fsckGeometry (d.bytes.slice 1024 1024)) (h0 : m.sb.sFirstDataBlock = 0) :
    SameCorrespondence d m q := by
  have hacc := ext2FsckPhase1_accepted hfsck
  rw [← hq] at hacc
  obtain ⟨hfirst, hblocks, hbpg, hbs⟩ := geometry_of_load hload hq hacc.log
  have hq0 : q.first = 0 := by omega
  have hgroup : ∀ b, q.groupOf b = b / m.sb.sBlocksPerGroup := by
    intro b
    rw [FsckGeometry.groupOf, hq0, hbpg, Nat.sub_zero]
  have hbit : ∀ b, q.bitOf b = b % m.sb.sBlocksPerGroup := by
    intro b
    rw [FsckGeometry.bitOf, hq0, hbpg, Nat.sub_zero]
  constructor
  · intro b m' d' halloc
    obtain ⟨g, i, -, hg, hi, hclear, rfl⟩ := allocBlockFrom_bit halloc
    rw [Nat.zero_add] at hg
    unfold ext2GroupBlockCount at hi
    have hdiv : (g * m.sb.sBlocksPerGroup + i) / m.sb.sBlocksPerGroup = g := by
      rw [Nat.mul_comm, Nat.mul_add_div (by omega), Nat.div_eq_of_lt (by omega), Nat.add_zero]
    have hmod : (g * m.sb.sBlocksPerGroup + i) % m.sb.sBlocksPerGroup = i := by
      rw [Nat.mul_comm, Nat.mul_add_mod, Nat.mod_eq_of_lt (by omega)]
    refine ⟨by omega, by omega, ?_⟩
    unfold FsckGeometry.blockBit
    rw [hgroup, hbit, hdiv, hmod, ← desc_of_load hload hfsck hq hq0 hg, ← hbs]
    exact hclear
  · intro ctx b _ hb hne
    rw [hgroup, hbit]
    rw [← hblocks] at hb
    have hg := group_of_load hload hb
    refine ext2FreeBlockCtx_bit ctx hne hb hg (Or.inr ?_)
    -- the bitmap block lies in its group, and the group on the device
    have hlt := @FsckGeometry.groupOf_lt q b hacc.bpg.1 (by omega) (by omega)
    have hin := (ext2FsckPhase1_inBounds hq hfsck).2 _ hlt.1
    rw [hgroup, ← desc_of_load hload hfsck hq hq0 hg] at hin
    unfold groupInBounds FsckGeometry.nblk at hin
    rw [decide_eq_true_eq] at hin
    have hmap : (m.gd (b / m.sb.sBlocksPerGroup)).bgBlockBitmap + 1 ≤ q.blocks := by omega
    calc ((m.gd (b / m.sb.sBlocksPerGroup)).bgBlockBitmap + 1) * m.blockSize
        ≤ q.blocks * m.blockSize := Nat.mul_le_mul_right _ hmap
      _ = q.blocks * q.bs := by rw [hbs]
      _ ≤ d.limit := hacc.limit

/-- A context in which every bitmap is loaded and every bit is set. -/
def AllocCtx.full : AllocCtx :=
  ⟨fun _ _ => 255, fun _ => 0, fun _ => true, fun _ => false⟩

/-- Where the first data block is not 0, freeing it leaves its bit set. -/
theorem not_sameCorrespondence (hload : ext2LoadMeta d = .ok m) (hfsck : ext2FsckPhase1 d = 0)
    (hq : q = fsckGeometry (d.bytes.slice 1024 1024)) (h0 : m.sb.sFirstDataBlock ≠ 0) :
    ¬ SameCorrespondence d m q := by
  intro hsame
  have hacc := ext2FsckPhase1_accepted hfsck
  rw [← hq] at hacc
  obtain ⟨hfirst, hblocks, hbpg, hbs⟩ := geometry_of_load hload hq hacc.log
  have hfirstlt := hacc.first
  have hb : q.first < m.sb.sBlocksCount := by omega
  obtain ⟨m₁, ctx₁, hfree₁, hbits₁⟩ := hsame.free AllocCtx.full q.first (le_refl _) hfirstlt (by omega)
  obtain ⟨m₂, ctx₂, hfree₂, hbits₂⟩ := ext2FreeBlockCtx_bit (d := d) AllocCtx.full
    (show q.first ≠ 0 by omega) hb (group_of_load hload hb) (Or.inl rfl)
  obtain ⟨rfl, rfl⟩ : m₁ = m₂ ∧ ctx₁ = ctx₂ := by
    rw [hfree₁] at hfree₂
    cases hfree₂
    exact ⟨rfl, rfl⟩
  have hgroup : q.groupOf q.first = 0 := by
    rw [FsckGeometry.groupOf, Nat.sub_self, Nat.zero_div]
  have hbit : q.bitOf q.first = 0 := by
    rw [FsckGeometry.bitOf, Nat.sub_self, Nat.zero_mod]
  have hone : (AllocCtx.full.bitmapOf d m 0).bit 0 = true := by
    show Mem.bit (fun _ => 255) 0 = true
    decide
  have hclear := hbits₁ 0 0
  have hkeep := hbits₂ 0 0
  rw [hgroup, hbit, hone] at hclear
  rw [hone, hclear] at hkeep
  have hzero : q.first / m.sb.sBlocksPerGroup = 0 ∧ q.first % m.sb.sBlocksPerGroup = 0 := by
    by_contra hnz
    have : ¬ (0 = q.first / m.sb.sBlocksPerGroup ∧ 0 = q.first % m.sb.sBlocksPerGroup) :=
      fun h => hnz ⟨h.1.symm, h.2.symm⟩
    rw [decide_eq_false this] at hkeep
    cases hkeep
  have hdiv := Nat.div_add_mod q.first m.sb.sBlocksPerGroup
  rw [hzero.1, hzero.2] at hdiv
  omega

/-- On a filesystem that loads and that the checker finds clean, the allocator and the checker
mean the same blocks exactly when the first data block is 0. -/
theorem sameCorrespondence_iff (hload : ext2LoadMeta d = .ok m) (hfsck : ext2FsckPhase1 d = 0) :
    SameCorrespondence d m (fsckGeometry (d.bytes.slice 1024 1024)) ↔ m.sb.sFirstDataBlock = 0 := by
  constructor
  · intro hsame
    by_contra h0
    exact not_sameCorrespondence hload hfsck rfl h0 hsame
  · exact sameCorrespondence_of_zero hload hfsck rfl

end Agree

/-! ## Two small filesystems -/

theorem emptyFs_accepted : ext2FsckPhase1 emptyFs = 0 := by decide +kernel

/-- The allocator means the same blocks as the checker there. -/
theorem sameCorrespondence_empty : ext2FsckPhase1 emptyFs = 0 ∧ ∃ m, ext2LoadMeta emptyFs = .ok m ∧
    SameCorrespondence emptyFs m (fsckGeometry (emptyFs.bytes.slice 1024 1024)) := by
  have heval : ∃ m, ext2LoadMeta emptyFs = .ok m ∧ decide (m.sb.sFirstDataBlock = 0) = true :=
    exists_ok_of_eval (by decide +kernel)
  obtain ⟨m, hload, hm⟩ := heval
  exact ⟨emptyFs_accepted, m, hload,
    (sameCorrespondence_iff hload emptyFs_accepted).mpr (of_decide_eq_true hm)⟩

/-- With blocks of 1024 bytes, freeing block 3 in a fresh context clears the bit of block 4
and leaves that of block 3 set. -/
theorem freed_neighbour : ext2FsckPhase1 nestedFs = 0 ∧ ∃ m, ext2LoadMeta nestedFs = .ok m ∧
    (ext2FreeBlockCtx nestedFs m AllocCtx.init 3).toOption.map (fun r =>
      ((r.2.bitmaps 0).bit 2, (r.2.bitmaps 0).bit 3)) = some (true, false) ∧
    nestedGeometry.bitOf 3 = 2 ∧ nestedGeometry.bitOf 4 = 3 ∧
    nestedGeometry.blockBit nestedFs 3 = true ∧ nestedGeometry.blockBit nestedFs 4 = true ∧
    ¬ SameCorrespondence nestedFs m (fsckGeometry (nestedFs.bytes.slice 1024 1024)) := by
  have heval : ∃ m, ext2LoadMeta nestedFs = .ok m ∧ decide (m.sb.sFirstDataBlock = 1 ∧
      (ext2FreeBlockCtx nestedFs m AllocCtx.init 3).toOption.map (fun r =>
        ((r.2.bitmaps 0).bit 2, (r.2.bitmaps 0).bit 3)) = some (true, false)) = true :=
    exists_ok_of_eval (by decide +kernel)
  obtain ⟨m, hload, hm⟩ := heval
  obtain ⟨hfirst, hfree⟩ := of_decide_eq_true hm
  refine ⟨nestedFs_accepted, m, hload, hfree, by decide, by decide, by decide +kernel,
    by decide +kernel, ?_⟩
  exact not_sameCorrespondence hload nestedFs_accepted rfl (by omega)

end Guppy.Ext2
