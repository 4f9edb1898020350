import Guppy.Ext2.Volume

set_option autoImplicit false

/-! # What `mkfs_ext2_core` leaves on the device

The formatter only writes, so what it leaves is the device with some blocks replaced:
`d.image f` is the device `d` whose block `b` is `f b`. Each part of `mkfs_ext2_core` has one
lemma that says when all its writes succeed and what image it leaves.
-/

namespace Guppy.Ext2

open Prog Vfs

/-! ## Images -/

/-- The device with other blocks. -/
def Vblk.image (d : Vblk) (f : Nat → Mem) : Vblk :=
  { d with bytes := fun off => f (off / 4096) (off % 4096) }

section Image

variable {d : Vblk} {f : Nat → Mem}

theorem image_block (d : Vblk) : d.image d.block = d := by
  have hbytes : (fun off => d.block (off / 4096) (off % 4096)) = d.bytes := by
    funext off
    unfold Vblk.block
    rw [Mem.slice_in (Nat.mod_lt _ (by omega)), Nat.mul_comm, Nat.div_add_mod]
  unfold Vblk.image
  rw [hbytes]

theorem block_image (d : Vblk) (f : Nat → Mem) (b : Nat) : (d.image f).block b = (f b).slice 0 4096 := by
  funext i
  unfold Vblk.block Vblk.image
  by_cases hi : i < 4096
  · rw [Mem.slice_in hi, Mem.slice_in hi, Nat.zero_add]
    show f ((b * 4096 + i) / 4096) ((b * 4096 + i) % 4096) = f b i
    rw [show (b * 4096 + i) / 4096 = b by omega, show (b * 4096 + i) % 4096 = i by omega]
  · rw [Mem.slice_out (by omega), Mem.slice_out (by omega)]

theorem preadBlock_image (f : Nat → Mem) {b : Nat} (h : (b + 1) * 4096 ≤ d.limit) :
    preadBlock (d.image f) 4096 b 4096 = .ok ((f b).slice 0 4096) := by
  rw [← block_image d]
  refine preadBlock_of_le (show b * 4096 + 4096 ≤ d.limit from ?_)
  omega

/-- A write inside one block. -/
theorem image_put (d : Vblk) (f : Nat → Mem) (b : Nat) {o len : Nat} (src : Mem)
    (h : o + len ≤ 4096) :
    (d.image f).put (b * 4096 + o) len src = d.image (Function.update f b ((f b).write o len src)) := by
  unfold Vblk.put Vblk.image
  simp only [Vblk.mk.injEq, and_true, true_and]
  funext i
  by_cases hb : i / 4096 = b
  · rw [hb, Function.update_self]
    by_cases hi : b * 4096 + o ≤ i ∧ i < b * 4096 + o + len
    · rw [Mem.write_in hi.1 hi.2, Mem.write_in (by omega) (by omega)]
      congr 1
      omega
    · rw [Mem.write_out (by omega), Mem.write_out (by omega), hb]
  · rw [Function.update_of_ne hb, Mem.write_out (by omega)]

/-- Two images are the same when their blocks are. -/
theorem image_congr {g : Nat → Mem} (h : ∀ b i, i < 4096 → f b i = g b i) :
    d.image f = d.image g := by
  unfold Vblk.image
  simp only [Vblk.mk.injEq, and_true, true_and]
  funext off
  exact h _ _ (Nat.mod_lt _ (by omega))

/-- Writing a whole block. -/
theorem pwriteBlock_image {b : Nat} {src : Mem} {u : Unit} {s : Vblk} :
    pwriteBlock 4096 b src 4096 (d.image f) = .ok u s ↔
      (d.ro = false ∧ (b + 1) * 4096 ≤ d.limit) ∧ s = d.image (Function.update f b src) := by
  have hput : (d.image f).put (b * 4096) 4096 src = d.image (Function.update f b src) := by
    have := @image_put d f b 0 4096 src (le_refl _)
    rw [Nat.add_zero] at this
    rw [this]
    refine image_congr (fun c i hi => ?_)
    by_cases hc : c = b
    · rw [hc, Function.update_self, Function.update_self, Mem.write_in (Nat.zero_le _) (by omega),
        Nat.sub_zero]
    · rw [Function.update_of_ne hc, Function.update_of_ne hc]
  unfold pwriteBlock
  rw [pwriteBytesAt_ok_iff, hput]
  show d.ro = false ∧ b * 4096 + 4096 ≤ d.limit ∧ _ ↔ _
  rw [show b * 4096 + 4096 = (b + 1) * 4096 by ring, and_assoc]

end Image

/-! ## The groups -/

/-- What the loop over the groups writes to block `r` of group `g`. -/
def groupMark (totalBlocks gdtBlocks g r : Nat) : Option Mem :=
  if r = 1 + gdtBlocks then some (mkfsBlockBitmap totalBlocks gdtBlocks g)
  else if r = 2 + gdtBlocks then some (mkfsInodeBitmap g)
  else if r < dataRel gdtBlocks + (if g = 0 then 1 else 0) then some Mem.zero
  else none

/-- The blocks after the first `count` groups. -/
def groupImage (totalBlocks gdtBlocks : Nat) (f : Nat → Mem) (count : Nat) : Nat → Mem := fun b =>
  if b / 32768 < count then (groupMark totalBlocks gdtBlocks (b / 32768) (b % 32768)).getD (f b)
  else f b

/-- The descriptors and the free counts after the first `count` groups. -/
def totalsAfter (totalBlocks gdtBlocks count : Nat) : MkfsTotals where
  gdt g := if g < count then mkfsGroupDesc totalBlocks gdtBlocks g else Mem.zero
  freeBlocks := ∑ g ∈ Finset.range count, mkfsFreeBlocks totalBlocks gdtBlocks g
  freeInodes := ∑ g ∈ Finset.range count, mkfsFreeInodes g

/-- Group `g` has room for its metadata, and the device takes it. -/
structure GroupFits (totalBlocks gdtBlocks : Nat) (d : Vblk) (g : Nat) : Prop where
  room : dataRel gdtBlocks < groupBlocks totalBlocks g
  writable : d.ro = false
  limit : (g * 32768 + dataRel gdtBlocks + (if g = 0 then 1 else 0)) * 4096 ≤ d.limit

section Groups

variable {totalBlocks gdtBlocks : Nat} {d : Vblk} {f : Nat → Mem}

/-- Clearing `count` blocks from block `base` on. -/
theorem clearBlocks_image {base count : Nat} {u : Unit} {s : Vblk} (hpos : 0 < count) :
    forLoop (fun r _ => orFail (pwriteBlock 4096 (base + r) Mem.zero 4096) (-1)) 0 count ()
      (d.image f) = .ok u s ↔
      (d.ro = false ∧ (base + count) * 4096 ≤ d.limit) ∧
        s = d.image (fun b => if base ≤ b ∧ b < base + count then Mem.zero else f b) := by
  have hloop := forLoop_ok_iff (a := u) (s := s) (n := count) (l := 0)
    (f := fun r (_ : Unit) => orFail (pwriteBlock 4096 (base + r) Mem.zero 4096) (-1))
    (fun r => d.ro = false ∧ (base + r + 1) * 4096 ≤ d.limit) (fun _ => ())
    (fun r => d.image (fun b => if base ≤ b ∧ b < base + r then Mem.zero else f b))
    (by
      intro r _ _ _ t
      rw [orFail_ok_iff, pwriteBlock_image]
      refine and_congr_right (fun _ => ?_)
      have hnext : Function.update (fun b => if base ≤ b ∧ b < base + r then Mem.zero else f b)
          (base + r) Mem.zero = fun b => if base ≤ b ∧ b < base + (r + 1) then Mem.zero else f b := by
        funext b
        rw [Function.update_apply]
        by_cases hb : b = base + r
        · rw [if_pos hb, if_pos (by omega)]
        · rw [if_neg hb]
          exact if_congr (by omega) rfl rfl
      rw [hnext]
      simp)
  have hstart : (fun b => if base ≤ b ∧ b < base + 0 then Mem.zero else f b) = f := by
    funext b
    exact if_neg (by omega)
  rw [hstart] at hloop
  rw [hloop, Nat.zero_add]
  refine ⟨fun h => ⟨⟨(h.1 0 (le_refl _) hpos).1, ?_⟩, h.2.2⟩, fun h => ⟨fun r _ hr => ⟨h.1.1, ?_⟩, rfl, h.2⟩⟩
  · have := (h.1 (count - 1) (Nat.zero_le _) (by omega)).2
    rwa [show base + (count - 1) + 1 = base + count by omega] at this
  · exact le_trans (Nat.mul_le_mul_right _ (by omega)) h.1.2

theorem dataRel_eq (gdtBlocks : Nat) : dataRel gdtBlocks = gdtBlocks + 35 := by
  unfold dataRel inodeTblBlocks
  omega

/-- Where the descriptor of a group of the volume says its parts are. -/
theorem mkfsGroupDesc_fields {g : Nat} (h : g * 32768 + gdtBlocks + 35 < uint32) :
    (mkfsGroupDesc totalBlocks gdtBlocks g).bgBlockBitmap = g * 32768 + (1 + gdtBlocks) ∧
      (mkfsGroupDesc totalBlocks gdtBlocks g).bgInodeBitmap = g * 32768 + (2 + gdtBlocks) ∧
      (mkfsGroupDesc totalBlocks gdtBlocks g).bgInodeTable = g * 32768 + (3 + gdtBlocks) := by
  unfold uint32 at h
  unfold mkfsGroupDesc GroupDesc.bgBlockBitmap GroupDesc.bgInodeBitmap GroupDesc.bgInodeTable
    blocksPerGroup Mem.wr32 Mem.wr16
  dsimp only []
  refine ⟨?_, ?_, ?_⟩
  · simp (disch := omega) only [Mem.rd32_write_out, Mem.rd32_write_in, Nat.sub_self, Mem.rd32_le]
    omega
  · simp (disch := omega) only [Mem.rd32_write_out, Mem.rd32_write_in, Nat.sub_self, Mem.rd32_le]
    omega
  · simp (disch := omega) only [Mem.rd32_write_out, Mem.rd32_write_in, Nat.sub_self, Mem.rd32_le]
    omega

/-- The blocks of group `g` after its iteration. -/
theorem groupImage_succ {g : Nat} (hroom : dataRel gdtBlocks < 32768) :
    Function.update (Function.update
      (fun b => if g * 32768 ≤ b ∧ b < g * 32768 + (dataRel gdtBlocks + (if g = 0 then 1 else 0))
        then Mem.zero else groupImage totalBlocks gdtBlocks f g b)
      (g * 32768 + (1 + gdtBlocks)) (mkfsBlockBitmap totalBlocks gdtBlocks g))
      (g * 32768 + (2 + gdtBlocks)) (mkfsInodeBitmap g)
      = groupImage totalBlocks gdtBlocks f (g + 1) := by
  rw [dataRel_eq] at hroom ⊢
  funext b
  rw [Function.update_apply, Function.update_apply]
  unfold groupImage
  by_cases hg : b / 32768 = g
  · -- a block of the group itself
    rw [if_pos (show b / 32768 < g + 1 by omega), if_neg (show ¬ b / 32768 < g by omega), hg]
    unfold groupMark
    rw [dataRel_eq]
    generalize hk : (if g = 0 then 1 else 0) = k
    by_cases hib : b % 32768 = 2 + gdtBlocks
    · rw [if_pos (by omega), if_neg (by omega), if_pos hib]
      rfl
    · rw [if_neg (by omega), if_neg hib]
      by_cases hbb : b % 32768 = 1 + gdtBlocks
      · rw [if_pos (by omega), if_pos hbb]
        rfl
      · rw [if_neg (by omega), if_neg hbb]
        by_cases hz : b % 32768 < gdtBlocks + 35 + k
        · rw [if_pos (by omega), if_pos hz]
          rfl
        · rw [if_neg (by omega), if_neg hz]
          rfl
  · rw [if_neg (by omega), if_neg (by omega), if_neg (by split <;> omega)]
    exact if_congr (by omega) rfl rfl

theorem totalsAfter_succ (g : Nat) :
    totalsAfter totalBlocks gdtBlocks (g + 1) =
      { gdt := Function.update (totalsAfter totalBlocks gdtBlocks g).gdt g
          (mkfsGroupDesc totalBlocks gdtBlocks g)
        freeBlocks := (totalsAfter totalBlocks gdtBlocks g).freeBlocks +
          mkfsFreeBlocks totalBlocks gdtBlocks g
        freeInodes := (totalsAfter totalBlocks gdtBlocks g).freeInodes + mkfsFreeInodes g } := by
  unfold totalsAfter
  simp only [MkfsTotals.mk.injEq, Finset.sum_range_succ, and_true]
  funext h
  rw [Function.update_apply]
  by_cases hh : h = g
  · rw [if_pos hh, if_pos (by omega), hh]
  · rw [if_neg hh]
    exact if_congr (by omega) rfl rfl

/-- One group. -/
theorem mkfsGroup_image {g : Nat} {t : MkfsTotals} {s : Vblk} (htotal : totalBlocks < uint32) :
    mkfsGroup totalBlocks gdtBlocks g (totalsAfter totalBlocks gdtBlocks g)
      (d.image (groupImage totalBlocks gdtBlocks f g)) = .ok t s ↔
      GroupFits totalBlocks gdtBlocks d g ∧ t = totalsAfter totalBlocks gdtBlocks (g + 1) ∧
        s = d.image (groupImage totalBlocks gdtBlocks f (g + 1)) := by
  unfold mkfsGroup
  rw [bind_ok_iff]
  by_cases hroom : groupBlocks totalBlocks g ≤ dataRel gdtBlocks
  · refine ⟨?_, fun h => absurd h.1.room (by omega)⟩
    rintro ⟨u, s₁, hfail, -⟩
    exact absurd hroom (failIf_ok_iff.mp hfail).1
  · have hsize : g * 32768 + dataRel gdtBlocks < totalBlocks ∧ dataRel gdtBlocks < 32768 := by
      unfold groupBlocks blocksPerGroup at hroom
      omega
    have hrel := dataRel_eq gdtBlocks
    obtain ⟨hbb, hib, -⟩ := @mkfsGroupDesc_fields totalBlocks gdtBlocks g (by omega)
    have hcount : 0 < dataRel gdtBlocks + (if g = 0 then 1 else 0) := by omega
    constructor
    · rintro ⟨u, s₁, hfail, h⟩
      obtain rfl := (failIf_ok_iff.mp hfail).2
      obtain ⟨_, s₂, h₂, h⟩ := bind_ok_iff.mp h
      obtain ⟨hlim, rfl⟩ := (clearBlocks_image hcount).mp h₂
      obtain ⟨_, s₃, h₃, h⟩ := bind_ok_iff.mp h
      obtain ⟨-, rfl⟩ := pwriteBlock_image.mp (orFail_ok_iff.mp h₃)
      obtain ⟨_, s₄, h₄, h⟩ := bind_ok_iff.mp h
      obtain ⟨-, rfl⟩ := pwriteBlock_image.mp (orFail_ok_iff.mp h₄)
      obtain ⟨rfl, rfl⟩ := pure_ok_iff.mp h
      refine ⟨⟨by omega, hlim.1, ?_⟩, (totalsAfter_succ g).symm, ?_⟩
      · rw [Nat.add_assoc]
        exact hlim.2
      · rw [hbb, hib]
        exact congrArg d.image (groupImage_succ hsize.2)
    · rintro ⟨hfits, rfl, rfl⟩
      have hlim := hfits.limit
      rw [Nat.add_assoc] at hlim
      have hin : ∀ r, r ≤ 2 → (g * 32768 + (r + gdtBlocks) + 1) * 4096 ≤ d.limit := by
        intro r hr
        refine le_trans (Nat.mul_le_mul_right 4096 ?_) hlim
        rw [hrel]
        clear hlim hfits
        omega
      refine ⟨(), _, failIf_of_not hroom, bind_ok_iff.mpr ⟨(), _,
        (clearBlocks_image hcount).mpr ⟨⟨hfits.writable, hlim⟩, rfl⟩, ?_⟩⟩
      rw [hbb, hib]
      refine bind_ok_iff.mpr ⟨(), _, orFail_of_ok (pwriteBlock_image.mpr
        ⟨⟨hfits.writable, hin 1 (by omega)⟩, rfl⟩), ?_⟩
      refine bind_ok_iff.mpr ⟨(), _, orFail_of_ok (pwriteBlock_image.mpr
        ⟨⟨hfits.writable, hin 2 (by omega)⟩, rfl⟩), ?_⟩
      exact pure_ok_iff.mpr ⟨totalsAfter_succ g, congrArg d.image (groupImage_succ hsize.2).symm⟩

/-- The groups before group `count`. -/
theorem mkfsGroups_image {count : Nat} {t : MkfsTotals} {s : Vblk} (htotal : totalBlocks < uint32) :
    forLoop (mkfsGroup totalBlocks gdtBlocks) 0 count ⟨fun _ => Mem.zero, 0, 0⟩ (d.image f) = .ok t s ↔
      (∀ g, g < count → GroupFits totalBlocks gdtBlocks d g) ∧
        t = totalsAfter totalBlocks gdtBlocks count ∧
        s = d.image (groupImage totalBlocks gdtBlocks f count) := by
  have hloop := forLoop_ok_iff (a := t) (s := s) (n := count) (l := 0)
    (GroupFits totalBlocks gdtBlocks d) (totalsAfter totalBlocks gdtBlocks)
    (fun g => d.image (groupImage totalBlocks gdtBlocks f g))
    (fun g _ _ b u => mkfsGroup_image (f := f) (t := b) (s := u) htotal)
  have hf : groupImage totalBlocks gdtBlocks f 0 = f := by
    funext b
    exact if_neg (by omega)
  have ht : totalsAfter totalBlocks gdtBlocks 0 = ⟨fun _ => Mem.zero, 0, 0⟩ := by
    unfold totalsAfter
    simp
  rw [hf, ht, Nat.zero_add] at hloop
  rw [hloop]
  simp only [Nat.zero_le, true_imp_iff]

end Groups

/-! ## Geometries that are rejected -/

/-- `groups` of `mkfs_ext2_core`. -/
def mkfsGroups (totalBlocks : Nat) : Nat :=
  (totalBlocks + blocksPerGroup - 1) % uint32 / blocksPerGroup

/-- `gdt_blocks` of `mkfs_ext2_core`. -/
def mkfsGdtBlocks (totalBlocks : Nat) : Nat := (mkfsGroups totalBlocks + 127) / 128

/-- The checks before the loop over the groups: too small, too many blocks, and too many or
no groups. -/
def EarlyReject (bytes : Nat) : Prop :=
  bytes < 65536 ∨ uint32 ≤ bytes / 4096 ∨ mkfsGroups (bytes / 4096) = 0 ∨
    65535 < mkfsGroups (bytes / 4096)

/-- The device after a call of `time(NULL)`. -/
def Vblk.tick (d : Vblk) : Vblk := { d with clock := fun i => d.clock (i + 1) }

/-- `mkfs_ext2_core` stops at one of its checks of the geometry, after writes that all
succeeded, and leaves the device `d'`. -/
def RejectsGeometry (bytes : Nat) (d d' : Vblk) : Prop :=
  EarlyReject bytes ∧ d' = d ∨
    ¬ EarlyReject bytes ∧ ∃ g t, g < mkfsGroups (bytes / 4096) ∧
      groupBlocks (bytes / 4096) g ≤ dataRel (mkfsGdtBlocks (bytes / 4096)) ∧
      forLoop (mkfsGroup (bytes / 4096) (mkfsGdtBlocks (bytes / 4096))) 0 g ⟨fun _ => Mem.zero, 0, 0⟩
        d.tick = .ok t d'

section Reject

variable {bytes : Nat} {label : Text} {d d' : Vblk}

theorem timeNull_eq (d : Vblk) : timeNull d = .ok (d.clock 0 % uint32) d.tick := rfl

/-- What `mkfs_ext2_core` does after the loop over the groups. -/
def mkfsFinish (totalBlocks now : Nat) (label : Text) (t : MkfsTotals) : Prog Vblk Unit := do
  let sb := ((mkfsSuperblock totalBlocks (mkfsGroups totalBlocks) now label).setFreeBlocksCount
    t.freeBlocks).setFreeInodesCount t.freeInodes
  orFail (pwriteBytesAt 1024 sb Superblock.size) (-1)
  forLoop (fun g _ => mkfsCopies (mkfsGroups totalBlocks) (mkfsGdtBlocks totalBlocks) sb t.gdt g) 0
    (mkfsGroups totalBlocks) ()
  let rootDataBlock := (t.gdt 0).bgInodeTable + inodeTblBlocks
  let now ← timeNull
  orFail (pwriteBlock 4096 (t.gdt 0).bgInodeTable
    (Mem.zero.write Inode.size Inode.size (mkfsRootInode now rootDataBlock)) 4096) (-1)
  orFail (pwriteBlock 4096 rootDataBlock (newDirBlock 4096 2 2) 4096) (-1)

/-- Where the checks before the loop pass, `mkfs_ext2_core` is what comes after them. -/
theorem mkfsExt2Core_of_not_early (h : ¬ EarlyReject bytes) :
    mkfsExt2Core bytes label d = (forLoop (mkfsGroup (bytes / 4096) (mkfsGdtBlocks (bytes / 4096))) 0
      (mkfsGroups (bytes / 4096)) ⟨fun _ => Mem.zero, 0, 0⟩ >>=
        mkfsFinish (bytes / 4096) (d.clock 0 % uint32) label) d.tick := by
  unfold EarlyReject mkfsGroups at h
  unfold mkfsExt2Core mkfsFinish mkfsGdtBlocks mkfsGroups
  rw [bind_of_ok (failIf_of_not (fun h' => h (Or.inl h'))),
    bind_of_ok (failIf_of_not (fun h' => h (Or.inr (Or.inl h'))))]
  dsimp only []
  rw [bind_of_ok (failIf_of_not (fun h' => h (Or.inr (Or.inr h')))), bind_of_ok (timeNull_eq d)]

/-- The program does return an error there. -/
theorem RejectsGeometry.error (h : RejectsGeometry bytes d d') :
    mkfsExt2Core bytes label d = .error (-1) d' := by
  rcases h with ⟨hearly, rfl⟩ | ⟨hearly, g, t, hg, hroom, hloop⟩
  · unfold mkfsExt2Core
    by_cases h₁ : bytes < 65536
    · rw [bind_of_error (failIf_of h₁)]
    · rw [bind_of_ok (failIf_of_not h₁)]
      by_cases h₂ : uint32 ≤ bytes / 4096
      · rw [bind_of_error (failIf_of h₂)]
      · rw [bind_of_ok (failIf_of_not h₂)]
        have h₃ : mkfsGroups (bytes / 4096) = 0 ∨ 65535 < mkfsGroups (bytes / 4096) := by
          rcases hearly with h | h | h
          · exact absurd h h₁
          · exact absurd h h₂
          · exact h
        exact bind_of_error (failIf_of h₃)
  · rw [mkfsExt2Core_of_not_early hearly]
    refine bind_of_error (forLoop_error_of hg hloop ?_)
    rw [Nat.zero_add]
    exact bind_of_error (failIf_of hroom)

theorem bytes_eq_iff : d'.bytes = d.bytes ↔ ∀ b, d'.block b = d.block b := by
  refine ⟨fun h b => ?_, fun h => ?_⟩
  · unfold Vblk.block
    rw [h]
  · have hblocks : d'.block = d.block := funext h
    have hd := congrArg Vblk.bytes (image_block d)
    rw [← image_block d', ← hd, hblocks]
    rfl

theorem tick_image (d : Vblk) : d.tick = d.tick.image d.block := (image_block d.tick).symm

theorem mkfsGroups_le (totalBlocks : Nat) :
    mkfsGroups totalBlocks * 32768 < totalBlocks + 32768 ∧ mkfsGroups totalBlocks < 131072 := by
  unfold mkfsGroups blocksPerGroup uint32
  omega

/-- Only the last group can be too small. -/
theorem groupBlocks_of_not_last {totalBlocks g : Nat} (h : g + 1 < mkfsGroups totalBlocks) :
    dataRel (mkfsGdtBlocks totalBlocks) < groupBlocks totalBlocks g := by
  obtain ⟨hle, hlt⟩ := mkfsGroups_le totalBlocks
  rw [dataRel_eq]
  unfold mkfsGdtBlocks groupBlocks blocksPerGroup
  omega

/-- A rejected geometry leaves the device as it is exactly when it is rejected before the
loop over the groups, or the metadata that was written for the groups before the last one is
what the device held there. -/
theorem mkfs_reject_unchanged_iff (label : Text) (h : RejectsGeometry bytes d d') :
    mkfsExt2Core bytes label d = .error (-1) d' ∧
      (d'.bytes = d.bytes ↔ EarlyReject bytes ∨
        ∀ b p, b / 32768 + 1 < mkfsGroups (bytes / 4096) →
          groupMark (bytes / 4096) (mkfsGdtBlocks (bytes / 4096)) (b / 32768) (b % 32768) = some p →
          d.block b = p.slice 0 4096) := by
  refine ⟨h.error, ?_⟩
  rcases h with ⟨hearly, rfl⟩ | ⟨hearly, g, t, hg, hroom, hloop⟩
  · exact ⟨fun _ => Or.inl hearly, fun _ => rfl⟩
  · have htotal : bytes / 4096 < uint32 := by
      by_contra hge
      exact hearly (Or.inr (Or.inl (by omega)))
    rw [tick_image] at hloop
    obtain ⟨-, -, rfl⟩ := (mkfsGroups_image htotal).mp hloop
    -- the group that is too small is the last one
    have hlast : g + 1 = mkfsGroups (bytes / 4096) := by
      by_contra hne
      have := @groupBlocks_of_not_last (bytes / 4096) g (by omega)
      omega
    rw [bytes_eq_iff, or_iff_right hearly]
    refine ⟨fun hsame b p hb hp => ?_, fun hmark b => ?_⟩
    · rw [← hsame b, block_image]
      unfold groupImage
      rw [if_pos (by omega), hp]
      rfl
    · rw [block_image]
      unfold groupImage
      split
      · rename_i hb
        cases hp : groupMark (bytes / 4096) (mkfsGdtBlocks (bytes / 4096)) (b / 32768) (b % 32768) with
        | none => exact Mem.slice_zero_slice ..
        | some p => exact (hmark b p (by omega) hp).symm
      · exact Mem.slice_zero_slice ..

/-- A device of 32769 blocks that holds no zero. -/
def onesDevice : Vblk := ⟨134221824, false, fun _ => 1, fun _ => 0⟩

theorem ones_rejected : ∃ d', RejectsGeometry 134221824 onesDevice d' ∧ d'.bytes 0 = 0 := by
  have hgroups : mkfsGroups (134221824 / 4096) = 2 := by decide
  have hgdt : mkfsGdtBlocks (134221824 / 4096) = 1 := by decide
  have hearly : ¬ EarlyReject 134221824 := by
    unfold EarlyReject
    rw [hgroups]
    decide
  have hfits : ∀ g, g < 1 → GroupFits (134221824 / 4096) 1 onesDevice.tick g := by
    intro g hg
    obtain rfl : g = 0 := by omega
    exact ⟨by decide, rfl, by decide⟩
  refine ⟨onesDevice.tick.image (groupImage (134221824 / 4096) 1 onesDevice.block 1), Or.inr
    ⟨hearly, 1, totalsAfter (134221824 / 4096) 1 1, ?_, ?_, ?_⟩, ?_⟩
  · rw [hgroups]
    omega
  · rw [hgdt]
    decide
  · rw [hgdt, tick_image]
    exact (mkfsGroups_image (by decide)).mpr ⟨hfits, rfl, rfl⟩
  · rfl

/-- The first group is cleared before the second one is found to be too small. -/
theorem mkfs_reject_changes_device :
    ∃ d', RejectsGeometry 134221824 onesDevice d' ∧
      mkfsExt2Core 134221824 [] onesDevice = .error (-1) d' ∧ d'.bytes ≠ onesDevice.bytes := by
  obtain ⟨d', h, hzero⟩ := ones_rejected
  refine ⟨d', h, h.error, fun heq => ?_⟩
  rw [heq] at hzero
  exact absurd hzero (by decide)

/-- A device with a single group that is too small for its metadata is left alone. -/
theorem mkfs_reject_one_group :
    RejectsGeometry 65536 onesDevice onesDevice.tick ∧
      mkfsExt2Core 65536 [] onesDevice = .error (-1) onesDevice.tick ∧
      onesDevice.tick.bytes = onesDevice.bytes := by
  have hreject : RejectsGeometry 65536 onesDevice onesDevice.tick :=
    Or.inr ⟨by unfold EarlyReject; decide, 0, _, by decide, by decide, rfl⟩
  have h := mkfs_reject_unchanged_iff [] hreject
  refine ⟨hreject, h.1, h.2.mpr (Or.inr ?_)⟩
  intro b p hb
  have : mkfsGroups (65536 / 4096) = 1 := by decide
  omega

end Reject

end Guppy.Ext2
