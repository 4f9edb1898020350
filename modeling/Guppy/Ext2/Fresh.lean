import Guppy.Ext2.Format
import Guppy.Ext2.Handle
import Guppy.Ext2.Head

set_option autoImplicit false

/-! # A fresh filesystem

What `mkfs_ext2_core` leaves on the device when it succeeds, block by block (`freshBlock`),
and what the two readers of the superblock make of it. `ext2_load_meta` takes at most 1024
groups, and the formatter makes up to 65535 of them.
-/

namespace Guppy.Ext2

open Prog Vfs

/-! ## After the groups -/

/-- The superblock that is written. -/
def mkfsSb (totalBlocks now : Nat) (label : Text) : Superblock :=
  let t := totalsAfter totalBlocks (mkfsGdtBlocks totalBlocks) (mkfsGroups totalBlocks)
  ((mkfsSuperblock totalBlocks (mkfsGroups totalBlocks) now label).setFreeBlocksCount
    t.freeBlocks).setFreeInodesCount t.freeInodes

/-- The blocks after the copies of the superblock and the descriptors in `count` groups. -/
def copyImage (groups gdtBlocks : Nat) (sb : Superblock) (gdt : Nat → GroupDesc) (f : Nat → Mem)
    (count : Nat) : Nat → Mem := fun b =>
  let g := b / 32768
  let r := b % 32768
  if count ≤ g then f b
  else if r = 0 then (if g = 0 then f b else (f b).write 0 204 (sb.wr16 90 g))
  else if r ≤ gdtBlocks then gdtBuf gdt ((r - 1) * 128, min 128 (groups - (r - 1) * 128))
  else f b

section Copies

variable {groups gdtBlocks : Nat} {sb : Superblock} {gdt : Nat → GroupDesc} {d : Vblk} {f : Nat → Mem}

/-- The blocks of the descriptors in one group. -/
theorem copyGdt_image {base : Nat} (hro : d.ro = false) (hlim : (base + gdtBlocks) * 4096 ≤ d.limit) :
    forLoop (fun k _ => orFail (pwriteBlock 4096 (base + k)
        (gdtBuf gdt (k * 128, min 128 (groups - k * 128))) 4096) (-1)) 0 gdtBlocks () (d.image f)
      = .ok () (d.image (fun b => if base ≤ b ∧ b < base + gdtBlocks then
          gdtBuf gdt ((b - base) * 128, min 128 (groups - (b - base) * 128)) else f b)) := by
  have hloop := forLoop_ok_iff (a := ()) (n := gdtBlocks) (l := 0)
    (s := d.image (fun b => if base ≤ b ∧ b < base + gdtBlocks then
      gdtBuf gdt ((b - base) * 128, min 128 (groups - (b - base) * 128)) else f b))
    (f := fun k (_ : Unit) => orFail (pwriteBlock 4096 (base + k)
      (gdtBuf gdt (k * 128, min 128 (groups - k * 128))) 4096) (-1))
    (fun k => d.ro = false ∧ (base + k + 1) * 4096 ≤ d.limit) (fun _ => ())
    (fun k => d.image (fun b => if base ≤ b ∧ b < base + k then
      gdtBuf gdt ((b - base) * 128, min 128 (groups - (b - base) * 128)) else f b))
    (by
      intro k _ _ _ t
      rw [orFail_ok_iff, pwriteBlock_image]
      refine and_congr_right (fun _ => ?_)
      have hnext : Function.update (fun b => if base ≤ b ∧ b < base + k then
            gdtBuf gdt ((b - base) * 128, min 128 (groups - (b - base) * 128)) else f b)
          (base + k) (gdtBuf gdt (k * 128, min 128 (groups - k * 128)))
          = fun b => if base ≤ b ∧ b < base + (k + 1) then
            gdtBuf gdt ((b - base) * 128, min 128 (groups - (b - base) * 128)) else f b := by
        funext b
        rw [Function.update_apply]
        by_cases hb : b = base + k
        · rw [if_pos hb, if_pos (by omega), hb, Nat.add_sub_cancel_left]
        · rw [if_neg hb]
          exact if_congr (by omega) rfl rfl
      rw [hnext]
      simp)
  have hstart : (fun b => if base ≤ b ∧ b < base + 0 then
      gdtBuf gdt ((b - base) * 128, min 128 (groups - (b - base) * 128)) else f b) = f := by
    funext b
    exact if_neg (by omega)
  rw [hstart, Nat.zero_add] at hloop
  refine hloop.mpr ⟨fun k _ hk => ⟨hro, le_trans (Nat.mul_le_mul_right 4096 ?_) hlim⟩, rfl, rfl⟩
  omega

theorem superblock_end_le (b k : Nat) : b * 4096 + Superblock.size ≤ (b + 1 + k) * 4096 := by
  unfold Superblock.size
  omega

/-- The copies in group `g`. -/
theorem mkfsCopies_image {g : Nat} (hro : d.ro = false) (hrel : gdtBlocks < 32767)
    (hlim : (g * 32768 + 1 + gdtBlocks) * 4096 ≤ d.limit) :
    mkfsCopies groups gdtBlocks sb gdt g (d.image (copyImage groups gdtBlocks sb gdt f g))
      = .ok () (d.image (copyImage groups gdtBlocks sb gdt f (g + 1))) := by
  have hsame : ∀ b, g ≤ b / 32768 → copyImage groups gdtBlocks sb gdt f g b = f b := fun b hb =>
    if_pos hb
  have hfirst : skipIf (g = 0) (orFail (pwriteBlock 4096 (g * blocksPerGroup) (sb.wr16 90 g)
      Superblock.size) (-1)) (d.image (copyImage groups gdtBlocks sb gdt f g))
      = .ok () (d.image (fun b => if b = g * 32768 ∧ g ≠ 0 then (f b).write 0 204 (sb.wr16 90 g)
        else copyImage groups gdtBlocks sb gdt f g b)) := by
    by_cases hg : g = 0
    · rw [skipIf_of hg]
      have hf : (fun b => if b = g * 32768 ∧ g ≠ 0 then (f b).write 0 204 (sb.wr16 90 g)
          else copyImage groups gdtBlocks sb gdt f g b) = copyImage groups gdtBlocks sb gdt f g := by
        funext b
        exact if_neg (fun h => h.2 hg)
      rw [hf]
    · rw [skipIf_of_not hg]
      refine orFail_of_ok (pwriteBytesAt_ok_iff.mpr ⟨hro, ?_, ?_⟩)
      · exact le_trans (superblock_end_le _ _) hlim
      · have hput := @image_put d (copyImage groups gdtBlocks sb gdt f g) (g * 32768) 0 204
          (sb.wr16 90 g) (by omega)
        rw [Nat.add_zero] at hput
        refine Eq.trans (congrArg d.image ?_) hput.symm
        funext b
        rw [Function.update_apply]
        by_cases hb : b = g * 32768
        · rw [if_pos ⟨hb, hg⟩, if_pos hb, hsame _ (by omega), hb]
        · rw [if_neg (fun h => hb h.1), if_neg hb]
  unfold mkfsCopies
  rw [bind_of_ok hfirst]
  refine Eq.trans (copyGdt_image hro hlim) (congrArg _ (congrArg d.image ?_))
  funext b
  unfold copyImage blocksPerGroup
  dsimp only []
  by_cases hg : b / 32768 = g
  · -- a block of the group itself
    rw [if_neg (show ¬ g + 1 ≤ b / 32768 by omega), if_pos (show g ≤ b / 32768 by omega)]
    by_cases h0 : b % 32768 = 0
    · rw [if_neg (by omega), if_pos h0, hg]
      by_cases hg0 : g = 0
      · rw [if_neg (fun h => h.2 hg0), if_pos hg0]
      · rw [if_pos ⟨by omega, hg0⟩, if_neg hg0]
    · rw [if_neg h0, if_neg (show ¬ (b = g * 32768 ∧ g ≠ 0) by omega)]
      by_cases hr : b % 32768 ≤ gdtBlocks
      · rw [if_pos (by omega), if_pos hr, show b - (g * 32768 + 1) = b % 32768 - 1 by omega]
      · rw [if_neg (by omega), if_neg hr]
  · rw [if_neg (by omega), if_neg (by omega)]
    by_cases hlt : g ≤ b / 32768
    · rw [if_pos hlt, if_pos (by omega)]
    · rw [if_neg hlt, if_neg (show ¬ g + 1 ≤ b / 32768 by omega)]

/-- The copies in all groups. -/
theorem mkfsCopies_all (hro : d.ro = false) (hrel : gdtBlocks < 32767)
    (hlim : ∀ g, g < groups → (g * 32768 + 1 + gdtBlocks) * 4096 ≤ d.limit) :
    forLoop (fun g (_ : Unit) => mkfsCopies groups gdtBlocks sb gdt g) 0 groups () (d.image f)
      = .ok () (d.image (copyImage groups gdtBlocks sb gdt f groups)) := by
  have hstart : copyImage groups gdtBlocks sb gdt f 0 = f := by
    funext b
    unfold copyImage
    rw [if_pos (Nat.zero_le _)]
  obtain ⟨u, s, hrun, hs⟩ := forLoop_total (n := groups) (l := 0) (a := ())
    (f := fun g (_ : Unit) => mkfsCopies groups gdtBlocks sb gdt g)
    (fun g _ s => s = d.image (copyImage groups gdtBlocks sb gdt f g))
    (s := d.image f) (by rw [hstart]) (by
      rintro g _ s _ hg rfl
      exact ⟨(), _, mkfsCopies_image hro hrel (hlim g (by omega)), rfl⟩)
  rw [hrun, hs, Nat.zero_add]

end Copies

/-! ## The whole device -/

/-- Block `b` of a fresh filesystem, on a device whose blocks were `f`. -/
def freshBlock (totalBlocks now now' : Nat) (label : Text) (f : Nat → Mem) (b : Nat) : Mem :=
  let groups := mkfsGroups totalBlocks
  let gdtBlocks := mkfsGdtBlocks totalBlocks
  let g := b / 32768
  let r := b % 32768
  if b = dataRel gdtBlocks then newDirBlock 4096 2 2
  else if b = 3 + gdtBlocks then
    Mem.zero.write Inode.size Inode.size (mkfsRootInode now' (dataRel gdtBlocks))
  else if groups ≤ g then f b
  else if r = 0 then
    (if g = 0 then Mem.zero.write 1024 204 (mkfsSb totalBlocks now label)
    else Mem.zero.write 0 204 ((mkfsSb totalBlocks now label).wr16 90 g))
  else if r ≤ gdtBlocks then
    gdtBuf (totalsAfter totalBlocks gdtBlocks groups).gdt
      ((r - 1) * 128, min 128 (groups - (r - 1) * 128))
  else (groupMark totalBlocks gdtBlocks g r).getD (f b)

/-- The blocks that `mkfs_ext2_core` leaves when the loop over the groups left `f`. -/
def finishImage (totalBlocks now' : Nat) (sb : Superblock) (gdt : Nat → GroupDesc) (f : Nat → Mem) :
    Nat → Mem :=
  let table := (gdt 0).bgInodeTable
  Function.update (Function.update
    (copyImage (mkfsGroups totalBlocks) (mkfsGdtBlocks totalBlocks) sb gdt
      (Function.update f 0 ((f 0).write 1024 204 sb)) (mkfsGroups totalBlocks))
    table (Mem.zero.write Inode.size Inode.size (mkfsRootInode now' (table + inodeTblBlocks))))
    (table + inodeTblBlocks) (newDirBlock 4096 2 2)

section Fresh

variable {totalBlocks now : Nat} {label : Text} {d : Vblk} {f : Nat → Mem}

theorem image_tick (d : Vblk) (f : Nat → Mem) : (d.image f).tick = d.tick.image f := rfl

/-- After the loop over the groups nothing goes wrong any more, as long as the device takes
the blocks of metadata. -/
theorem mkfsFinish_image {t : MkfsTotals} {sb : Superblock}
    (hsb : ((mkfsSuperblock totalBlocks (mkfsGroups totalBlocks) now label).setFreeBlocksCount
      t.freeBlocks).setFreeInodesCount t.freeInodes = sb)
    (hro : d.ro = false) (hrel : mkfsGdtBlocks totalBlocks < 32767)
    (hlim : ∀ g, g < mkfsGroups totalBlocks →
      (g * 32768 + 1 + mkfsGdtBlocks totalBlocks) * 4096 ≤ d.limit)
    (hroot : ((t.gdt 0).bgInodeTable + inodeTblBlocks + 1) * 4096 ≤ d.limit) :
    mkfsFinish totalBlocks now label t (d.image f)
      = .ok () (d.tick.image (finishImage totalBlocks (d.clock 0 % uint32) sb t.gdt f)) := by
  have hfirst : pwriteBytesAt 1024 sb Superblock.size (d.image f)
      = .ok () (d.image (Function.update f 0 ((f 0).write 1024 204 sb))) := by
    refine pwriteBytesAt_ok_iff.mpr ⟨hro, ?_, ?_⟩
    · refine le_trans ?_ hroot
      unfold Superblock.size
      rw [Nat.add_mul]
      exact Nat.le_add_left_of_le (by norm_num)
    · exact (@image_put d f 0 1024 204 sb (by omega)).symm
  have htable : ((t.gdt 0).bgInodeTable + 1) * 4096 ≤ d.limit :=
    le_trans (Nat.mul_le_mul_right 4096 (by omega)) hroot
  unfold mkfsFinish
  dsimp only []
  rw [hsb, bind_of_ok (orFail_of_ok hfirst), bind_of_ok (mkfsCopies_all hro hrel hlim),
    bind_of_ok (timeNull_eq _), image_tick]
  refine bind_ok_iff.mpr ⟨(), _, orFail_of_ok (pwriteBlock_image.mpr ⟨⟨hro, htable⟩, rfl⟩), ?_⟩
  exact orFail_of_ok (pwriteBlock_image.mpr ⟨⟨hro, hroot⟩, rfl⟩)

/-- The whole image, block by block. -/
theorem finishImage_eq {now' : Nat} (hpos : 0 < mkfsGroups totalBlocks)
    (htable : ((totalsAfter totalBlocks (mkfsGdtBlocks totalBlocks) (mkfsGroups totalBlocks)).gdt
      0).bgInodeTable = 3 + mkfsGdtBlocks totalBlocks) :
    finishImage totalBlocks now' (mkfsSb totalBlocks now label)
      (totalsAfter totalBlocks (mkfsGdtBlocks totalBlocks) (mkfsGroups totalBlocks)).gdt
      (groupImage totalBlocks (mkfsGdtBlocks totalBlocks) f (mkfsGroups totalBlocks))
      = freshBlock totalBlocks now now' label f := by
  have hroot : 3 + mkfsGdtBlocks totalBlocks + inodeTblBlocks = dataRel (mkfsGdtBlocks totalBlocks) := by
    rw [dataRel_eq]
    unfold inodeTblBlocks
    omega
  have hrel := dataRel_eq (mkfsGdtBlocks totalBlocks)
  funext b
  unfold finishImage freshBlock
  dsimp only []
  rw [htable, hroot, Function.update_apply, Function.update_apply]
  generalize mkfsSb totalBlocks now label = sb
  refine if_congr Iff.rfl rfl (if_congr Iff.rfl rfl ?_)
  unfold copyImage
  dsimp only []
  by_cases hg : mkfsGroups totalBlocks ≤ b / 32768
  · rw [if_pos hg, if_pos hg, Function.update_of_ne (by omega)]
    unfold groupImage
    rw [if_neg (by omega)]
  · rw [if_neg hg, if_neg hg]
    by_cases hr : b % 32768 = 0
    · rw [if_pos hr, if_pos hr]
      have hzero : groupImage totalBlocks (mkfsGdtBlocks totalBlocks) f (mkfsGroups totalBlocks) b
          = Mem.zero := by
        unfold groupImage groupMark
        rw [if_pos (by omega), if_neg (by omega), if_neg (by omega), if_pos (by omega)]
        rfl
      by_cases h0 : b / 32768 = 0
      · obtain rfl : b = 0 := by omega
        rw [if_pos h0, if_pos h0, Function.update_self, hzero]
      · rw [if_neg h0, if_neg h0, Function.update_of_ne (by omega), hzero]
    · rw [if_neg hr, if_neg hr]
      refine if_congr Iff.rfl rfl ?_
      rw [Function.update_of_ne (by omega)]
      unfold groupImage
      rw [if_pos (by omega)]

/-- `mkfs_ext2_core` succeeds exactly when its checks pass and the device takes the metadata
of every group, and this is what it leaves. -/
theorem mkfsExt2Core_ok_iff {bytes : Nat} {u : Unit} {d' : Vblk} :
    mkfsExt2Core bytes label d = .ok u d' ↔
      ¬ EarlyReject bytes ∧
        (∀ g, g < mkfsGroups (bytes / 4096) →
          GroupFits (bytes / 4096) (mkfsGdtBlocks (bytes / 4096)) d g) ∧
        d' = d.tick.tick.image (freshBlock (bytes / 4096) (d.clock 0 % uint32) (d.clock 1 % uint32)
          label d.block) := by
  by_cases hearly : EarlyReject bytes
  · refine ⟨fun h => ?_, fun h => absurd hearly h.1⟩
    have herr : RejectsGeometry bytes d d := Or.inl ⟨hearly, rfl⟩
    rw [herr.error] at h
    cases h
  · have htotal : bytes / 4096 < uint32 := by
      by_contra hge
      exact hearly (Or.inr (Or.inl (by omega)))
    have hpos : 0 < mkfsGroups (bytes / 4096) := by
      by_contra hzero
      exact hearly (Or.inr (Or.inr (Or.inl (by omega))))
    rw [mkfsExt2Core_of_not_early hearly, tick_image, bind_ok_iff]
    have hfinish : (∀ g, g < mkfsGroups (bytes / 4096) →
        GroupFits (bytes / 4096) (mkfsGdtBlocks (bytes / 4096)) d g) →
        mkfsFinish (bytes / 4096) (d.clock 0 % uint32) label
          (totalsAfter (bytes / 4096) (mkfsGdtBlocks (bytes / 4096)) (mkfsGroups (bytes / 4096)))
          (d.tick.image (groupImage (bytes / 4096) (mkfsGdtBlocks (bytes / 4096)) d.block
            (mkfsGroups (bytes / 4096))))
        = .ok () (d.tick.tick.image (freshBlock (bytes / 4096) (d.clock 0 % uint32)
            (d.clock 1 % uint32) label d.block)) := by
      intro hfits
      have h0 := hfits 0 hpos
      have hrel := dataRel_eq (mkfsGdtBlocks (bytes / 4096))
      have hsmall : dataRel (mkfsGdtBlocks (bytes / 4096)) < 32768 ∧
          dataRel (mkfsGdtBlocks (bytes / 4096)) < bytes / 4096 := by
        have hroom := h0.room
        unfold groupBlocks blocksPerGroup at hroom
        omega
      have htable : ((totalsAfter (bytes / 4096) (mkfsGdtBlocks (bytes / 4096))
          (mkfsGroups (bytes / 4096))).gdt 0).bgInodeTable = 3 + mkfsGdtBlocks (bytes / 4096) := by
        show (if 0 < mkfsGroups (bytes / 4096) then mkfsGroupDesc (bytes / 4096)
          (mkfsGdtBlocks (bytes / 4096)) 0 else Mem.zero).rd32 8 = _
        rw [if_pos hpos]
        refine (mkfsGroupDesc_fields (by omega)).2.2.trans ?_
        omega
      have hsb : ((mkfsSuperblock (bytes / 4096) (mkfsGroups (bytes / 4096)) (d.clock 0 % uint32)
          label).setFreeBlocksCount (totalsAfter (bytes / 4096) (mkfsGdtBlocks (bytes / 4096))
            (mkfsGroups (bytes / 4096))).freeBlocks).setFreeInodesCount (totalsAfter (bytes / 4096)
              (mkfsGdtBlocks (bytes / 4096)) (mkfsGroups (bytes / 4096))).freeInodes
          = mkfsSb (bytes / 4096) (d.clock 0 % uint32) label := rfl
      rw [mkfsFinish_image (d := d.tick) hsb h0.writable (by omega), finishImage_eq hpos htable]
      · rfl
      · exact fun g hg => le_trans (Nat.mul_le_mul_right 4096 (by omega)) (hfits g hg).limit
      · rw [htable]
        refine le_trans (Nat.mul_le_mul_right 4096 ?_) h0.limit
        rw [if_pos rfl, hrel]
        unfold inodeTblBlocks
        omega
    constructor
    · rintro ⟨t, s, hloop, hrest⟩
      obtain ⟨hfits, rfl, rfl⟩ := (mkfsGroups_image htotal).mp hloop
      rw [hfinish (fun g hg => ⟨(hfits g hg).room, (hfits g hg).writable, (hfits g hg).limit⟩)] at hrest
      cases hrest
      exact ⟨hearly, fun g hg => ⟨(hfits g hg).room, (hfits g hg).writable, (hfits g hg).limit⟩, rfl⟩
    · rintro ⟨-, hfits, rfl⟩
      refine ⟨_, _, (mkfsGroups_image htotal).mpr ⟨fun g hg => ?_, rfl, rfl⟩, hfinish hfits⟩
      exact ⟨(hfits g hg).room, (hfits g hg).writable, (hfits g hg).limit⟩

theorem group_end_le {gdtBlocks g : Nat} (h : dataRel gdtBlocks < groupBlocks totalBlocks g) :
    g * 32768 + dataRel gdtBlocks + (if g = 0 then 1 else 0) ≤ totalBlocks := by
  unfold groupBlocks blocksPerGroup at h
  split <;> omega

/-- On a writable device of the size that is asked for, every failure is a rejected
geometry. -/
theorem rejectsGeometry_of_error {bytes : Nat} {e : Int} {d' : Vblk} (hro : d.ro = false)
    (hlim : bytes / 4096 * 4096 ≤ d.limit) (h : mkfsExt2Core bytes label d = .error e d') :
    RejectsGeometry bytes d d' := by
  have hsame : ∀ d₁, RejectsGeometry bytes d d₁ → RejectsGeometry bytes d d' := by
    intro d₁ h₁
    have herr := @RejectsGeometry.error bytes label d d₁ h₁
    rw [h] at herr
    cases herr
    exact h₁
  by_cases hearly : EarlyReject bytes
  · exact hsame d (Or.inl ⟨hearly, rfl⟩)
  · have htotal : bytes / 4096 < uint32 := by
      by_contra hge
      exact hearly (Or.inr (Or.inl (by omega)))
    have hfits : ∀ g, dataRel (mkfsGdtBlocks (bytes / 4096)) < groupBlocks (bytes / 4096) g →
        GroupFits (bytes / 4096) (mkfsGdtBlocks (bytes / 4096)) d.tick g := by
      intro g hroom
      exact ⟨hroom, hro, le_trans (Nat.mul_le_mul_right 4096 (group_end_le hroom)) hlim⟩
    by_cases hall : ∀ g, g < mkfsGroups (bytes / 4096) →
        dataRel (mkfsGdtBlocks (bytes / 4096)) < groupBlocks (bytes / 4096) g
    · -- every group fits, and the formatter succeeds
      have hok := (@mkfsExt2Core_ok_iff label d bytes () _).mpr ⟨hearly, fun g hg =>
        ⟨(hfits g (hall g hg)).room, hro, (hfits g (hall g hg)).limit⟩, rfl⟩
      rw [h] at hok
      cases hok
    · push Not at hall
      obtain ⟨hg, hroom⟩ := Nat.find_spec hall
      have hbefore : ∀ g, g < Nat.find hall →
          GroupFits (bytes / 4096) (mkfsGdtBlocks (bytes / 4096)) d.tick g := by
        intro g hlt
        refine hfits g ?_
        by_contra hsmall
        exact Nat.find_min hall hlt ⟨by omega, by omega⟩
      have hloop := (@mkfsGroups_image (bytes / 4096) (mkfsGdtBlocks (bytes / 4096)) d.tick d.block
        (Nat.find hall) _ _ htotal).mpr ⟨hbefore, rfl, rfl⟩
      rw [← tick_image] at hloop
      exact hsame _ (Or.inr ⟨hearly, Nat.find hall, _, hg, hroom, hloop⟩)

end Fresh

/-! ## Superblock and descriptors -/

/-- The sizes that pass the checks of `mkfs_ext2_core`. -/
structure Formattable (n : Nat) : Prop where
  lt : n + 32767 < uint32
  pos : 0 < groupsOf n
  le : groupsOf n ≤ 65535
  room : ∀ g, g < groupsOf n → dataStart n < groupBlocks n g

section Head

variable {n now : Nat} {label : Text}

theorem mkfsGroups_eq (h : n + 32767 < uint32) : mkfsGroups n = groupsOf n := by
  unfold uint32 at h
  unfold mkfsGroups groupsOf blocksPerGroup uint32
  omega

theorem Formattable.groups (h : Formattable n) : mkfsGroups n = groupsOf n := mkfsGroups_eq h.lt

theorem Formattable.gdtBlocks (h : Formattable n) : mkfsGdtBlocks n = gdtBlocksOf n := by
  unfold mkfsGdtBlocks gdtBlocksOf
  rw [h.groups]

theorem Formattable.geometry (h : Formattable n) (hle : groupsOf n ≤ 1024) : Geometry n :=
  ⟨h.pos, hle, h.room⟩

theorem Formattable.group_end (h : Formattable n) {g : Nat} (hg : g < groupsOf n) :
    g * 32768 + gdtBlocksOf n + 35 < n ∧ gdtBlocksOf n + 35 < 32768 := by
  have hroom := h.room g hg
  unfold dataStart groupBlocks blocksPerGroup at hroom
  omega

theorem mkfsSb_fits (h : Formattable n) :
    HeadFits n (mkfsSb n now label) (mkfsGroupDesc n (gdtBlocksOf n)) := by
  have hlt := h.lt
  have hle := h.le
  have hdesc := fun g hg => @mkfsGroupDesc_fields n (gdtBlocksOf n) g (by
    have := (h.group_end (g := g) hg).1
    unfold uint32 at hlt ⊢
    omega)
  unfold uint32 at hlt
  unfold mkfsSb mkfsSuperblock
  rw [h.groups]
  dsimp only []
  generalize (totalsAfter n (mkfsGdtBlocks n) (groupsOf n)) = t
  unfold Superblock.setFreeInodesCount Superblock.setFreeBlocksCount Mem.wr32 Mem.wr16
  have hlabel : min 15 label.length ≤ 15 := Nat.min_le_left _ _
  generalize min 15 label.length = len at hlabel
  refine ⟨?_, ?_, ?_, ?_, ?_, ?_, ?_, ?_, ?_, ?_, ?_, ?_, ?_, ?_⟩
  · unfold Superblock.sInodesCount inodesOf inodesPerGroup
    simp (disch := omega) only [Mem.rd32_write_out, Mem.rd32_write_in, Nat.sub_self, Mem.rd32_le]
    omega
  · unfold Superblock.sBlocksCount
    simp (disch := omega) only [Mem.rd32_write_out, Mem.rd32_write_in, Nat.sub_self, Mem.rd32_le]
    omega
  · unfold Superblock.sFirstDataBlock
    simp (disch := omega) only [Mem.rd32_write_out, Mem.rd32_zero]
  · unfold Superblock.sLogBlockSize
    simp (disch := omega) only [Mem.rd32_write_out, Mem.rd32_write_in, Nat.sub_self, Mem.rd32_le]
  · unfold Superblock.sBlocksPerGroup blocksPerGroup
    simp (disch := omega) only [Mem.rd32_write_out, Mem.rd32_write_in, Nat.sub_self, Mem.rd32_le]
  · unfold Superblock.sInodesPerGroup inodesPerGroup
    simp (disch := omega) only [Mem.rd32_write_out, Mem.rd32_write_in, Nat.sub_self, Mem.rd32_le]
  · unfold Superblock.sMagic
    simp (disch := omega) only [Mem.rd16_write_out, Mem.rd16_write_in, Nat.sub_self, Mem.rd16_le]
  · unfold Superblock.sRevLevel
    simp (disch := omega) only [Mem.rd32_write_out, Mem.rd32_write_in, Nat.sub_self, Mem.rd32_le]
  · unfold Superblock.sFirstIno
    simp (disch := omega) only [Mem.rd32_write_out, Mem.rd32_write_in, Nat.sub_self, Mem.rd32_le]
  · unfold Superblock.sInodeSize Inode.size
    simp (disch := omega) only [Mem.rd16_write_out, Mem.rd16_write_in, Nat.sub_self, Mem.rd16_le]
  · unfold Superblock.sFeatureRoCompat
    simp (disch := omega) only [Mem.rd32_write_out, Mem.rd32_zero]
  · intro g hg
    rw [(hdesc g hg).1]
    unfold bbBlk
    omega
  · intro g hg
    rw [(hdesc g hg).2.1]
    unfold ibBlk
    omega
  · intro g hg
    rw [(hdesc g hg).2.2]
    unfold itBlk
    omega

end Head

section Blocks

variable {n now now' : Nat} {label : Text} {d : Vblk} {f : Nat → Mem}

theorem freshBlock_zero (h : Formattable n) :
    freshBlock n now now' label f 0 = Mem.zero.write 1024 204 (mkfsSb n now label) := by
  have hpos := h.pos
  unfold freshBlock
  dsimp only []
  rw [h.groups, dataRel_eq, if_neg (by omega), if_neg (by omega), if_neg (by omega), if_pos rfl, if_pos rfl]

theorem freshBlock_gdt (h : Formattable n) {k : Nat} (hk : k < gdtBlocksOf n) :
    freshBlock n now now' label f (1 + k) = gdtBuf (totalsAfter n (gdtBlocksOf n) (groupsOf n)).gdt
      (k * 128, min 128 (groupsOf n - k * 128)) := by
  have hpos := h.pos
  have hend := h.group_end h.pos
  unfold freshBlock
  dsimp only []
  rw [h.groups, h.gdtBlocks, dataRel_eq, if_neg (by omega), if_neg (by omega), if_neg (by omega), if_neg (by omega), if_pos (by omega),
    show (1 + k) % 32768 - 1 = k by omega]

theorem freshBlock_table (h : Formattable n) :
    freshBlock n now now' label f (3 + gdtBlocksOf n)
      = Mem.zero.write 128 128 (mkfsRootInode now' (gdtBlocksOf n + 35)) := by
  unfold freshBlock
  dsimp only []
  rw [h.gdtBlocks, dataRel_eq, if_neg (by omega), if_pos rfl]
  rfl

theorem freshBlock_root (h : Formattable n) :
    freshBlock n now now' label f (gdtBlocksOf n + 35) = newDirBlock 4096 2 2 := by
  unfold freshBlock
  dsimp only []
  rw [h.gdtBlocks, dataRel_eq, if_pos rfl]

theorem freshBlock_mark (h : Formattable n) {b : Nat} (hg : b / 32768 < groupsOf n)
    (hr : gdtBlocksOf n < b % 32768) (hnot : b ≠ gdtBlocksOf n + 35 ∧ b ≠ 3 + gdtBlocksOf n) :
    freshBlock n now now' label f b
      = (groupMark n (gdtBlocksOf n) (b / 32768) (b % 32768)).getD (f b) := by
  unfold freshBlock
  dsimp only []
  rw [h.groups, h.gdtBlocks, dataRel_eq, if_neg hnot.1, if_neg hnot.2, if_neg (by omega), if_neg (by omega), if_neg (by omega)]

theorem sbOf_fresh (h : Formattable n) :
    sbOf (d.image (freshBlock n now now' label f)) = (mkfsSb n now label).slice 0 204 := by
  rw [sbOf_eq, block_image, freshBlock_zero h, Mem.slice_slice (by omega), Nat.zero_add,
    Mem.slice_write_in (le_refl _) (le_refl _), Nat.sub_self]

theorem gdOf_fresh (h : Formattable n) {g : Nat} (hg : g < groupsOf n) :
    gdOf (d.image (freshBlock n now now' label f)) g
      = (mkfsGroupDesc n (gdtBlocksOf n) g).slice 0 32 := by
  have hcov := gdt_cover n hg
  rw [gdOf_eq, block_image, freshBlock_gdt h (by omega), slice_gdtBuf hg]
  unfold totalsAfter
  dsimp only []
  rw [if_pos hg]

theorem fresh_fits (h : Formattable n) :
    HeadFits n (sbOf (d.image (freshBlock n now now' label f)))
      (gdOf (d.image (freshBlock n now now' label f))) := by
  rw [sbOf_fresh h]
  exact (mkfsSb_fits h).slice.congr (fun g hg => gdOf_fresh h hg)

theorem mkfsGroupDesc_slice (n K g : Nat) : (mkfsGroupDesc n K g).slice 0 32 = mkfsGroupDesc n K g := by
  funext i
  by_cases hi : i < 32
  · rw [Mem.slice_in hi, Nat.zero_add]
  · rw [Mem.slice_out (by omega)]
    unfold mkfsGroupDesc Mem.wr32 Mem.wr16
    rw [Mem.write_out (by omega), Mem.write_out (by omega), Mem.write_out (by omega),
      Mem.write_out (by omega), Mem.write_out (by omega), Mem.write_out (by omega)]
    rfl

/-- `mkfs_ext2_core` only succeeds on sizes that it can format. -/
theorem formattable_of_ok {bytes : Nat} {u : Unit} {d' : Vblk}
    (h : mkfsExt2Core bytes label d = .ok u d') : Formattable (bytes / 4096) := by
  obtain ⟨hearly, hfits, -⟩ := mkfsExt2Core_ok_iff.mp h
  unfold EarlyReject at hearly
  have hlt : bytes / 4096 + 32767 < uint32 := by
    by_contra hge
    -- the sum wraps, and no group is left
    refine hearly (Or.inr ?_)
    by_cases h₂ : uint32 ≤ bytes / 4096
    · exact Or.inl h₂
    · refine Or.inr (Or.inl ?_)
      unfold uint32 at hge h₂
      unfold mkfsGroups blocksPerGroup uint32
      omega
  have hgroups := mkfsGroups_eq hlt
  have hgdt : mkfsGdtBlocks (bytes / 4096) = gdtBlocksOf (bytes / 4096) := by
    unfold mkfsGdtBlocks gdtBlocksOf
    rw [hgroups]
  rw [hgroups] at hearly hfits
  refine ⟨hlt, ?_, ?_, fun g hg => ?_⟩
  · by_contra hzero
    exact hearly (Or.inr (Or.inr (Or.inl (by omega))))
  · by_contra hgt
    exact hearly (Or.inr (Or.inr (Or.inr (by omega))))
  · have := (hfits g hg).room
    rw [hgdt, dataRel_eq] at this
    exact this

end Blocks

end Guppy.Ext2
