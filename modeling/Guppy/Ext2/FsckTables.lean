import Guppy.Ext2.Fsck

set_option autoImplicit false

/-! # What an accepted filesystem has

The checker only counts up, except that an unreadable inode sets the count of its group back to
one more than it was before the group. So a count of zero at the end means that no check failed
on the way: among others, the inode table of every group lies inside its group.
-/

namespace Guppy.Ext2

theorem readat_some {d : Vblk} {off len : Nat} {p : Mem} (h : readat d off len = some p) :
    p = d.bytes.slice off len := by
  unfold readat preadBytesAt at h
  split at h
  · cases h
  · exact (Option.some.inj h).symm

/-! ## Errors are not forgotten -/

/-- A later state of the checker: no error is forgotten, and what it knows about the blocks
stays. -/
structure Extends (c c' : Checked) : Prop where
  errors : c.2 ≤ c'.2
  count : c'.1.count = c.1.count
  blockSize : c'.1.blockSize = c.1.blockSize
  allocated : c'.1.allocated = c.1.allocated

theorem Extends.refl (c : Checked) : Extends c c := ⟨le_refl _, rfl, rfl, rfl⟩

theorem Extends.trans {c c' c'' : Checked} (h : Extends c c') (h' : Extends c' c'') :
    Extends c c'' where
  errors := le_trans h.errors h'.errors
  count := h'.count.trans h.count
  blockSize := h'.blockSize.trans h.blockSize
  allocated := h'.allocated.trans h.allocated

theorem extends_fail (c : Checked) : Extends c c.fail := ⟨Nat.le_succ c.2, rfl, rfl, rfl⟩

theorem extends_foldl {α : Type} {f : Checked → α → Checked} (l : List α)
    (hf : ∀ c x, Extends c (f c x)) : ∀ c : Checked, Extends c (l.foldl f c) := by
  induction l with
  | nil => exact Extends.refl
  | cons x l ih => exact fun c => (hf c x).trans (ih (f c x))

theorem claim_extends (ino block : Nat) (c : Checked) : Extends c (claim ino block c).1 := by
  unfold claim
  split
  · exact extends_fail c
  · have halloc : Extends c (if c.1.allocated block then c else c.fail) := by
      split
      · exact Extends.refl c
      · exact extends_fail c
    generalize (if c.1.allocated block then c else c.fail) = c' at halloc ⊢
    dsimp only []
    split
    · exact halloc.trans (extends_fail c')
    · exact ⟨halloc.errors, halloc.count, halloc.blockSize, halloc.allocated⟩

theorem walkBlock_extends (d : Vblk) (ino depth : Nat) : ∀ (block : Nat) (c : Checked),
    Extends c (walkBlock d ino depth block c) := by
  induction depth with
  | zero =>
      intro block c
      unfold walkBlock
      split
      · exact Extends.refl c
      · exact claim_extends ino block c
  | succ depth ih =>
      intro block c
      unfold walkBlock
      split
      · exact Extends.refl c
      · have hclaim := claim_extends ino block c
        dsimp only []
        split
        · split
          · exact hclaim.trans (extends_fail _)
          · exact hclaim.trans (extends_foldl _ (fun c j => ih _ c) _)
        · exact hclaim

theorem fsckCheckDirect_extends (d : Vblk) (ino : Nat) (inode : Inode) (c : Checked) :
    Extends c (fsckCheckDirect d ino inode c) := by
  unfold fsckCheckDirect
  dsimp only []
  split
  · exact Extends.refl c
  · split
    · exact Extends.refl c
    · exact extends_foldl _ (fun c j => walkBlock_extends d ino _ _ c) c

/-- What is done with the inode number of a record. -/
def countRef (target : Nat) (c : Checked) : Checked :=
  if target = 0 then c
  else if c.1.inodeCount < target ∨ c.1.inodeAllocated (target - 1) = false then c.fail
  else ({ c.1 with
    directoryRefs := Function.update c.1.directoryRefs target (c.1.directoryRefs target + 1) }, c.2)

theorem countRef_extends (target : Nat) (c : Checked) : Extends c (countRef target c) := by
  unfold countRef
  split
  · exact Extends.refl c
  · split
    · exact extends_fail c
    · exact ⟨le_refl _, rfl, rfl, rfl⟩

theorem checkRecords_extends (buf : Mem) (fuel : Nat) : ∀ (pos : Nat) (c : Checked),
    Extends c (checkRecords buf fuel pos c) := by
  induction fuel with
  | zero => exact fun pos c => Extends.refl c
  | succ fuel ih =>
      intro pos c
      unfold checkRecords
      dsimp only []
      split
      · exact Extends.refl c
      · split
        · exact extends_fail c
        · split
          · exact extends_fail c
          · exact (countRef_extends (buf.rd32 pos) c).trans (ih _ _)

theorem fsckCheckDirectory_extends (d : Vblk) (inode : Inode) (c : Checked) :
    Extends c (fsckCheckDirectory d inode c) := by
  unfold fsckCheckDirectory
  refine extends_foldl _ (fun c j => ?_) c
  dsimp only []
  split
  · exact Extends.refl c
  · split
    · exact extends_fail c
    · exact checkRecords_extends _ _ _ c

/-- The state of `checkInode` before it looks at the blocks. -/
def checkHead (ino : Nat) (inode : Inode) (c : Checked) : Checked :=
  let c := if validType (ifmt inode.iMode) then c else c.fail
  let c := if inode.iDtime ≠ 0 then c.fail else c
  let c := if inode.iLinksCount = 0 then c.fail else c
  ({ c.1 with
    inodeLinks := Function.update c.1.inodeLinks ino inode.iLinksCount
    inodeChecked := Function.update c.1.inodeChecked ino true }, c.2)

theorem checkHead_extends (ino : Nat) (inode : Inode) (c : Checked) :
    Extends c (checkHead ino inode c) := by
  have hif : ∀ (p : Prop) [Decidable p] (c : Checked), Extends c (if p then c else c.fail) ∧
      Extends c (if p then c.fail else c) := by
    intro p _ c
    constructor
    · split
      · exact Extends.refl c
      · exact extends_fail c
    · split
      · exact extends_fail c
      · exact Extends.refl c
  have h := ((hif (validType (ifmt inode.iMode) = true) c).1.trans (hif (inode.iDtime ≠ 0) _).2).trans
    (hif (inode.iLinksCount = 0) _).2
  exact ⟨h.errors, h.count, h.blockSize, h.allocated⟩

theorem checkInode_extends (d : Vblk) (ino : Nat) (inode : Inode) (c : Checked) :
    Extends c (checkInode d ino inode c) := by
  have hdirect := (checkHead_extends ino inode c).trans (fsckCheckDirect_extends d ino inode _)
  show Extends c (if ifmt inode.iMode = sIfdir then
    fsckCheckDirectory d inode (fsckCheckDirect d ino inode (checkHead ino inode c))
    else fsckCheckDirect d ino inode (checkHead ino inode c))
  split
  · exact hdirect.trans (fsckCheckDirectory_extends d inode _)
  · exact hdirect

/-- The inodes of a group, counted from the errors before the group. -/
theorem fsckExt2CheckInodes_extends {d : Vblk} {base isz bs table firstNonreserved : Nat}
    {bitmap : Mem} {c₀ : Checked} (count : Nat) : ∀ {i : Nat} {c : Checked}, Extends c₀ c →
      Extends c₀ (fsckExt2CheckInodes d base isz bs table firstNonreserved c₀.2 bitmap count i c) := by
  induction count with
  | zero =>
      intro i c h
      exact h
  | succ count ih =>
      intro i c h
      unfold fsckExt2CheckInodes
      split
      · exact ih h
      · split
        · exact ⟨Nat.le_succ c₀.2, h.count, h.blockSize, h.allocated⟩
        · dsimp only []
          split
          · exact ih h
          · exact ih (h.trans (checkInode_extends d _ _ c))

theorem checkGroup_extends (d : Vblk) (q : FsckGeometry) (gdt : Mem) (t : FsckTotals) (g : Nat) :
    Extends t.checked (checkGroup d q gdt t g).checked := by
  unfold checkGroup
  dsimp only []
  split
  · exact extends_fail t.checked
  · split
    · have h := @fsckExt2CheckInodes_extends d (g * q.ipg) q.isz q.bs
        (GroupDesc.bgInodeTable (gdt.slice (32 * g) 32)) q.firstNonreserved
      exact ⟨le_trans (h _ (Extends.refl _)).errors (Nat.le_add_right _ _), (h _ (Extends.refl _)).count,
        (h _ (Extends.refl _)).blockSize, (h _ (Extends.refl _)).allocated⟩
    · exact extends_fail t.checked

/-! ## Steps without an error -/

section Zero

variable {d : Vblk} {c : Checked}

/-- Where a fold ends without an error, every step of it did. -/
theorem foldl_zero {α : Type} {f : Checked → α → Checked} {l : List α} {x : α}
    (hf : ∀ c x, Extends c (f c x)) (h : (l.foldl f c).2 = 0) (hx : x ∈ l) :
    ∃ c', Extends c c' ∧ (f c' x).2 = 0 := by
  induction l generalizing c with
  | nil => exact absurd hx List.not_mem_nil
  | cons y l ih =>
      rcases List.mem_cons.mp hx with rfl | hx
      · have hrest := (extends_foldl l hf (f c x)).errors
        rw [List.foldl_cons] at h
        exact ⟨c, Extends.refl c, by omega⟩
      · obtain ⟨c', hext, hzero⟩ := ih h hx
        exact ⟨c', (hf c y).trans hext, hzero⟩

/-- A block whose claim is no error lies in the filesystem and is allocated. -/
theorem claim_zero {ino block : Nat} (h : (claim ino block c).1.2 = 0) :
    block < c.1.count ∧ c.1.allocated block = true := by
  unfold claim at h
  split at h
  · exact absurd h (Nat.succ_ne_zero _)
  · refine ⟨by omega, ?_⟩
    by_contra halloc
    rw [if_neg halloc] at h
    dsimp only [] at h
    split at h
    · exact Nat.succ_ne_zero _ h
    · exact Nat.succ_ne_zero _ h

/-- The direct blocks of a directory lie in the filesystem. -/
theorem fsckCheckDirect_zero {ino : Nat} {inode : Inode} (hdir : ifmt inode.iMode = sIfdir)
    (h : (fsckCheckDirect d ino inode c).2 = 0) {j : Nat} (hj : j < 12) (hne : inode.iBlock j ≠ 0) :
    inode.iBlock j < c.1.count ∧ c.1.allocated (inode.iBlock j) = true := by
  unfold fsckCheckDirect at h
  dsimp only [] at h
  rw [hdir, if_neg (fun hlnk => absurd hlnk.1 (by decide)), if_neg (by decide)] at h
  obtain ⟨c', hext, hzero⟩ := foldl_zero (fun c j => walkBlock_extends d ino _ _ c) h
    (List.mem_range.mpr (show j < 15 by omega))
  rw [if_pos hj, walkBlock, if_neg hne] at hzero
  rw [← hext.count, ← hext.allocated]
  exact claim_zero hzero

theorem fsckExt2CheckInodes_zero {base isz bs table firstNonreserved errors : Nat} {bitmap : Mem}
    {count i : Nat}
    (h : (fsckExt2CheckInodes d base isz bs table firstNonreserved errors bitmap count i c).2 = 0) :
    c.2 = 0 := by
  induction count generalizing i c with
  | zero => exact h
  | succ count ih =>
      unfold fsckExt2CheckInodes at h
      split at h
      · exact ih h
      · split at h
        · exact absurd h (Nat.succ_ne_zero _)
        · dsimp only [] at h
          split at h
          · exact ih h
          · have := ih h
            have := (checkInode_extends d (base + i + 1) ‹Mem› c).errors
            omega

end Zero

/-! ## Inode tables -/

/-- Without an error every group is in bounds. -/
theorem checkGroups_inBounds {d : Vblk} {q : FsckGeometry} {gdt : Mem} (l : List Nat) :
    ∀ {t : FsckTotals}, (l.foldl (checkGroup d q gdt) t).checked.2 = 0 →
      t.checked.2 = 0 ∧ ∀ g ∈ l, groupInBounds q (gdt.slice (32 * g) 32) g = true := by
  induction l with
  | nil =>
      intro t h
      exact ⟨h, by simp⟩
  | cons g l ih =>
      intro t h
      obtain ⟨hnext, hrest⟩ := ih h
      have hmono := (checkGroup_extends d q gdt t g).errors
      refine ⟨by omega, ?_⟩
      intro j hj
      rcases List.mem_cons.mp hj with rfl | hj
      · by_contra hout
        have hout : groupInBounds q (gdt.slice (32 * j) 32) j = false := by simpa using hout
        unfold checkGroup at hnext
        dsimp only [] at hnext
        rw [if_pos hout] at hnext
        exact Nat.succ_ne_zero _ hnext
      · exact hrest j hj

/-- What the checker has established about the geometry and the inode tables. -/
structure Accepted (d : Vblk) (q : FsckGeometry) : Prop where
  limit : q.blocks * q.bs ≤ d.limit
  first : q.first < q.blocks
  bpg : 0 < q.bpg ∧ q.bpg ≤ q.bs * 8
  groups : q.groups ≤ 65535 ∧ (q.inodes + q.ipg - 1) % uint32 / q.ipg ≤ q.groups
  inodes : 0 < q.inodes
  isz : 128 ≤ q.isz
  log : d.bytes.rd32 1048 ≤ 2
  tables : ∀ g, g < q.groups → GroupDesc.bgInodeTable (d.bytes.slice ((q.first + 1) * q.bs + 32 * g) 32) +
    q.itblocks ≤ q.blocks

/-- The groups of an accepted filesystem are in bounds. -/
theorem fsckGroups_inBounds {d : Vblk} {q : FsckGeometry} {freeb freei : Nat}
    (h : fsckGroups d q freeb freei = 0) {g : Nat} (hg : g < q.groups) :
    groupInBounds q (d.bytes.slice ((q.first + 1) * q.bs + 32 * g) 32) g = true := by
  unfold fsckGroups at h
  cases hread : readat d ((q.first + 1) * q.bs) (q.groups * 32) with
  | none =>
      rw [hread] at h
      cases h
  | some gdt =>
      have hgdt : gdt = d.bytes.slice ((q.first + 1) * q.bs) (q.groups * 32) := readat_some hread
      rw [hread] at h
      dsimp only [] at h
      split at h
      · split at h
        · rename_i hzero
          unfold finalErrors at hzero
          have h₁ := (Nat.add_eq_zero_iff.mp (Nat.add_eq_zero_iff.mp hzero).1).1
          have h₂ := (Nat.add_eq_zero_iff.mp (Nat.add_eq_zero_iff.mp h₁).1).1
          obtain ⟨-, hall⟩ := checkGroups_inBounds (List.range q.groups) h₂
          have := hall g (List.mem_range.mpr hg)
          rwa [hgdt, Mem.slice_slice (by omega)] at this
        · cases h
      · cases h

/-- The checks of the geometry, and the groups. -/
theorem ext2FsckPhase1_passed {d : Vblk} {q : FsckGeometry}
    (hq : q = fsckGeometry (d.bytes.slice 1024 1024)) (h : ext2FsckPhase1 d = 0) :
    d.bytes.rd32 1048 ≤ 2 ∧
      ¬ (q.bpg = 0 ∨ q.ipg = 0 ∨ q.blocks = 0 ∨ q.inodes = 0 ∨ q.isz < 128 ∨ 4096 < q.isz ∨
        q.isz &&& (q.isz - 1) ≠ 0) ∧
      ¬ (d.limit < q.blocks * q.bs ∨ q.blocks ≤ q.first ∨ q.bs * 8 < q.bpg ∨ q.bs * 8 < q.ipg) ∧
      ¬ (q.groups = 0 ∨ 65535 < q.groups ∨ q.groups < (q.inodes + q.ipg - 1) % uint32 / q.ipg) ∧
      ∃ freeb freei, fsckGroups d q freeb freei = 0 := by
  unfold ext2FsckPhase1 at h
  cases hread : readat d 1024 1024 with
  | none =>
      rw [hread] at h
      cases h
  | some sb =>
      rw [hread, readat_some hread] at h
      dsimp only [] at h
      rw [← hq] at h
      have hlog : (d.bytes.slice 1024 1024).rd32 24 = d.bytes.rd32 1048 := Mem.rd32_slice (by omega)
      split_ifs at h with h₁ h₂ h₃ h₄ h₅
      exact ⟨by omega, h₃, h₄, h₅, _, _, h⟩

theorem ext2FsckPhase1_accepted {d : Vblk} (h : ext2FsckPhase1 d = 0) :
    Accepted d (fsckGeometry (d.bytes.slice 1024 1024)) := by
  obtain ⟨hlog, h₃, h₄, h₅, _, _, h⟩ := ext2FsckPhase1_passed rfl h
  generalize fsckGeometry (d.bytes.slice 1024 1024) = q at *
  refine ⟨by omega, by omega, by omega, by omega, by omega, by omega, by omega, ?_⟩
  intro g hg
  have hin := fsckGroups_inBounds h hg
  unfold groupInBounds at hin
  rw [decide_eq_true_eq] at hin
  have hblk : q.start g + q.nblk g ≤ q.blocks := by
    have hstart : q.start g < q.blocks := by
      unfold FsckGeometry.groups at hg
      unfold FsckGeometry.start
      have hmul : g * q.bpg + q.bpg ≤ q.blocks - q.first + q.bpg - 1 := by
        rw [← Nat.succ_mul]
        exact (Nat.le_div_iff_mul_le (by omega)).mp hg
      omega
    unfold FsckGeometry.nblk
    omega
  omega

end Guppy.Ext2
