import Guppy.Ext2.Dir
import Guppy.Ext2.FsckTables

set_option autoImplicit false

/-! # What the checker counts

While it looks at the inodes, the checker writes down the link count of each of them, and for each
record of a directory that names an inode it adds one to the references of that inode. Only the
records are counted that lie in the blocks `i_block[0]` to `i_block[11]` of a directory, as far as
its size goes. A run without an error has counted them all (`fsckScan_visits`).
-/

namespace Guppy.Ext2

/-- The inodes that the records of a block name, and zero for each record that names none. -/
def namedIn (bs : Nat) (buf : Mem) : List Nat := (positions bs buf).map (deInode buf)

/-- The inodes that the records of a directory name; other inodes have no records. -/
def namedBy (d : Vblk) (bs : Nat) (inode : Inode) : List Nat :=
  if ifmt inode.iMode = sIfdir then
    ((List.range 12).takeWhile (fun j => j * bs < inode.iSize)).flatMap (fun j =>
      if inode.iBlock j = 0 then [] else namedIn bs (d.bytes.slice (inode.iBlock j * bs) bs))
  else []

/-! ## References -/

/-- A later state of the checker in which the references to the inodes of a list have been added.
Those that are not zero are inodes in use. -/
structure Counts (ns : List Nat) (c c' : Checked) : Prop where
  refs : ∀ t, t ≠ 0 → c'.1.directoryRefs t = c.1.directoryRefs t + ns.count t
  links : c'.1.inodeLinks = c.1.inodeLinks
  checked : c'.1.inodeChecked = c.1.inodeChecked
  inodes : c'.1.inodeCount = c.1.inodeCount
  allocated : c'.1.inodeAllocated = c.1.inodeAllocated
  inUse : ∀ t ∈ ns, t ≠ 0 → t ≤ c.1.inodeCount ∧ c.1.inodeAllocated (t - 1) = true

theorem Counts.refl (c : Checked) : Counts [] c c :=
  ⟨fun _ _ => rfl, rfl, rfl, rfl, rfl, fun _ h => absurd h List.not_mem_nil⟩

theorem Counts.trans {ns ms : List Nat} {c c' c'' : Checked} (h : Counts ns c c') (h' : Counts ms c' c'') :
    Counts (ns ++ ms) c c'' where
  refs := fun t ht => by rw [h'.refs t ht, h.refs t ht, List.count_append, Nat.add_assoc]
  links := h'.links.trans h.links
  checked := h'.checked.trans h.checked
  inodes := h'.inodes.trans h.inodes
  allocated := h'.allocated.trans h.allocated
  inUse := fun t ht hne => (List.mem_append.mp ht).elim (fun ht => h.inUse t ht hne)
    (fun ht => by have := h'.inUse t ht hne; rwa [h.inodes, h.allocated] at this)

theorem counts_fail (c : Checked) : Counts [] c c.fail :=
  ⟨fun _ _ => rfl, rfl, rfl, rfl, rfl, fun _ h => absurd h List.not_mem_nil⟩

theorem counts_ite (p : Prop) [Decidable p] (c : Checked) : Counts [] c (if p then c else c.fail) := by
  split
  · exact Counts.refl c
  · exact counts_fail c

/-- A loop without an error has counted what each of its steps counts. -/
theorem counts_foldl {α : Type} {f : Checked → α → Checked} {ns : α → List Nat} (hext : ∀ c x, Extends c (f c x))
    {c₀ : Checked} {l : List α} : ∀ {c : Checked}, Extends c₀ c →
      (∀ c x, x ∈ l → Extends c₀ c → (f c x).2 = 0 → Counts (ns x) c (f c x)) → (l.foldl f c).2 = 0 →
      Counts (l.flatMap ns) c (l.foldl f c) := by
  induction l with
  | nil => exact fun _ _ _ => Counts.refl _
  | cons x l ih =>
      intro c hc hstep h
      have hle := (extends_foldl l hext (f c x)).errors
      have hx := hstep c x (List.mem_cons_self ..) hc (by
        have : ((x :: l).foldl f c).2 = (l.foldl f (f c x)).2 := rfl
        omega)
      exact hx.trans (ih (hc.trans (hext c x)) (fun c y hy => hstep c y (List.mem_cons_of_mem _ hy)) h)

theorem claim_counts (ino block : Nat) (c : Checked) : Counts [] c (claim ino block c).1 := by
  unfold claim
  split
  · exact counts_fail c
  · have halloc := counts_ite (c.1.allocated block = true) c
    generalize (if c.1.allocated block = true then c else c.fail) = c' at halloc ⊢
    dsimp only []
    split
    · exact halloc.trans (counts_fail c')
    · exact halloc.trans ⟨fun _ _ => rfl, rfl, rfl, rfl, rfl, fun _ h => absurd h List.not_mem_nil⟩

theorem walkBlock_counts (d : Vblk) (ino depth : Nat) : ∀ (block : Nat) (c : Checked),
    Counts [] c (walkBlock d ino depth block c) := by
  have hfold : ∀ {f : Checked → Nat → Checked} (l : List Nat), (∀ c x, Counts [] c (f c x)) →
      ∀ c : Checked, Counts [] c (l.foldl f c) := by
    intro f l hf
    induction l with
    | nil => exact Counts.refl
    | cons x l ih => exact fun c => (hf c x).trans (ih (f c x))
  induction depth with
  | zero =>
      intro block c
      unfold walkBlock
      split
      · exact Counts.refl c
      · exact claim_counts ino block c
  | succ depth ih =>
      intro block c
      unfold walkBlock
      split
      · exact Counts.refl c
      · have hclaim := claim_counts ino block c
        dsimp only []
        split
        · split
          · exact hclaim.trans (counts_fail _)
          · exact hclaim.trans (hfold _ (fun c j => ih _ c) _)
        · exact hclaim

theorem fsckCheckDirect_counts (d : Vblk) (ino : Nat) (inode : Inode) (c : Checked) :
    Counts [] c (fsckCheckDirect d ino inode c) := by
  unfold fsckCheckDirect
  dsimp only []
  split
  · exact Counts.refl c
  · split
    · exact Counts.refl c
    · generalize List.range 15 = l
      induction l generalizing c with
      | nil => exact Counts.refl c
      | cons j l ih => exact (walkBlock_counts d ino _ _ c).trans (ih _)

/-- The number of a record is counted, unless it is zero. -/
theorem countRef_counts {target : Nat} {c : Checked} (h : (countRef target c).2 = 0) :
    Counts [target] c (countRef target c) := by
  unfold countRef at h ⊢
  split
  · rename_i hzero
    refine ⟨fun t ht => ?_, rfl, rfl, rfl, rfl, fun t ht hne => ?_⟩
    · rw [List.count_singleton, if_neg (by simpa using fun he : target = t => ht (he ▸ hzero)), Nat.add_zero]
    · exact absurd (hzero ▸ List.mem_singleton.mp ht) hne
  · rename_i hne
    rw [if_neg hne] at h
    split at h
    · exact absurd h (Nat.succ_ne_zero _)
    · rename_i hvalid
      rw [if_neg hvalid]
      refine ⟨fun t _ => ?_, rfl, rfl, rfl, rfl, fun t ht _ => ?_⟩
      · show Function.update c.1.directoryRefs target (c.1.directoryRefs target + 1) t = _
        rw [Function.update_apply, List.count_singleton]
        by_cases ht : t = target
        · subst ht
          rw [if_pos rfl, if_pos (by simp)]
        · rw [if_neg ht, if_neg (by simpa using fun he => ht he.symm), Nat.add_zero]
      · rw [List.mem_singleton.mp ht]
        simpa using hvalid

/-- One record. -/
theorem checkRecords_succ (buf : Mem) (fuel pos : Nat) (c : Checked) :
    checkRecords buf (fuel + 1) pos c =
      if c.1.blockSize ≤ pos then c
      else if c.1.blockSize < pos + 8 then c.fail
      else if deRecLen buf pos < 8 ∨ deRecLen buf pos % 4 ≠ 0 ∨ c.1.blockSize - pos < deRecLen buf pos ∨
          deRecLen buf pos - 8 < (buf (pos + 6)).toNat then c.fail
      else checkRecords buf fuel (pos + deRecLen buf pos) (countRef (deInode buf pos) c) := by
  rw [checkRecords]
  rfl

/-- The records of a block. -/
theorem checkRecords_counts {buf : Mem} {bs : Nat} (fuel : Nat) : ∀ {pos : Nat} {c : Checked}, c.1.blockSize = bs →
    (checkRecords buf fuel pos c).2 = 0 →
    Counts ((positionsFrom bs buf fuel pos).map (deInode buf)) c (checkRecords buf fuel pos c) := by
  induction fuel with
  | zero => exact fun _ _ => Counts.refl _
  | succ fuel ih =>
      intro pos c hbs h
      rw [checkRecords_succ, hbs] at h ⊢
      unfold positionsFrom
      by_cases hend : bs ≤ pos
      · rw [if_pos hend, if_neg (by omega)]
        exact Counts.refl c
      · rw [if_neg hend] at h ⊢
        by_cases hshort : bs < pos + 8
        · rw [if_pos hshort] at h
          exact absurd h (Nat.succ_ne_zero _)
        · rw [if_neg hshort] at h ⊢
          by_cases hrec : deRecLen buf pos < 8 ∨ deRecLen buf pos % 4 ≠ 0 ∨ bs - pos < deRecLen buf pos ∨
              deRecLen buf pos - 8 < (buf (pos + 6)).toNat
          · rw [if_pos hrec] at h
            exact absurd h (Nat.succ_ne_zero _)
          · rw [if_neg hrec] at h ⊢
            have hrest := checkRecords_extends buf fuel (pos + deRecLen buf pos) (countRef (deInode buf pos) c)
            have hzero : (countRef (deInode buf pos) c).2 = 0 :=
              Nat.le_zero.mp (le_trans hrest.errors (le_of_eq h))
            rw [if_pos (by omega), List.map_cons]
            exact (countRef_counts hzero).trans (ih ((countRef_extends _ c).blockSize.trans hbs) h)

/-- The blocks of a directory, when its direct blocks are in use. -/
theorem fsckCheckDirectory_counts {d : Vblk} {inode : Inode} {bs : Nat} {c : Checked} (hbs : c.1.blockSize = bs)
    (hdir : ifmt inode.iMode = sIfdir) (hin : ∀ j, j < 12 → inode.iBlock j ≠ 0 →
      inode.iBlock j < c.1.count ∧ c.1.allocated (inode.iBlock j) = true)
    (h : (fsckCheckDirectory d inode c).2 = 0) :
    Counts (namedBy d bs inode) c (fsckCheckDirectory d inode c) := by
  unfold namedBy
  rw [if_pos hdir]
  unfold fsckCheckDirectory at h ⊢
  rw [hbs] at h ⊢
  refine counts_foldl (fun c j => ?_) (Extends.refl c) ?_ h
  · dsimp only []
    split
    · exact Extends.refl c
    · split
      · exact extends_fail c
      · exact checkRecords_extends _ _ _ c
  intro c' j hj hext hzero
  have hj : j < 12 := List.mem_range.mp ((List.takeWhile_sublist _).mem hj)
  dsimp only [] at hzero ⊢
  rw [hext.count, hext.allocated, hext.blockSize, hbs] at hzero ⊢
  by_cases hb : inode.iBlock j = 0
  · rw [if_pos (Or.inl hb), if_pos hb]
    exact Counts.refl c'
  · obtain ⟨hlt, hset⟩ := hin j hj hb
    have hok : ¬ (inode.iBlock j = 0 ∨ c.1.count ≤ inode.iBlock j ∨ c.1.allocated (inode.iBlock j) = false) := by
      rw [hset]
      simp only [Bool.true_eq_false, or_false, not_or]
      exact ⟨hb, by omega⟩
    rw [if_neg hok] at hzero ⊢
    rw [if_neg hb]
    split at hzero
    · exact absurd hzero (Nat.succ_ne_zero _)
    · rename_i buf hread
      obtain rfl := readat_some hread
      exact checkRecords_counts bs (hext.blockSize.trans hbs) hzero

/-! ## Inodes -/

/-- A later state of the checker in which the inodes of a list have been looked at: the records of its
directories are counted, and the link counts of all of them are written down. -/
structure Visits (d : Vblk) (bs : Nat) (vs : List (Nat × Inode)) (c c' : Checked) : Prop where
  refs : ∀ t, t ≠ 0 → c'.1.directoryRefs t = c.1.directoryRefs t + (vs.flatMap (fun v => namedBy d bs v.2)).count t
  links : c'.1.inodeLinks = vs.foldl (fun f v => Function.update f v.1 v.2.iLinksCount) c.1.inodeLinks
  checked : c'.1.inodeChecked = vs.foldl (fun f v => Function.update f v.1 true) c.1.inodeChecked
  inodes : c'.1.inodeCount = c.1.inodeCount
  allocated : c'.1.inodeAllocated = c.1.inodeAllocated
  inUse : ∀ v ∈ vs, ∀ t ∈ namedBy d bs v.2, t ≠ 0 → t ≤ c.1.inodeCount ∧ c.1.inodeAllocated (t - 1) = true
  linked : ∀ v ∈ vs, v.2.iLinksCount ≠ 0

section Visits

variable {d : Vblk} {bs : Nat}

theorem Visits.refl (c : Checked) : Visits d bs [] c c :=
  ⟨fun _ _ => rfl, rfl, rfl, rfl, rfl, by simp, by simp⟩

theorem Visits.trans {vs ws : List (Nat × Inode)} {c c' c'' : Checked} (h : Visits d bs vs c c')
    (h' : Visits d bs ws c' c'') : Visits d bs (vs ++ ws) c c'' where
  refs := fun t ht => by
    rw [h'.refs t ht, h.refs t ht, List.flatMap_append, List.count_append, Nat.add_assoc]
  links := by rw [h'.links, h.links, List.foldl_append]
  checked := by rw [h'.checked, h.checked, List.foldl_append]
  inodes := h'.inodes.trans h.inodes
  allocated := h'.allocated.trans h.allocated
  inUse := fun v hv t ht hne => (List.mem_append.mp hv).elim (fun hv => h.inUse v hv t ht hne)
    (fun hv => by have := h'.inUse v hv t ht hne; rwa [h.inodes, h.allocated] at this)
  linked := fun v hv => (List.mem_append.mp hv).elim (h.linked v) (h'.linked v)

/-- The checks before the blocks of an inode fail when no record can name it. -/
theorem checkHead_zero {ino : Nat} {inode : Inode} {c : Checked} (h : (checkHead ino inode c).2 = 0) :
    inode.iLinksCount ≠ 0 := by
  intro hzero
  unfold checkHead at h
  dsimp only [] at h
  rw [if_pos hzero] at h
  exact Nat.succ_ne_zero _ h

theorem checkHead_visits {ino : Nat} {inode : Inode} {c : Checked} :
    (checkHead ino inode c).1.directoryRefs = c.1.directoryRefs ∧
      (checkHead ino inode c).1.inodeLinks = Function.update c.1.inodeLinks ino inode.iLinksCount ∧
      (checkHead ino inode c).1.inodeChecked = Function.update c.1.inodeChecked ino true ∧
      (checkHead ino inode c).1.inodeCount = c.1.inodeCount ∧
      (checkHead ino inode c).1.inodeAllocated = c.1.inodeAllocated := by
  have hsame : ∀ (p : Prop) [Decidable p] (c : Checked),
      (if p then c else c.fail).1 = c.1 ∧ (if p then c.fail else c).1 = c.1 := by
    intro p _ c
    by_cases hp : p
    · rw [if_pos hp, if_pos hp]
      exact ⟨rfl, rfl⟩
    · rw [if_neg hp, if_neg hp]
      exact ⟨rfl, rfl⟩
  unfold checkHead
  dsimp only []
  rw [(hsame _ _).2, (hsame _ _).2, (hsame _ _).1]
  exact ⟨rfl, rfl, rfl, rfl, rfl⟩

/-- One inode. -/
theorem checkInode_visits {ino : Nat} {inode : Inode} {c : Checked} (hbs : c.1.blockSize = bs)
    (h : (checkInode d ino inode c).2 = 0) : Visits d bs [(ino, inode)] c (checkInode d ino inode c) := by
  have hshape : checkInode d ino inode c = if ifmt inode.iMode = sIfdir then
      fsckCheckDirectory d inode (fsckCheckDirect d ino inode (checkHead ino inode c))
      else fsckCheckDirect d ino inode (checkHead ino inode c) := rfl
  have hhead := checkHead_extends ino inode c
  obtain ⟨hrefs, hlinks, hchecked, hinodes, hallocated⟩ := @checkHead_visits ino inode c
  have hdirect := fsckCheckDirect_extends d ino inode (checkHead ino inode c)
  have hcounts := fsckCheckDirect_counts d ino inode (checkHead ino inode c)
  have hzero : (fsckCheckDirect d ino inode (checkHead ino inode c)).2 = 0 ∧
      Counts (namedBy d bs inode) (checkHead ino inode c) (checkInode d ino inode c) := by
    rw [hshape] at h ⊢
    by_cases hdir : ifmt inode.iMode = sIfdir
    · rw [if_pos hdir] at h ⊢
      have hle := (fsckCheckDirectory_extends d inode (fsckCheckDirect d ino inode (checkHead ino inode c))).errors
      have hzero : (fsckCheckDirect d ino inode (checkHead ino inode c)).2 = 0 := by omega
      refine ⟨hzero, hcounts.trans (fsckCheckDirectory_counts ?_ hdir (fun j hj hne => ?_) h)⟩
      · rw [hdirect.blockSize, hhead.blockSize, hbs]
      · rw [hdirect.count, hdirect.allocated]
        exact fsckCheckDirect_zero hdir hzero hj hne
    · rw [if_neg hdir] at h ⊢
      unfold namedBy
      rw [if_neg hdir]
      exact ⟨h, hcounts⟩
  have hlinked : inode.iLinksCount ≠ 0 := checkHead_zero (Nat.le_zero.mp (hzero.1 ▸ hdirect.errors))
  generalize checkInode d ino inode c = c' at hzero
  obtain ⟨-, hcounts⟩ := hzero
  refine ⟨fun t ht => ?_, ?_, ?_, hcounts.inodes.trans hinodes, hcounts.allocated.trans hallocated, ?_, ?_⟩
  · rw [hcounts.refs t ht, hrefs, List.flatMap_singleton]
  · exact hcounts.links.trans hlinks
  · exact hcounts.checked.trans hchecked
  · intro v hv t ht hne
    rw [List.mem_singleton.mp hv] at ht
    have := hcounts.inUse t ht hne
    rwa [hinodes, hallocated] at this
  · intro v hv
    rw [List.mem_singleton.mp hv]
    exact hlinked

/-- The inodes `i`, `i + 1`, ... of a group that are checked, with their numbers. -/
def checkedInodes (d : Vblk) (base isz bs table firstNonreserved : Nat) (bitmap : Mem) (count i : Nat) :
    List (Nat × Inode) :=
  ((List.range' i count).filter (fun k =>
      bitmap.bit k = true ∧ ¬ (base + k + 1 < firstNonreserved ∧ base + k + 1 ≠ 2))).map
    (fun k => (base + k + 1, d.bytes.slice (table * bs + k * isz) isz))

/-- The inodes of a group. -/
theorem fsckExt2CheckInodes_visits {base isz table firstNonreserved errors : Nat} {bitmap : Mem} (count : Nat) :
    ∀ {i : Nat} {c : Checked}, c.1.blockSize = bs →
      (fsckExt2CheckInodes d base isz bs table firstNonreserved errors bitmap count i c).2 = 0 →
      Visits d bs (checkedInodes d base isz bs table firstNonreserved bitmap count i) c
        (fsckExt2CheckInodes d base isz bs table firstNonreserved errors bitmap count i c) := by
  induction count with
  | zero => exact fun _ _ => Visits.refl _
  | succ count ih =>
      intro i c hbs h
      have hskip : ¬ (bitmap.bit i = true ∧ ¬ (base + i + 1 < firstNonreserved ∧ base + i + 1 ≠ 2)) →
          checkedInodes d base isz bs table firstNonreserved bitmap (count + 1) i =
            checkedInodes d base isz bs table firstNonreserved bitmap count (i + 1) := by
        intro hno
        unfold checkedInodes
        rw [List.range'_succ, List.filter_cons_of_neg (by simpa using hno)]
      unfold fsckExt2CheckInodes at h ⊢
      by_cases hbit : bitmap.bit i = false
      · rw [if_pos hbit] at h ⊢
        rw [hskip (by simp [hbit])]
        exact ih hbs h
      · rw [if_neg hbit] at h ⊢
        cases hread : readat d (table * bs + i * isz) isz with
        | none =>
            rw [hread] at h
            exact absurd h (Nat.succ_ne_zero _)
        | some inode =>
            rw [hread] at h
            dsimp only [] at h ⊢
            by_cases hres : base + i + 1 < firstNonreserved ∧ base + i + 1 ≠ 2
            · rw [if_pos hres] at h ⊢
              rw [hskip (fun hno => hno.2 hres)]
              exact ih hbs h
            · rw [if_neg hres] at h ⊢
              have hone := checkInode_visits hbs (fsckExt2CheckInodes_zero h)
              have hrest := ih ((checkInode_extends d (base + i + 1) inode c).blockSize.trans hbs) h
              have hcons : checkedInodes d base isz bs table firstNonreserved bitmap (count + 1) i =
                  [(base + i + 1, inode)] ++
                    checkedInodes d base isz bs table firstNonreserved bitmap count (i + 1) := by
                unfold checkedInodes
                rw [List.range'_succ, List.filter_cons,
                  if_pos (decide_eq_true ⟨Bool.eq_true_of_not_eq_false hbit, hres⟩), List.map_cons, readat_some hread]
                rfl
              rw [hcons]
              exact hone.trans hrest

end Visits

/-! ## Groups -/

section Groups

variable {d : Vblk} {q : FsckGeometry} {gdt : Mem}

/-- The inodes of a group that are checked. -/
def checkedIn (d : Vblk) (q : FsckGeometry) (gdt : Mem) (g : Nat) : List (Nat × Inode) :=
  checkedInodes d (g * q.ipg) q.isz q.bs (GroupDesc.bgInodeTable (gdt.slice (32 * g) 32)) q.firstNonreserved
    (d.bytes.slice (GroupDesc.bgInodeBitmap (gdt.slice (32 * g) 32) * q.bs) q.bs) (q.nino g) 0

theorem checkGroup_visits {t : FsckTotals} {g : Nat} (hbs : t.checked.1.blockSize = q.bs)
    (h : (checkGroup d q gdt t g).checked.2 = 0) :
    Visits d q.bs (checkedIn d q gdt g) t.checked (checkGroup d q gdt t g).checked := by
  unfold checkGroup at h ⊢
  dsimp only [] at h ⊢
  split at h
  · exact absurd h (Nat.succ_ne_zero _)
  · rename_i hin
    rw [if_neg hin]
    split at h
    · rename_i bb ib _ hib
      have hvisits := fsckExt2CheckInodes_visits (q.nino g) hbs (Nat.add_eq_zero_iff.mp h).1
      rw [readat_some hib] at hvisits ⊢
      exact ⟨hvisits.refs, hvisits.links, hvisits.checked, hvisits.inodes, hvisits.allocated, hvisits.inUse,
        hvisits.linked⟩
    · exact absurd h (Nat.succ_ne_zero _)

theorem checkGroups_visits (l : List Nat) : ∀ {t : FsckTotals}, t.checked.1.blockSize = q.bs →
    (l.foldl (checkGroup d q gdt) t).checked.2 = 0 →
    Visits d q.bs (l.flatMap (checkedIn d q gdt)) t.checked (l.foldl (checkGroup d q gdt) t).checked := by
  induction l with
  | nil => exact fun _ _ => Visits.refl _
  | cons g l ih =>
      intro t hbs h
      have hext := checkGroup_extends d q gdt t g
      have hrest := ih (hext.blockSize.trans hbs) h
      have hzero := (checkGroups_inBounds l h).1
      exact (checkGroup_visits hbs hzero).trans hrest

/-- The bits that are loaded are bits of the inode bitmaps. -/
theorem loadInodeBitmaps_bit (n : Nat) : ∀ {g : Nat} {a a' : Nat → Bool}, loadInodeBitmaps d q gdt n g a = some a' →
    ∀ {i : Nat}, a' i = true → a i = true ∨ ∃ g', g' < g + n ∧ g' * q.ipg ≤ i ∧ i < g' * q.ipg + q.nino g' ∧
      (d.bytes.slice (gdt.rd32 (32 * g' + 4) * q.bs) q.bs).bit (i - g' * q.ipg) = true := by
  induction n with
  | zero => exact fun h _ hi => Or.inl (Option.some.inj h ▸ hi)
  | succ n ih =>
      intro g a a' h i hi
      unfold loadInodeBitmaps at h
      split at h
      · exact (ih h hi).imp_right (fun ⟨g', hlt, hg'⟩ => ⟨g', by omega, hg'⟩)
      · split at h
        · cases h
        · rename_i ib hread
          rcases ih h hi with hold | ⟨g', hlt, hg'⟩
          · rw [Bool.or_eq_true, Bool.and_eq_true, decide_eq_true_eq, readat_some hread] at hold
            exact hold.imp_right (fun ⟨⟨h₁, h₂⟩, hbit⟩ => ⟨g, by omega, h₁, h₂, hbit⟩)
          · exact Or.inr ⟨g', by omega, hg'⟩

end Groups

/-! ## The whole run -/

section Scan

variable {d : Vblk} {q : FsckGeometry}

/-- The context before the main loop: the bitmaps are loaded and the metadata is marked. -/
def scanStart (q : FsckGeometry) (gdt : Mem) (inodeAllocated allocated : Nat → Bool) : FsckContext :=
  (List.range q.groups).foldl (fun c g => (metaBlocks q (gdt.slice (32 * g) 32) g).foldl markMeta c)
    { count := q.blocks, blockSize := q.bs, allocated := allocated, owners := fun _ => 0
      inodeCount := q.inodes, inodeAllocated := inodeAllocated
      directoryRefs := fun _ => 0, inodeLinks := fun _ => 0, inodeChecked := fun _ => false }

/-- The main loop of the checker. -/
def fsckScan (d : Vblk) (q : FsckGeometry) : Option FsckTotals :=
  match readat d ((q.first + 1) * q.bs) (q.groups * 32) with
  | none => none
  | some gdt =>
      match loadInodeBitmaps d q gdt q.groups 0 (fun _ => false),
          loadBlockBitmaps d q gdt q.groups 0 (fun _ => false) with
      | some inodeAllocated, some allocated =>
          some ((List.range q.groups).foldl (checkGroup d q gdt) ⟨(scanStart q gdt inodeAllocated allocated, 0), 0, 0⟩)
      | _, _ => none

theorem fsckGroups_eq (freeb freei : Nat) : fsckGroups d q freeb freei =
    (fsckScan d q).elim 2 (fun t => if finalErrors q freeb freei t = 0 then 0 else 1) := by
  unfold fsckGroups fsckScan scanStart
  cases readat d ((q.first + 1) * q.bs) (q.groups * 32) with
  | none => rfl
  | some gdt =>
      dsimp only []
      cases loadInodeBitmaps d q gdt q.groups 0 (fun _ => false) with
      | none => rfl
      | some inodeAllocated =>
          cases loadBlockBitmaps d q gdt q.groups 0 (fun _ => false) with
          | none => rfl
          | some allocated => rfl

/-- All inodes that are checked, in the order of the groups. -/
def checkedList (d : Vblk) (q : FsckGeometry) : List (Nat × Inode) :=
  (List.range q.groups).flatMap (checkedIn d q (d.bytes.slice ((q.first + 1) * q.bs) (q.groups * 32)))

/-- The inodes that the records of the checked directories name. -/
def references (d : Vblk) (q : FsckGeometry) : List Nat :=
  (checkedList d q).flatMap (fun v => namedBy d q.bs v.2)

/-- Marking metadata changes only the owners. -/
theorem markMeta_eq (c : FsckContext) (block : Nat) :
    markMeta c block = { c with owners := (markMeta c block).owners } := by
  unfold markMeta
  split
  · rfl
  · rfl

theorem markMeta_foldl (l : List Nat) (c : FsckContext) :
    l.foldl markMeta c = { c with owners := (l.foldl markMeta c).owners } := by
  induction l generalizing c with
  | nil => rfl
  | cons b l ih => rw [List.foldl_cons, ih, markMeta_eq]

theorem scanStart_eq (gdt : Mem) (inodeAllocated allocated : Nat → Bool) :
    scanStart q gdt inodeAllocated allocated =
      { count := q.blocks, blockSize := q.bs, allocated := allocated
        owners := (scanStart q gdt inodeAllocated allocated).owners
        inodeCount := q.inodes, inodeAllocated := inodeAllocated
        directoryRefs := fun _ => 0, inodeLinks := fun _ => 0, inodeChecked := fun _ => false } := by
  have hgroups : ∀ (f : Nat → List Nat) (l : List Nat) (c : FsckContext),
      l.foldl (fun c g => (f g).foldl markMeta c) c =
        { c with owners := (l.foldl (fun c g => (f g).foldl markMeta c) c).owners } := by
    intro f l
    induction l with
    | nil => exact fun _ => rfl
    | cons g l ih =>
        intro c
        rw [List.foldl_cons, ih, markMeta_foldl]
  unfold scanStart
  rw [hgroups]

/-- A main loop without an error has counted the records of all directories and has written down the link
counts of all inodes. -/
theorem fsckScan_visits {t : FsckTotals} (h : fsckScan d q = some t) (hzero : t.checked.2 = 0) :
    ∃ c : Checked, (c.1.inodeCount = q.inodes ∧ c.1.directoryRefs = (fun _ => 0) ∧ c.1.inodeLinks = (fun _ => 0) ∧
        c.1.inodeChecked = fun _ => false) ∧
      loadInodeBitmaps d q (d.bytes.slice ((q.first + 1) * q.bs) (q.groups * 32)) q.groups 0 (fun _ => false) =
        some c.1.inodeAllocated ∧ Visits d q.bs (checkedList d q) c t.checked := by
  unfold fsckScan at h
  cases hread : readat d ((q.first + 1) * q.bs) (q.groups * 32) with
  | none =>
      rw [hread] at h
      cases h
  | some gdt =>
      obtain rfl := readat_some hread
      rw [hread] at h
      dsimp only [] at h
      split at h
      · rename_i inodeAllocated allocated hia _
        obtain rfl := Option.some.inj h
        have hstart := @scanStart_eq q (d.bytes.slice ((q.first + 1) * q.bs) (q.groups * 32)) inodeAllocated allocated
        generalize scanStart q (d.bytes.slice ((q.first + 1) * q.bs) (q.groups * 32)) inodeAllocated allocated = c
          at hstart hzero ⊢
        rw [hstart] at hzero ⊢
        exact ⟨_, ⟨rfl, rfl, rfl, rfl⟩, hia, checkGroups_visits _ rfl hzero⟩
      · cases h

/-- What the main loop leaves when nothing is wrong, with the references counted in the directories. -/
def scanClean (d : Vblk) (q : FsckGeometry) (freeb freei : Nat) (t : FsckTotals) : Bool :=
  t.checked.2 = 0 ∧ t.totalb = freeb ∧ t.totali = freei ∧
    (∀ i ∈ List.range q.inodes, t.checked.1.inodeChecked (i + 1) = true →
      (references d q).count (i + 1) = t.checked.1.inodeLinks (i + 1)) ∧
    ∀ b ∈ List.range q.blocks, ¬ (q.first ≤ b ∧ t.checked.1.allocated b = true ∧ t.checked.1.owners b = 0)

theorem finalErrors_zero {freeb freei : Nat} {t : FsckTotals} (h : fsckScan d q = some t) :
    finalErrors q freeb freei t = 0 ↔ scanClean d q freeb freei t = true := by
  unfold finalErrors scanClean
  dsimp only []
  rw [decide_eq_true_eq]
  simp only [Nat.add_eq_zero_iff, and_assoc, ite_eq_right_iff, Nat.one_ne_zero, imp_false, not_not,
    List.countP_eq_zero, decide_eq_true_eq, not_and, not_exists]
  refine and_congr_right (fun hzero => and_congr_right (fun _ => and_congr_right (fun _ => ?_)))
  obtain ⟨c, ⟨-, hrefs, -, -⟩, -, hvisits⟩ := fsckScan_visits h hzero
  have hcount : ∀ i, t.checked.1.directoryRefs (i + 1) = (references d q).count (i + 1) := by
    intro i
    rw [hvisits.refs (i + 1) (Nat.succ_ne_zero i), hrefs]
    exact Nat.zero_add _
  simp only [hcount]

/-- A filesystem is accepted as soon as the main loop leaves nothing wrong. -/
theorem fsckGroups_zero {freeb freei : Nat} (h : (fsckScan d q).any (scanClean d q freeb freei) = true) :
    fsckGroups d q freeb freei = 0 := by
  obtain ⟨t, ht, hclean⟩ := (Option.any_eq_true _ _).mp h
  rw [fsckGroups_eq, ht, Option.elim_some, if_pos ((finalErrors_zero ht).mpr hclean)]

end Scan

end Guppy.Ext2
