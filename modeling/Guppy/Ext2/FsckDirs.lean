import Guppy.Ext2.Mapping
import Guppy.Ext2.Records

set_option autoImplicit false

/-! # What an accepted directory has

When the checker reports no error, every block of a directory that it has looked at is tiled
by records, and every direct block of a directory lies in the filesystem
(`ext2FsckPhase1_directory`).
-/

namespace Guppy.Ext2

/-! ## Records and blocks -/

section Blocks

variable {d : Vblk} {c : Checked}

/-- A block in which the checker finds no error is tiled by records. -/
theorem checkRecords_tiles {buf : Mem} {bs fuel pos : Nat} (hbs : c.1.blockSize = bs)
    (hfuel : bs ≤ pos + fuel) (hpos : pos ≤ bs) (h : (checkRecords buf fuel pos c).2 = 0) :
    ∃ rs, Tiles buf pos rs bs := by
  induction fuel generalizing pos c with
  | zero => exact ⟨[], show pos = bs by omega⟩
  | succ fuel ih =>
      unfold checkRecords at h
      dsimp only [] at h
      split at h
      · exact ⟨[], show pos = bs by omega⟩
      · split at h
        · exact absurd h (Nat.succ_ne_zero _)
        · split at h
          · exact absurd h (Nat.succ_ne_zero _)
          · rename_i hrec
            have hkeep := countRef_extends (buf.rd32 pos) c
            obtain ⟨rs, hrs⟩ := @ih (countRef (buf.rd32 pos) c) (pos + buf.rd16 (pos + 4))
              (hkeep.blockSize.trans hbs) (by omega) (by omega) h
            refine ⟨recAt buf pos :: rs, rfl, ⟨?_, ?_⟩, hrs⟩
            · show buf.rd16 (pos + 4) % 4 = 0
              omega
            · rw [minLen_eq, recAt_name_length]
              show (deNameLen buf pos + 11) / 4 * 4 ≤ buf.rd16 (pos + 4)
              unfold deNameLen
              omega

theorem takeWhile_lt {n bs size j : Nat} (hj : j < n) (hlt : j * bs < size) :
    j ∈ (List.range n).takeWhile (fun j => j * bs < size) := by
  induction n with
  | zero => omega
  | succ n ih =>
      rw [List.range_succ, List.takeWhile_append]
      by_cases hlast : j = n
      · subst hlast
        have hall : (List.range j).takeWhile (fun i => i * bs < size) = List.range j := by
          rw [List.takeWhile_eq_self_iff]
          intro i hi
          have hi := List.mem_range.mp hi
          have := Nat.mul_le_mul_right bs (le_of_lt hi)
          exact decide_eq_true (by omega)
        rw [hall, if_pos rfl]
        simp [hlt]
      · have hmem := ih (by omega)
        split
        · exact List.mem_append_left _ (List.mem_range.mpr (by omega))
        · exact hmem

/-- The blocks of a directory in which the checker finds no error are tiled. -/
theorem fsckCheckDirectory_zero {inode : Inode} (h : (fsckCheckDirectory d inode c).2 = 0) {j : Nat}
    (hj : j < 12) (hsize : j * c.1.blockSize < inode.iSize) (hne : inode.iBlock j ≠ 0)
    (hin : inode.iBlock j < c.1.count ∧ c.1.allocated (inode.iBlock j) = true) :
    ∃ rs, Tiles (d.bytes.slice (inode.iBlock j * c.1.blockSize) c.1.blockSize) 0 rs c.1.blockSize := by
  unfold fsckCheckDirectory at h
  refine Exists.elim (foldl_zero (fun c j => ?_) h (takeWhile_lt hj hsize)) ?_
  · dsimp only []
    split
    · exact Extends.refl c
    · split
      · exact extends_fail c
      · exact checkRecords_extends _ _ _ c
  rintro c' ⟨hext, hzero⟩
  rw [hext.count, hext.allocated, hext.blockSize, if_neg] at hzero
  · split at hzero
    · exact absurd hzero (Nat.succ_ne_zero _)
    · rename_i buf hread
      obtain ⟨rs, hrs⟩ := checkRecords_tiles hext.blockSize (by omega) (Nat.zero_le _) hzero
      have hbuf : buf = d.bytes.slice (inode.iBlock j * c.1.blockSize) c.1.blockSize :=
        readat_some hread
      exact ⟨rs, hbuf ▸ hrs⟩
  · rw [hin.2]
    simp only [Bool.true_eq_false, or_false, not_or]
    exact ⟨hne, by omega⟩

end Blocks

/-! ## Inodes and groups -/

section Inodes

variable {d : Vblk} {base isz bs table firstNonreserved errors : Nat} {bitmap : Mem}

/-- Every allocated inode that is not reserved has been checked without an error. -/
theorem fsckExt2CheckInodes_checked {count i k : Nat} {c : Checked}
    (h : (fsckExt2CheckInodes d base isz bs table firstNonreserved errors bitmap count i c).2 = 0)
    (h₁ : i ≤ k) (h₂ : k < i + count) (hbit : bitmap.bit k = true)
    (hres : ¬ (base + k + 1 < firstNonreserved ∧ base + k + 1 ≠ 2)) :
    ∃ c', Extends c c' ∧
      (checkInode d (base + k + 1) (d.bytes.slice (table * bs + k * isz) isz) c').2 = 0 := by
  induction count generalizing i c with
  | zero => omega
  | succ count ih =>
      unfold fsckExt2CheckInodes at h
      split at h
      · rename_i hclear
        have hne : i ≠ k := by
          rintro rfl
          rw [hbit] at hclear
          cases hclear
        exact ih h (by omega) (by omega)
      · split at h
        · exact absurd h (Nat.succ_ne_zero _)
        · rename_i inode hread
          have hinode : inode = d.bytes.slice (table * bs + i * isz) isz := readat_some hread
          dsimp only [] at h
          split at h
          · rename_i hskip
            have hne : i ≠ k := by
              rintro rfl
              exact hres hskip
            exact ih h (by omega) (by omega)
          · by_cases hik : i = k
            · subst hik
              exact ⟨c, Extends.refl c, hinode ▸ fsckExt2CheckInodes_zero h⟩
            · obtain ⟨c', hext, hzero⟩ := ih h (by omega) (by omega)
              exact ⟨c', (checkInode_extends d _ _ c).trans hext, hzero⟩

end Inodes

section Groups

variable {d : Vblk} {q : FsckGeometry}

/-- Without an error, every group has been checked without one. -/
theorem checkGroups_zero {gdt : Mem} {g : Nat} {l : List Nat} {t : FsckTotals}
    (h : (l.foldl (checkGroup d q gdt) t).checked.2 = 0) (hg : g ∈ l) :
    ∃ t', Extends t.checked t'.checked ∧ (checkGroup d q gdt t' g).checked.2 = 0 := by
  have hmono : ∀ (l : List Nat) (t : FsckTotals),
      t.checked.2 ≤ (l.foldl (checkGroup d q gdt) t).checked.2 := by
    intro l
    induction l with
    | nil => exact fun t => le_refl _
    | cons y l ih => exact fun t => le_trans (checkGroup_extends d q gdt t y).errors (ih _)
  induction l generalizing t with
  | nil => exact absurd hg List.not_mem_nil
  | cons y l ih =>
      rcases List.mem_cons.mp hg with rfl | hg
      · have := hmono l (checkGroup d q gdt t g)
        rw [List.foldl_cons] at h
        exact ⟨t, Extends.refl _, by omega⟩
      · obtain ⟨t', hext, hzero⟩ := ih h hg
        exact ⟨t', (checkGroup_extends d q gdt t y).trans hext, hzero⟩

/-- Marking metadata changes only the owners. -/
theorem markMeta_keeps (l : List Nat) (c : FsckContext) :
    (l.foldl markMeta c).count = c.count ∧ (l.foldl markMeta c).blockSize = c.blockSize := by
  induction l generalizing c with
  | nil => exact ⟨rfl, rfl⟩
  | cons b l ih =>
      rw [List.foldl_cons]
      have := ih (markMeta c b)
      have hb : (markMeta c b).count = c.count ∧ (markMeta c b).blockSize = c.blockSize := by
        unfold markMeta
        split
        · exact ⟨rfl, rfl⟩
        · exact ⟨rfl, rfl⟩
      exact ⟨this.1.trans hb.1, this.2.trans hb.2⟩

theorem markGroups_keeps (f : Nat → List Nat) (l : List Nat) (c : FsckContext) :
    (l.foldl (fun c g => (f g).foldl markMeta c) c).count = c.count ∧
      (l.foldl (fun c g => (f g).foldl markMeta c) c).blockSize = c.blockSize := by
  induction l generalizing c with
  | nil => exact ⟨rfl, rfl⟩
  | cons g l ih =>
      have h₁ := ih ((f g).foldl markMeta c)
      have h₂ := markMeta_keeps (f g) c
      exact ⟨h₁.1.trans h₂.1, h₁.2.trans h₂.2⟩

/-- An inode that the checker looks at: its bit is set, and it is not reserved. -/
structure Examined (d : Vblk) (q : FsckGeometry) (g i : Nat) : Prop where
  group : g < q.groups
  inode : i < q.nino g
  bit : (d.bytes.slice ((q.descOf d g).bgInodeBitmap * q.bs) q.bs).bit i = true
  free : ¬ (g * q.ipg + i + 1 < q.firstNonreserved ∧ g * q.ipg + i + 1 ≠ 2)

/-- The inode as the checker reads it. -/
def FsckGeometry.inodeOf (q : FsckGeometry) (d : Vblk) (g i : Nat) : Inode :=
  d.bytes.slice ((q.descOf d g).bgInodeTable * q.bs + i * q.isz) q.isz

/-- An inode that an accepted filesystem has in use has been checked without an error. -/
theorem fsckGroups_checked {freeb freei g i : Nat} (h : fsckGroups d q freeb freei = 0)
    (hex : Examined d q g i) :
    ∃ c : Checked, c.1.count = q.blocks ∧ c.1.blockSize = q.bs ∧
      (checkInode d (g * q.ipg + i + 1) (q.inodeOf d g i) c).2 = 0 := by
  unfold fsckGroups at h
  cases hread : readat d ((q.first + 1) * q.bs) (q.groups * 32) with
  | none =>
      rw [hread] at h
      cases h
  | some gdt =>
      have hgdt : gdt = d.bytes.slice ((q.first + 1) * q.bs) (q.groups * 32) := readat_some hread
      have hdesc : gdt.slice (32 * g) 32 = q.descOf d g := by
        have := hex.group
        rw [hgdt, Mem.slice_slice (by omega)]
        rfl
      rw [hread] at h
      dsimp only [] at h
      split at h
      · split at h
        · rename_i inodeAllocated allocated _ _ hzero
          unfold finalErrors at hzero
          have h₁ := (Nat.add_eq_zero_iff.mp (Nat.add_eq_zero_iff.mp hzero).1).1
          have h₂ := (Nat.add_eq_zero_iff.mp (Nat.add_eq_zero_iff.mp h₁).1).1
          obtain ⟨t, hext, hgroup⟩ := checkGroups_zero h₂ (List.mem_range.mpr hex.group)
          have hkeep := markGroups_keeps (fun g => metaBlocks q (gdt.slice (32 * g) 32) g)
            (List.range q.groups)
            { count := q.blocks, blockSize := q.bs, allocated := allocated, owners := fun _ => 0
              inodeCount := q.inodes, inodeAllocated := inodeAllocated
              directoryRefs := fun _ => 0, inodeLinks := fun _ => 0, inodeChecked := fun _ => false }
          unfold checkGroup at hgroup
          dsimp only [] at hgroup
          rw [hdesc] at hgroup
          split at hgroup
          · exact absurd hgroup (Nat.succ_ne_zero _)
          · split at hgroup
            · rename_i bb ib _ hib
              have hib : ib = d.bytes.slice ((q.descOf d g).bgInodeBitmap * q.bs) q.bs :=
                readat_some hib
              have hsum := (Nat.add_eq_zero_iff.mp hgroup).1
              obtain ⟨c, hc, hzero⟩ := fsckExt2CheckInodes_checked hsum (Nat.zero_le i)
                (by have := hex.inode; omega) (hib ▸ hex.bit) hex.free
              exact ⟨c, (hc.count.trans hext.count).trans hkeep.1,
                (hc.blockSize.trans hext.blockSize).trans hkeep.2, hzero⟩
            · exact absurd hgroup (Nat.succ_ne_zero _)
        · cases h
      · cases h

/-- What an accepted filesystem says about a directory in use: its direct blocks lie in the
filesystem, and those that it needs for its size are tiled by records. -/
theorem ext2FsckPhase1_directory {g i : Nat} (hq : q = fsckGeometry (d.bytes.slice 1024 1024))
    (h : ext2FsckPhase1 d = 0) (hex : Examined d q g i)
    (hdir : ifmt (q.inodeOf d g i).iMode = sIfdir) {j : Nat} (hj : j < 12)
    (hne : (q.inodeOf d g i).iBlock j ≠ 0) :
    (q.inodeOf d g i).iBlock j < q.blocks ∧ (j * q.bs < (q.inodeOf d g i).iSize →
      ∃ rs, Tiles (d.bytes.slice ((q.inodeOf d g i).iBlock j * q.bs) q.bs) 0 rs q.bs) := by
  obtain ⟨-, -, -, -, _, _, hgroups⟩ := ext2FsckPhase1_passed hq h
  obtain ⟨c, hcount, hbs, hzero⟩ := fsckGroups_checked hgroups hex
  have hwhole : (fsckCheckDirectory d (q.inodeOf d g i) (fsckCheckDirect d (g * q.ipg + i + 1)
      (q.inodeOf d g i) (checkHead (g * q.ipg + i + 1) (q.inodeOf d g i) c))).2 = 0 := by
    have hshape : checkInode d (g * q.ipg + i + 1) (q.inodeOf d g i) c
        = if ifmt (q.inodeOf d g i).iMode = sIfdir then
          fsckCheckDirectory d (q.inodeOf d g i) (fsckCheckDirect d (g * q.ipg + i + 1)
            (q.inodeOf d g i) (checkHead (g * q.ipg + i + 1) (q.inodeOf d g i) c))
          else fsckCheckDirect d (g * q.ipg + i + 1) (q.inodeOf d g i)
            (checkHead (g * q.ipg + i + 1) (q.inodeOf d g i) c) := rfl
    rwa [hshape, if_pos hdir] at hzero
  have hhead := checkHead_extends (g * q.ipg + i + 1) (q.inodeOf d g i) c
  generalize checkHead (g * q.ipg + i + 1) (q.inodeOf d g i) c = c₁ at hwhole hhead
  have hdirect := fsckCheckDirect_extends d (g * q.ipg + i + 1) (q.inodeOf d g i) c₁
  have hdirectzero : (fsckCheckDirect d (g * q.ipg + i + 1) (q.inodeOf d g i) c₁).2 = 0 := by
    have := (fsckCheckDirectory_extends d (q.inodeOf d g i)
      (fsckCheckDirect d (g * q.ipg + i + 1) (q.inodeOf d g i) c₁)).errors
    omega
  have hin := fsckCheckDirect_zero hdir hdirectzero hj hne
  generalize fsckCheckDirect d (g * q.ipg + i + 1) (q.inodeOf d g i) c₁ = c₂ at hwhole hdirect
  have hbs₂ : c₂.1.blockSize = q.bs := (hdirect.blockSize.trans hhead.blockSize).trans hbs
  constructor
  · rw [← hcount, ← hhead.count]
    exact hin.1
  · intro hsize
    have := fsckCheckDirectory_zero hwhole hj (by rw [hbs₂]; exact hsize) hne
      (by rw [hdirect.count, hdirect.allocated]; exact hin)
    rwa [hbs₂] at this

end Groups

/-! ## Link counts -/

section Links

variable {d : Vblk} {q : FsckGeometry}

/-- An inode whose bit is set. -/
structure InUse (d : Vblk) (q : FsckGeometry) (ino : Nat) (g i : Nat) : Prop where
  number : ino = g * q.ipg + i + 1
  group : g < q.groups
  inode : i < q.nino g
  bit : (d.bytes.slice ((q.descOf d g).bgInodeBitmap * q.bs) q.bs).bit i = true

/-- A descriptor as the main loop finds it. -/
theorem slice_descOf {g : Nat} (hg : g < q.groups) :
    (d.bytes.slice ((q.first + 1) * q.bs) (q.groups * 32)).slice (32 * g) 32 = q.descOf d g := by
  rw [Mem.slice_slice (by omega)]
  rfl

/-- The inodes of the list are those that the checker looks at. -/
theorem mem_checkedList {v : Nat × Inode} : v ∈ checkedList d q ↔
    ∃ g i, Examined d q g i ∧ v = (g * q.ipg + i + 1, q.inodeOf d g i) := by
  unfold checkedList
  rw [List.mem_flatMap]
  constructor
  · rintro ⟨g, hg, hv⟩
    have hg := List.mem_range.mp hg
    unfold checkedIn checkedInodes at hv
    rw [slice_descOf hg] at hv
    obtain ⟨i, hi, rfl⟩ := List.mem_map.mp hv
    obtain ⟨hi, hbit⟩ := List.mem_filter.mp hi
    have hbit := of_decide_eq_true hbit
    exact ⟨g, i, ⟨hg, by have := List.mem_range'_1.mp hi; omega, hbit.1, hbit.2⟩, rfl⟩
  · rintro ⟨g, i, hex, rfl⟩
    refine ⟨g, List.mem_range.mpr hex.group, ?_⟩
    unfold checkedIn checkedInodes
    rw [slice_descOf hex.group]
    refine List.mem_map.mpr ⟨i, List.mem_filter.mpr ⟨?_, decide_eq_true ⟨hex.bit, hex.free⟩⟩, rfl⟩
    exact List.mem_range'_1.mpr ⟨Nat.zero_le i, by have := hex.inode; omega⟩

/-- Each number belongs to one inode. -/
theorem checkedList_unique {g i : Nat} (hex : Examined d q g i) {v : Nat × Inode} (hv : v ∈ checkedList d q)
    (hno : v.1 = g * q.ipg + i + 1) : v.2 = q.inodeOf d g i := by
  obtain ⟨g', i', hex', rfl⟩ := mem_checkedList.mp hv
  have hi : i < q.ipg := lt_of_lt_of_le hex.inode (Nat.min_le_left _ _)
  have hi' : i' < q.ipg := lt_of_lt_of_le hex'.inode (Nat.min_le_left _ _)
  have heq : i' + q.ipg * g' = i + q.ipg * g := by
    rw [Nat.mul_comm q.ipg g', Nat.mul_comm q.ipg g]
    have : g' * q.ipg + i' + 1 = g * q.ipg + i + 1 := hno
    omega
  have hgg : g' = g := by
    have := congrArg (· / q.ipg) heq
    rwa [Nat.add_mul_div_left _ _ (by omega), Nat.add_mul_div_left _ _ (by omega), Nat.div_eq_of_lt hi,
      Nat.div_eq_of_lt hi', Nat.zero_add, Nat.zero_add] at this
  subst hgg
  obtain rfl : i' = i := by omega
  rfl

/-- What a list of updates leaves at a number that all entries for it agree on. -/
theorem foldl_update {α β : Type} {f : Nat × α → β} {ino : Nat} {x : β} {vs : List (Nat × α)}
    (hall : ∀ v ∈ vs, v.1 = ino → f v = x) : ∀ {F : Nat → β}, (F ino = x ∨ ∃ v ∈ vs, v.1 = ino) →
      vs.foldl (fun F v => Function.update F v.1 (f v)) F ino = x := by
  induction vs with
  | nil => exact fun h => h.elim id (fun ⟨_, hv, _⟩ => absurd hv List.not_mem_nil)
  | cons v vs ih =>
      intro F h
      have hhead := hall v (List.mem_cons_self ..)
      refine ih (fun w hw => hall w (List.mem_cons_of_mem _ hw)) ?_
      by_cases hv : v.1 = ino
      · left
        rw [← hv]
        exact (Function.update_self ..).trans (hhead hv)
      · rcases h with h | ⟨w, hw, hwi⟩
        · left
          exact (Function.update_of_ne (Ne.symm hv) ..).trans h
        · rcases List.mem_cons.mp hw with rfl | hw
          · exact absurd hwi hv
          · exact Or.inr ⟨w, hw, hwi⟩

end Links

end Guppy.Ext2
