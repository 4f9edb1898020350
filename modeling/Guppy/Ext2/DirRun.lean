import Guppy.Ext2.NewNodes

set_option autoImplicit false

/-! # Runs of directory operations

Starting from a fresh filesystem, entries are inserted with `ext2_append_dirent_at` and
removed with `ext2_unlink_at`, in any order, and further directories are made with
`ext2_mkdir_at`. Every block of every directory stays tiled by records, and each operation
changes the map that `ext2_find_entry_at` gives by its one entry.

`ext2_append_dirent_at` does not look whether the name is there already or whether the inode
number is zero; its callers do.
-/

namespace Guppy.Ext2

open Prog Vfs

/-! ## Operations -/

inductive DirOp where
  | insert (dirIno childIno fileType : Nat) (name : Text)
  | remove (path : Text)
  | mkdir (path : Text) (mode : Nat)

/-- Every operation starts by loading the superblock and the descriptors. -/
def DirOp.run : DirOp → Prog Vblk Unit
  | insert dirIno childIno fileType name => do
      let m ← look (fun d => ext2LoadMeta d)
      let _ ← ext2AppendDirentAt m dirIno childIno fileType name
      pure ()
  | remove path => ext2UnlinkAt path
  | mkdir path mode => ext2MkdirAt path mode

/-- `ext2_find_entry_at` on what is on the device. -/
def findIn (d : Vblk) (i : Nat) (name : Text) : Except Int (Option (Nat × Nat)) := do
  let m ← ext2LoadMeta d
  ext2FindEntryAt d m i name

/-- `ext2_resolve_path_at` on what is on the device. -/
def resolveIn (d : Vblk) (path : Text) : Except Int Nat := do
  let m ← ext2LoadMeta d
  ext2ResolvePathAt d m path

/-- What the callers of `ext2_append_dirent_at` see to: a name of 1 to 255 bytes that is not
in use, an inode number that is not zero, and values in the range of their C types. -/
def DirOp.Admissible (d : Vblk) : DirOp → Prop
  | insert dirIno childIno fileType name =>
      (1 ≤ name.length ∧ name.length ≤ 255) ∧ (childIno ≠ 0 ∧ childIno < uint32) ∧ fileType < 256 ∧
        ∀ x, findIn d dirIno name ≠ .ok (some x)
  | remove _ => True
  | mkdir _ _ => True

/-- The entry of that name in directory `i` is now `x`, and nothing else has changed. -/
def EntrySet (d d' : Vblk) (i : Nat) (name : Text) (x : Option (Nat × Nat)) : Prop :=
  findIn d' = Function.update (findIn d) i (Function.update (findIn d i) name (.ok x))

/-- What an operation changes. -/
def DirOp.Changes (d d' : Vblk) : DirOp → Prop
  | insert dirIno childIno fileType name => EntrySet d d' dirIno name (some (childIno, fileType))
  | remove path => ∃ parent name dirIno x, splitParentName path = .ok (parent, name) ∧
      resolveIn d parent = .ok dirIno ∧ findIn d dirIno name = .ok (some x) ∧
      EntrySet d d' dirIno name none
  | mkdir path _ => ∃ parent name dirIno, splitParentName path = .ok (parent, name) ∧
      resolveIn d parent = .ok dirIno ∧ (findIn d' = findIn d ∨ ∃ child,
        findIn d dirIno name = .ok none ∧ findIn d' dirIno name = .ok (some (child, 2)) ∧
        ∀ i other, i ≠ child → (i, other) ≠ (dirIno, name) → findIn d' i other = findIn d i other)

/-- The states that runs of these operations reach. -/
inductive DirRuns (d₀ : Vblk) : Vblk → Prop
  | start : DirRuns d₀ d₀
  | step {d d' : Vblk} {op : DirOp} : DirRuns d₀ d → op.Admissible d → op.run d = .ok () d' →
      DirRuns d₀ d'

/-- Every block of every directory is tiled by records. -/
def DirsTiled (d : Vblk) : Prop :=
  ∀ m i dir, ext2LoadMeta d = .ok m → ext2ReadInodeAt d m i = .ok dir → ifmt dir.iMode = sIfdir →
    ∃ rss, BlocksTiled d m.blockSize (dirBlocks dir) rss

/-! ## The invariant -/

/-- A good device with a sound volume, in which every inode has pointers. -/
structure DirInv (n : Nat) (d : Vblk) : Prop where
  geometry : Geometry n
  good : Good n d
  sound : Sound n (vol n d)
  plain : ∀ i, pointerless ((vol n d).inode i) = false

section Inv

variable {n : Nat} {d d' : Vblk}

/-- What is on the device, as `ext2_find_entry_at` sees it. -/
theorem findIn_eq {m : Ext2Meta} (hload : ext2LoadMeta d = .ok m) : findIn d = ext2FindEntryAt d m := by
  funext i name
  unfold findIn
  rw [except_bind_of_ok hload]

theorem findIn_dir (hg : Geometry n) (h : Good n d) {i : Nat} {blocks : List Nat} {rss : List (List DirRec)}
    (hdir : DirShape n (vol n d) i blocks rss) :
    findIn d i = fun name => if name = [] then .error (-1)
      else if 255 < name.length then .error (-4) else .ok (entryMap (entries rss.flatten) name) := by
  obtain ⟨m, hload, hm⟩ := ext2LoadMeta_eq hg h
  rw [findIn_eq hload]
  exact hdir.find_all hg h.toHolds hm.toMetaFits

theorem findIn_other (hg : Geometry n) (h : Good n d) {i : Nat}
    (hnd : ifmt ((vol n d).inode i).iMode ≠ sIfdir) :
    findIn d i = fun name => if name = [] then .error (-1)
      else if 1 ≤ i ∧ i ≤ inodesOf n then .error (-3) else .error (-2) := by
  obtain ⟨m, hload, hm⟩ := ext2LoadMeta_eq hg h
  rw [findIn_eq hload]
  exact find_other hg h.toHolds hm.toMetaFits hnd

/-- An inode whose mode and blocks have not changed holds the same names. -/
theorem findIn_frame (hg : Geometry n) (h : Good n d) (hs : Sound n (vol n d)) (h' : Good n d') {i : Nat}
    (hi : (vol n d').inode i = (vol n d).inode i)
    (hb : ∀ b ∈ (vol n d).owned i, (vol n d').blk b = (vol n d).blk b) : findIn d' i = findIn d i := by
  by_cases hmode : ifmt ((vol n d).inode i).iMode = sIfdir
  · obtain ⟨blocks, rss, hdir⟩ := hs.dirs i hmode
    have hdir' : DirShape n (vol n d') i blocks rss := by
      refine hdir.toDirShape.frame hi (fun b hb' => hb b ?_)
      rw [hdir.owned_eq]
      exact hb'
    rw [findIn_dir hg h hdir.toDirShape, findIn_dir hg h' hdir']
  · rw [findIn_other hg h hmode, findIn_other hg h' (by rw [hi]; exact hmode)]

/-- A directory in which one entry has been set. -/
theorem findIn_set (hg : Geometry n) (h : Good n d) (h' : Good n d') {i : Nat} {blocks blocks' : List Nat}
    {rss rss' : List (List DirRec)} {name : Text} {x : Option (Nat × Nat)}
    (hdir : DirShape n (vol n d) i blocks rss) (hdir' : DirShape n (vol n d') i blocks' rss')
    (hname : name ≠ []) (hlen : name.length ≤ 255)
    (hmap : entryMap (entries rss'.flatten) = Function.update (entryMap (entries rss.flatten)) name x) :
    findIn d' i = Function.update (findIn d i) name (.ok x) := by
  funext other
  rw [findIn_dir hg h hdir, findIn_dir hg h' hdir', hmap, Function.update_apply]
  dsimp only []
  rw [Function.update_apply]
  by_cases ho : other = name
  · rw [ho, if_neg hname, if_neg (by omega), if_pos rfl, if_pos rfl]
  · rw [if_neg ho, if_neg ho]

theorem dirsTiled_of_inv (h : DirInv n d) : DirsTiled d := by
  intro m i dir hload hread hmode
  obtain ⟨m', hload', hm⟩ := ext2LoadMeta_eq h.geometry h.good
  obtain rfl : m' = m := by
    rw [hload] at hload'
    cases hload'
    rfl
  have hr : 1 ≤ i ∧ i ≤ inodesOf n := by
    by_contra hout
    obtain ⟨e, he⟩ := @ext2ReadInodeAt_out n d m' hm.toMetaFits i (by omega)
    rw [he] at hread
    cases hread
  rw [ext2ReadInodeAt_eq h.geometry hm.toMetaFits h.good.toHolds hr.1 hr.2] at hread
  cases hread
  obtain ⟨blocks, rss, hdir⟩ := h.sound.dirs i hmode
  refine ⟨rss, ?_⟩
  rw [hdir.dirBlocks_eq, hm.blockSize]
  exact hdir.blocksTiled h.good.toHolds

end Inv

/-! ## Steps -/

section Steps

variable {n : Nat} {d d' : Vblk}

theorem DirStep.plain {v v' : Vol} {i : Nat} {blocks blocks' : List Nat}
    (h : DirStep n v v' i blocks blocks') (hp : ∀ j, pointerless (v.inode j) = false) (j : Nat) :
    pointerless (v'.inode j) = false := by
  by_cases hj : j = i
  · rw [hj]
    have := hp i
    unfold pointerless at this ⊢
    rw [h.mode]
    exact this
  · rw [h.inode j hj]
    exact hp j

/-- The operation that inserts an entry. -/
theorem insert_step (h : DirInv n d) {dirIno childIno fileType : Nat} {name : Text}
    (hop : (DirOp.insert dirIno childIno fileType name).Admissible d)
    (hrun : (DirOp.insert dirIno childIno fileType name).run d = .ok () d') :
    DirInv n d' ∧ EntrySet d d' dirIno name (some (childIno, fileType)) := by
  obtain ⟨hname, hchild, htype, hfree⟩ := hop
  have hne : name ≠ [] := by
    rintro rfl
    exact absurd hname.1 (by simp)
  obtain ⟨m, hload, hm⟩ := ext2LoadMeta_eq h.geometry h.good
  have hrun : ((ext2AppendDirentAt m dirIno childIno fileType name) >>= fun _ => pure ()) d
      = .ok () d' := by
    have hlook : look (fun d => ext2LoadMeta d) d = .ok m d := look_of_ok hload
    rw [← hrun, DirOp.run, bind_of_ok hlook]
  -- only a directory takes an entry
  have hmode : ifmt ((vol n d).inode dirIno).iMode = sIfdir ∧ 1 ≤ dirIno ∧ dirIno ≤ inodesOf n := by
    obtain ⟨m₁, s, happend, -⟩ := bind_ok_iff.mp hrun
    unfold ext2AppendDirentAt at happend
    obtain ⟨dir, s₁, hread, happend⟩ := bind_ok_iff.mp happend
    obtain ⟨hread, hs⟩ := look_ok_iff.mp hread
    have hr : 1 ≤ dirIno ∧ dirIno ≤ inodesOf n := by
      by_contra hout
      obtain ⟨e, he⟩ := @ext2ReadInodeAt_out n d m hm.toMetaFits dirIno (by omega)
      rw [he] at hread
      cases hread
    obtain ⟨_, s₂, hcheck, -⟩ := bind_ok_iff.mp happend
    have hnot := (failIf_ok_iff.mp hcheck).1
    rw [orCode_ok_iff, ext2ReadInodeAt_eq h.geometry hm.toMetaFits h.good.toHolds hr.1 hr.2] at hread
    cases hread
    exact ⟨not_not.mp hnot, hr⟩
  obtain ⟨blocks, rss, hdir⟩ := h.sound.dirs dirIno hmode.1
  have hnew : name ∉ names (entries rss.flatten) := by
    rw [← entryMap_eq_none]
    cases hmap : entryMap (entries rss.flatten) name with
    | none => rfl
    | some x =>
        refine absurd ?_ (hfree x)
        rw [findIn_dir h.geometry h.good hdir.toDirShape]
        dsimp only []
        rw [if_neg hne, if_neg (by omega), hmap]
  have hused : ∀ b ∈ blocks, (vol n d).used b = true := by
    intro b hb
    rw [← hdir.owned_eq] at hb
    exact (h.sound.taken dirIno).used b hb
  rcases ext2AppendDirentAt_inserted h.geometry h.good hm h.sound.metaUsed hdir.toDirShape hused hname.2
    hchild.2 hchild.1 htype with ⟨e, hfail⟩ |
      ⟨d₁, m₁, blocks', rss', es, fs, hok, hgood, hcur, hdir', hstep, hold, hentries⟩
  · rw [bind_of_error hfail] at hrun
    cases hrun
  rw [bind_of_ok hok] at hrun
  cases hrun
  rw [hold] at hnew
  have hdirAt : DirAt n (vol n d') dirIno blocks' rss' := by
    refine ⟨hdir', ?_⟩
    rw [hentries]
    refine names_insert hnew ?_
    rw [← hold]
    exact hdir.distinct
  have hsound := h.sound.insert hdir hstep hdirAt
  refine ⟨⟨h.geometry, hgood, hsound, hstep.plain h.plain⟩, ?_⟩
  unfold EntrySet
  funext i
  rw [Function.update_apply]
  by_cases hi : i = dirIno
  · rw [if_pos hi, hi]
    refine findIn_set h.geometry h.good hgood hdir.toDirShape hdir' hne hname.2 ?_
    rw [hentries, hold, entryMap_insert hnew]
  · rw [if_neg hi]
    refine findIn_frame h.geometry h.good h.sound hgood (hstep.inode i hi) (fun b hb => hstep.blk b ?_)
    intro hmem
    rcases hstep.mem hmem with hold' | hfree'
    · exact h.sound.apart_dir hdir.toDirShape hi hb hold'
    · rw [(h.sound.taken i).used b hb] at hfree'
      cases hfree'

theorem resolveIn_eq {m : Ext2Meta} (hload : ext2LoadMeta d = .ok m) (path : Text) :
    resolveIn d path = ext2ResolvePathAt d m path := by
  unfold resolveIn
  rw [except_bind_of_ok hload]

/-- What `ext2_unlink_at` has found out before it changes anything. -/
theorem ext2UnlinkAt_checked {m : Ext2Meta} (hload : ext2LoadMeta d = .ok m) {path : Text}
    (hrun : ext2UnlinkAt path d = .ok () d') :
    ∃ parent name dirIno ino type victim, splitParentName path = .ok (parent, name) ∧
      ext2ResolvePathAt d m parent = .ok dirIno ∧
      ext2FindEntryAt d m dirIno name = .ok (some (ino, type)) ∧ ext2ReadInodeAt d m ino = .ok victim ∧
      ifmt victim.iMode ≠ sIfdir ∧ victim.iBlock 14 = 0 ∧
      unlinkEntry m dirIno ino name victim d = .ok () d' := by
  have hlook : look (fun d => orCode (ext2LoadMeta d) (-2)) d = .ok m d := look_of_ok (orCode_of_ok hload)
  unfold ext2UnlinkAt at hrun
  rw [bind_of_ok hlook] at hrun
  obtain ⟨⟨parent, name⟩, s, hsplit, hrun⟩ := bind_ok_iff.mp hrun
  obtain ⟨hsplit, hs⟩ := look_ok_iff.mp hsplit
  rw [hs] at hrun
  obtain ⟨_, s, hdots, hrun⟩ := bind_ok_iff.mp hrun
  rw [(failIf_ok_iff.mp hdots).2] at hrun
  obtain ⟨dirIno, s, hresolve, hrun⟩ := bind_ok_iff.mp hrun
  obtain ⟨hresolve, hs⟩ := look_ok_iff.mp hresolve
  rw [hs] at hrun
  obtain ⟨found, s, hfind, hrun⟩ := bind_ok_iff.mp hrun
  obtain ⟨hfind, hs⟩ := look_ok_iff.mp hfind
  rw [hs] at hrun
  rcases found with _ | ⟨ino, type⟩
  · cases hrun
  obtain ⟨victim, s, hread, hrun⟩ := bind_ok_iff.mp hrun
  obtain ⟨hread, hs⟩ := look_ok_iff.mp hread
  rw [hs] at hrun
  obtain ⟨_, s, hnd, hrun⟩ := bind_ok_iff.mp hrun
  obtain ⟨hnd, hs⟩ := failIf_ok_iff.mp hnd
  rw [hs] at hrun
  obtain ⟨_, s, h14, hrun⟩ := bind_ok_iff.mp hrun
  obtain ⟨h14, hs⟩ := failIf_ok_iff.mp h14
  rw [hs] at hrun
  exact ⟨parent, name, dirIno, ino, type, victim, orCode_ok_iff.mp hsplit, orCode_ok_iff.mp hresolve,
    orCode_ok_iff.mp hfind, orCode_ok_iff.mp hread, fun h => hnd (Or.inl h), not_not.mp h14, hrun⟩

/-- The operation that removes an entry. -/
theorem remove_step (h : DirInv n d) {path : Text} (hrun : ext2UnlinkAt path d = .ok () d') :
    DirInv n d' ∧ (DirOp.remove path).Changes d d' := by
  obtain ⟨m, hload, hm⟩ := ext2LoadMeta_eq h.geometry h.good
  obtain ⟨parent, name, dirIno, ino, type, victim, hsplit, hresolve, hfind, hread, hnd, h14, hrun⟩ :=
    ext2UnlinkAt_checked hload hrun
  obtain ⟨hmode, hne, hlen⟩ := find_ok_dir h.geometry h.good.toHolds hm.toMetaFits hfind
  have hr : 1 ≤ ino ∧ ino ≤ inodesOf n := by
    by_contra hout
    obtain ⟨e, he⟩ := @ext2ReadInodeAt_out n d m hm.toMetaFits ino (by omega)
    rw [he] at hread
    cases hread
  rw [ext2ReadInodeAt_eq h.geometry hm.toMetaFits h.good.toHolds hr.1 hr.2] at hread
  cases hread
  obtain ⟨blocks, rss, hdir⟩ := h.sound.dirs dirIno hmode
  have hino : ino ≠ dirIno := by
    rintro rfl
    exact hnd hmode
  have hfound : entryMap (entries rss.flatten) name = some (ino, type) := by
    have := hdir.toDirShape.find h.geometry h.good.toHolds hm.toMetaFits hne hlen
    rw [hfind] at this
    exact (Except.ok.inj this).symm
  have hname : name ∈ names (entries rss.flatten) := by
    by_contra hnot
    rw [entryMap_eq_none.mpr hnot] at hfound
    cases hfound
  have htree : treeBlocks (vol n d).blk ((vol n d).inode ino) = (vol n d).owned ino :=
    (owned_of_pointers (h.plain ino)).symm
  obtain ⟨d₁, rss', es, fs, x, hok, hgood, hdir', hstep, hold, hnew⟩ := unlinkEntry_removed h.geometry
    h.good hm hdir hname hr.1 hr.2 hino h14 (by rw [htree]; exact h.sound.taken ino)
    (fun b hb => by rw [htree] at hb; exact h.sound.apart_dir hdir.toDirShape hino hb)
  rw [hok] at hrun
  cases hrun
  have hsound := h.sound.unlink hdir (h.plain ino) hnd hstep hdir'
  have hplain : ∀ j, pointerless ((vol n d').inode j) = false := by
    intro j
    unfold pointerless
    by_cases hj : j = ino
    · rw [hj, hstep.gone_mode]
      rfl
    · have hsame : ((vol n d').inode j).iMode = ((vol n d).inode j).iMode := by
        by_cases hji : j = dirIno
        · rw [hji, hstep.mode]
        · rw [hstep.inode j hji hj]
      rw [hsame]
      exact h.plain j
  refine ⟨⟨h.geometry, hgood, hsound, hplain⟩, parent, name, dirIno, (ino, type), hsplit, ?_, ?_, ?_⟩
  · rw [resolveIn_eq hload]
    exact hresolve
  · rw [findIn_eq hload]
    exact hfind
  · unfold EntrySet
    funext i
    rw [Function.update_apply]
    by_cases hi : i = dirIno
    · rw [if_pos hi, hi]
      refine findIn_set h.geometry h.good hgood hdir.toDirShape hdir'.toDirShape hne hlen ?_
      have hdis := hdir.distinct
      rw [hold] at hdis
      rw [hnew, hold, entryMap_remove hdis]
    · rw [if_neg hi]
      by_cases hgone : i = ino
      · -- neither the inode that was there nor the cleared one is a directory
        rw [hgone, findIn_other h.geometry h.good hnd, findIn_other h.geometry hgood (by
          rw [hstep.gone_mode]
          decide)]
      · exact findIn_frame h.geometry h.good h.sound hgood (hstep.inode i hi hgone)
          (fun b hb => hstep.blk b (h.sound.apart_dir hdir.toDirShape hi hb))

/-- `ext2_mkdir_at` has changed nothing, or has made a directory. -/
theorem ext2MkdirAt_checked {m : Ext2Meta} (hload : ext2LoadMeta d = .ok m) {path : Text} {mode : Nat}
    (hrun : ext2MkdirAt path mode d = .ok () d') :
    ∃ parent name dirIno, splitParentName path = .ok (parent, name) ∧
      ext2ResolvePathAt d m parent = .ok dirIno ∧ (d' = d ∨
        ext2FindEntryAt d m dirIno name = .ok none ∧ mkdirNew m dirIno name mode d = .ok () d') := by
  have hlook : look (fun d => (ext2LoadMeta d).mapError (fun rc => -10 + rc)) d = .ok m d :=
    look_of_ok (by rw [hload]; rfl)
  unfold ext2MkdirAt at hrun
  rw [bind_of_ok hlook] at hrun
  obtain ⟨⟨parent, name⟩, s, hsplit, hrun⟩ := bind_ok_iff.mp hrun
  obtain ⟨hsplit, hs⟩ := look_ok_iff.mp hsplit
  rw [hs] at hrun
  obtain ⟨dirIno, s, hresolve, hrun⟩ := bind_ok_iff.mp hrun
  obtain ⟨hresolve, hs⟩ := look_ok_iff.mp hresolve
  rw [hs] at hrun
  obtain ⟨found, s, hfind, hrun⟩ := bind_ok_iff.mp hrun
  obtain ⟨hfind, hs⟩ := look_ok_iff.mp hfind
  rw [hs] at hrun
  refine ⟨parent, name, dirIno, orCode_ok_iff.mp hsplit, orCode_ok_iff.mp hresolve, ?_⟩
  rcases found with _ | ⟨existing, type⟩
  · exact Or.inr ⟨orCode_ok_iff.mp hfind, hrun⟩
  · obtain ⟨ei, s, hread, hrun⟩ := bind_ok_iff.mp hrun
    obtain ⟨-, hs⟩ := look_ok_iff.mp hread
    rw [hs] at hrun
    exact Or.inl (failIf_ok_iff.mp hrun).2

/-- The operation that makes a directory. -/
theorem mkdir_step (h : DirInv n d) {path : Text} {mode : Nat}
    (hrun : ext2MkdirAt path mode d = .ok () d') :
    DirInv n d' ∧ (DirOp.mkdir path mode).Changes d d' := by
  obtain ⟨m, hload, hm⟩ := ext2LoadMeta_eq h.geometry h.good
  obtain ⟨parent, name, dirIno, hsplit, hresolve, hrest⟩ := ext2MkdirAt_checked hload hrun
  rw [← resolveIn_eq hload] at hresolve
  rcases hrest with rfl | ⟨hfind, hnewrun⟩
  · exact ⟨h, parent, name, dirIno, hsplit, hresolve, Or.inl rfl⟩
  obtain ⟨hmode, hne, hlen⟩ := find_ok_dir h.geometry h.good.toHolds hm.toMetaFits hfind
  obtain ⟨blocks, rss, hdir⟩ := h.sound.dirs dirIno hmode
  have hnew : name ∉ names (entries rss.flatten) := by
    have := hdir.toDirShape.find h.geometry h.good.toHolds hm.toMetaFits hne hlen
    rw [hfind] at this
    exact entryMap_eq_none.mp (Except.ok.inj this).symm
  obtain ⟨hgood, i, c, now, v₁, v₂, blocks', rss', es, fs, hmade⟩ :=
    mkdirNew_made h.geometry h.good h.sound hm hdir hlen hnewrun
  obtain ⟨hsound, hdir', hchild⟩ := h.sound.madeDir h.geometry hdir (mkdirMode_lt mode) hnew hmade
  have hpi : dirIno ≠ i := by
    rintro rfl
    have hlive := hmade.free
    rw [h.sound.dirLive dirIno hmode] at hlive
    cases hlive
  have hplain : ∀ j, pointerless ((vol n d').inode j) = false := by
    intro j
    by_cases hj : j = i
    · rw [hj]
      exact pointerless_of_dir hchild.mode
    · by_cases hjp : j = dirIno
      · rw [hjp]
        exact pointerless_of_dir hdir'.mode
      · rw [hmade.inode_same hj hjp]
        exact h.plain j
  refine ⟨⟨h.geometry, hgood, hsound, hplain⟩, parent, name, dirIno, hsplit, hresolve, Or.inr ⟨i, ?_, ?_, ?_⟩⟩
  · rw [findIn_eq hload]
    exact hfind
  · have hset := findIn_set h.geometry h.good hgood hdir.toDirShape hdir'.toDirShape hne hlen
      (x := some (i, 2)) (by
        rw [hmade.new, hmade.old, entryMap_insert]
        rw [← hmade.old]
        exact hnew)
    rw [hset, Function.update_self]
  · intro j other hj hother
    by_cases hjp : j = dirIno
    · have hset := findIn_set h.geometry h.good hgood hdir.toDirShape hdir'.toDirShape hne hlen
        (x := some (i, 2)) (by
          rw [hmade.new, hmade.old, entryMap_insert]
          rw [← hmade.old]
          exact hnew)
      rw [hjp, hset, Function.update_of_ne]
      rintro rfl
      exact hother (by rw [hjp])
    · rw [findIn_frame h.geometry h.good h.sound hgood (hmade.inode_same hj hjp) (fun b hb =>
        hmade.blk_same ((h.sound.taken j).used b hb) (h.sound.apart_dir hdir.toDirShape hjp hb))]

theorem DirOp.step (h : DirInv n d) {op : DirOp} (hop : op.Admissible d) (hrun : op.run d = .ok () d') :
    DirInv n d' ∧ op.Changes d d' := by
  cases op with
  | insert dirIno childIno fileType name => exact insert_step h hop hrun
  | remove path => exact remove_step h hrun
  | mkdir path mode => exact mkdir_step h hrun

theorem DirRuns.inv {d₀ : Vblk} (h : DirInv n d₀) (hrun : DirRuns d₀ d) : DirInv n d := by
  induction hrun with
  | start => exact h
  | step _ hop hstep ih => exact (DirOp.step ih hop hstep).1

end Steps

/-! ## From a fresh filesystem -/

section Run

variable {bytes : Nat} {label : Text} {d d₀ d₁ : Vblk}

/-- No operation succeeds on a device that `ext2_load_meta` does not take. -/
theorem DirOp.run_not_ok (h : ∀ m, ext2LoadMeta d ≠ .ok m) (op : DirOp) {d' : Vblk} :
    op.run d ≠ .ok () d' := by
  intro hrun
  cases op with
  | insert dirIno childIno fileType name =>
      obtain ⟨m, s, hlook, -⟩ := bind_ok_iff.mp hrun
      exact h m (look_ok_iff.mp hlook).1
  | remove path =>
      obtain ⟨m, s, hlook, -⟩ := bind_ok_iff.mp hrun
      exact h m (orCode_ok_iff.mp (look_ok_iff.mp hlook).1)
  | mkdir path mode =>
      obtain ⟨m, s, hlook, -⟩ := bind_ok_iff.mp hrun
      have hload := (look_ok_iff.mp hlook).1
      cases hl : ext2LoadMeta d with
      | ok m' => exact h m' hl
      | error e =>
          rw [hl] at hload
          cases hload

theorem mkfs_dirInv (hmk : mkfsExt2Core bytes label d = .ok () d₀) (hsize : bytes ≤ d.limit)
    (hle : groupsOf (bytes / 4096) ≤ 1024) : DirInv (bytes / 4096) d₀ := by
  have hf := formattable_of_ok hmk
  obtain ⟨-, hfits, rfl⟩ := mkfsExt2Core_ok_iff.mp hmk
  have hro := (hfits 0 (by rw [hf.groups]; exact hf.pos)).writable
  refine ⟨hf.geometry hle, fresh_good hf hle ?_ hro, fresh_sound hf hle, fun i => ?_⟩
  · exact le_trans (Nat.div_mul_le_self bytes 4096) hsize
  · rw [fresh_inode hf hle]
    by_cases hi : i = 2
    · rw [if_pos hi]
      refine pointerless_of_dir ?_
      rw [rootInode_mode]
      rfl
    · rw [if_neg hi]
      rfl

end Run

/-! ## A name that is there already -/

/-- The record of `..` in the root has room for another one. -/
theorem fresh_append_dot {n now now' : Nat} {label : Text} {d : Vblk} {f : Nat → Mem} {m : Ext2Meta}
    (hf : Formattable n) (hle : groupsOf n ≤ 1024)
    (h : Good n (d.image (freshBlock n now now' label f)))
    (hm : Current n (vol n (d.image (freshBlock n now now' label f))) m) :
    ∃ d₁, ext2AppendDirentAt m 2 12 1 [dot] (d.image (freshBlock n now now' label f)) = .ok m d₁ ∧
      Good n d₁ ∧ DirShape n (vol n d₁) 2 [dataStart n]
        [[⟨2, 12, 2, [dot]⟩, ⟨2, 12, 2, dotdot⟩, ⟨12, 4072, 1, [dot]⟩]] := by
  have hg := hf.geometry hle
  have hroot := @fresh_root n now now' label d f hf hle
  generalize d.image (freshBlock n now now' label f) = d₀ at h hm hroot ⊢
  have hb := hroot.data (dataStart n) List.mem_cons_self
  have htiles : Tiles ((vol n d₀).blk (dataStart n)) 0 rootRecords 4096 :=
    (List.forall₂_cons.mp hroot.tiles).1
  obtain ⟨d₁, hrun, hgood, -, hshape, -⟩ := @splitWrites_ok n 2 12 1 d₀ m [dot] hg h hm (dataStart n)
    [] [] [] [] [⟨2, 12, 2, [dot]⟩] [] ⟨2, 4084, 2, dotdot⟩ hroot.toDirShape (by decide) (by decide)
    (by decide) List.Forall₂.nil htiles List.Forall₂.nil (by decide)
  refine ⟨d₁, ?_, hgood, hshape⟩
  have hpick : (positions 4096 ((vol n d₀).blk (dataStart n))).find?
      (deSlack (direntMinRecLen 1) ((vol n d₀).blk (dataStart n))) = some 12 := by
    rw [positions_of_tiles htiles (by omega), deSlack_eq]
    obtain ⟨hfirst, -, hsecond, -⟩ := htiles
    show [0, 12].find? _ = _
    rw [List.find?_cons_of_neg, List.find?_cons_of_pos]
    · rw [show recAt ((vol n d₀).blk (dataStart n)) 12 = _ from hsecond]
      decide
    · rw [hfirst]
      decide
  have hfind : findBlock d₀ m.blockSize (-4) (fun blk => (positions m.blockSize blk).find?
      (deSlack (direntMinRecLen 1) blk)) [dataStart n]
      = .ok (some (dataStart n, (vol n d₀).blk (dataStart n), 12)) := by
    rw [hm.blockSize, findBlock,
      except_bind_of_ok (orCode_of_ok (preadBlock_data h.toHolds hb.lt hb.notMeta)), hpick]
  unfold ext2AppendDirentAt
  refine bind_look (orCode_of_ok (ext2ReadInodeAt_eq hg hm.toMetaFits h.toHolds hroot.range.1
    hroot.range.2)) ?_
  rw [bind_of_ok (failIf_of_not (not_not.mpr hroot.mode)), hroot.dirBlocks_eq]
  exact bind_look hfind hrun

end Guppy.Ext2
