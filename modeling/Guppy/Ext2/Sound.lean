import Guppy.Ext2.DirOps
import Guppy.Ext2.FreshVolume

set_option autoImplicit false

/-! # Sound volumes

On a sound volume metadata is marked used, every block that an inode points to is a data block
that is marked used and that no other pointer points to, and every directory is well formed.
A fresh filesystem is sound, and inserting and removing entries keeps a volume sound.
-/

namespace Guppy.Ext2

open Prog Vfs

/-- Symbolic links and devices keep something else than pointers in `i_block`. -/
def pointerless (file : Inode) : Bool :=
  ifmt file.iMode = sIflnk ∨ ifmt file.iMode = sIfchr ∨ ifmt file.iMode = sIfblk

/-- The blocks of inode `i`. -/
def Vol.owned (v : Vol) (i : Nat) : List Nat :=
  if pointerless (v.inode i) then [] else treeBlocks v.blk (v.inode i)

structure Sound (n : Nat) (v : Vol) : Prop where
  metaUsed : ∀ b, b < n → isMeta n b = true → v.used b = true
  taken : ∀ i, Taken n v.used (v.owned i)
  apart : ∀ i j, i ≠ j → ∀ b ∈ v.owned i, b ∉ v.owned j
  dirs : ∀ i, ifmt (v.inode i).iMode = sIfdir → ∃ blocks rss, DirAt n v i blocks rss
  dirLive : ∀ i, ifmt (v.inode i).iMode = sIfdir → v.live i = true
  rootDir : ifmt (v.inode 2).iMode = sIfdir

section Owned

variable {n i j ino : Nat} {v v' : Vol} {blocks blocks' : List Nat} {rss rss' : List (List DirRec)}

theorem owned_of_pointers (h : pointerless (v.inode i) = false) :
    v.owned i = treeBlocks v.blk (v.inode i) := by
  unfold Vol.owned
  rw [h]
  rfl

theorem pointerless_of_dir {file : Inode} (h : ifmt file.iMode = sIfdir) : pointerless file = false := by
  unfold pointerless
  rw [h]
  rfl

theorem DirShape.owned_eq (h : DirShape n v i blocks rss) : v.owned i = blocks := by
  rw [owned_of_pointers (pointerless_of_dir h.mode), h.treeBlocks_eq]

/-- An inode that has not changed owns the same blocks when these have not changed. -/
theorem owned_frame (hi : v'.inode i = v.inode i) (hb : ∀ b ∈ v.owned i, v'.blk b = v.blk b) :
    v'.owned i = v.owned i := by
  unfold Vol.owned at hb ⊢
  rw [hi]
  by_cases hp : pointerless (v.inode i) = true
  · rw [if_pos hp, if_pos hp]
  · rw [if_neg hp] at hb
    rw [if_neg hp, if_neg hp]
    exact treeBlocks_congr hb

theorem Sound.rootLive (h : Sound n v) : v.live 2 = true := h.dirLive 2 h.rootDir

theorem Sound.blockZero (h : Sound n v) (hg : Geometry n) : v.used 0 = true := by
  have hpos := hg.group_end hg.pos
  refine h.metaUsed 0 (by omega) ?_
  unfold isMeta dataStart
  rw [decide_eq_true_eq]
  omega

/-- A directory and an inode that is none own no block together. -/
theorem Sound.apart_dir (h : Sound n v) (hdir : DirShape n v i blocks rss) (hij : j ≠ i) {b : Nat}
    (hb : b ∈ v.owned j) : b ∉ blocks := by
  rw [← hdir.owned_eq]
  exact h.apart j i hij b hb

/-- The blocks of an inode whose directory record goes are still those of other inodes. -/
theorem Sound.dir_frame (h : Sound n v) (hmode : ifmt (v'.inode j).iMode = sIfdir)
    (hi : v'.inode j = v.inode j) (hb : ∀ b ∈ v.owned j, v'.blk b = v.blk b) :
    ∃ blocks rss, DirAt n v' j blocks rss := by
  rw [hi] at hmode
  obtain ⟨blocks, rss, hdir⟩ := h.dirs j hmode
  refine ⟨blocks, rss, hdir.toDirShape.frame hi (fun b hb' => hb b ?_), hdir.distinct⟩
  rw [hdir.owned_eq]
  exact hb'

end Owned

/-! ## Inserting an entry -/

section Insert

variable {n i : Nat} {v v' : Vol} {blocks blocks' : List Nat} {rss rss' : List (List DirRec)}

/-- The bits that inserting an entry clears: none. -/
theorem DirStep.used_mono (h : DirStep n v v' i blocks blocks') {b : Nat} (hb : v.used b = true) :
    v'.used b = true := by
  rcases h.grown with ⟨-, hu⟩ | ⟨c, -, -, -, hu⟩
  · rw [hu]
    exact hb
  · rw [hu, Function.update_apply]
    split
    · rfl
    · exact hb

/-- The blocks of the directory after the step are its own or were free. -/
theorem DirStep.mem (h : DirStep n v v' i blocks blocks') {b : Nat} (hb : b ∈ blocks') :
    b ∈ blocks ∨ v.used b = false := by
  rcases h.grown with ⟨heq, -⟩ | ⟨c, heq, -, hfree, -⟩
  · rw [heq] at hb
    exact Or.inl hb
  · rw [heq] at hb
    rcases List.mem_append.mp hb with hb | hb
    · exact Or.inl hb
    · rw [List.mem_singleton.mp hb]
      exact Or.inr hfree

theorem Sound.insert (h : Sound n v) (hdir : DirAt n v i blocks rss)
    (hstep : DirStep n v v' i blocks blocks') (hdir' : DirAt n v' i blocks' rss') : Sound n v' := by
  -- the blocks of other inodes are none of the directory's, before and after
  have hother : ∀ j, j ≠ i → ∀ b ∈ v.owned j, b ∉ blocks' := by
    intro j hj b hb hmem
    rcases hstep.mem hmem with hold | hfree
    · exact h.apart_dir hdir.toDirShape hj hb hold
    · rw [(h.taken j).used b hb] at hfree
      cases hfree
  have hframe : ∀ j, j ≠ i → ∀ b ∈ v.owned j, v'.blk b = v.blk b :=
    fun j hj b hb => hstep.blk b (hother j hj b hb)
  have howned : ∀ j, j ≠ i → v'.owned j = v.owned j :=
    fun j hj => owned_frame (hstep.inode j hj) (hframe j hj)
  have hself : v'.owned i = blocks' := hdir'.owned_eq
  refine ⟨fun b hb hm => hstep.used_mono (h.metaUsed b hb hm), fun j => ?_, fun j k hjk b hb => ?_,
    fun j hmode => ?_, ?_, ?_⟩
  · by_cases hj : j = i
    · rw [hj, hself]
      refine ⟨hdir'.nodup, hdir'.data, fun b hb => ?_⟩
      rcases hstep.grown with ⟨heq, -⟩ | ⟨c, heq, -, -, hu⟩
      · rw [heq, ← hdir.owned_eq] at hb
        exact hstep.used_mono ((h.taken i).used b hb)
      · rw [heq, ← hdir.owned_eq] at hb
        rcases List.mem_append.mp hb with hb | hb
        · exact hstep.used_mono ((h.taken i).used b hb)
        · rw [List.mem_singleton.mp hb, hu, Function.update_self]
    · rw [howned j hj]
      exact ⟨(h.taken j).nodup, (h.taken j).data, fun b hb => hstep.used_mono ((h.taken j).used b hb)⟩
  · by_cases hj : j = i
    · rw [hj, hself] at hb
      rw [howned k (by rw [← hj]; exact hjk.symm)]
      exact fun hk => hother k (by rw [← hj]; exact hjk.symm) b hk hb
    · rw [howned j hj] at hb
      by_cases hk : k = i
      · rw [hk, hself]
        exact hother j hj b hb
      · rw [howned k hk]
        exact h.apart j k hjk b hb
  · by_cases hj : j = i
    · rw [hj]
      exact ⟨blocks', rss', hdir'⟩
    · exact h.dir_frame hmode (hstep.inode j hj) (hframe j hj)
  · intro j hmode
    rw [hstep.live]
    by_cases hj : j = i
    · rw [hj]
      exact h.dirLive i hdir.mode
    · rw [hstep.inode j hj] at hmode
      exact h.dirLive j hmode
  · by_cases h2 : 2 = i
    · rw [h2]
      exact hdir'.mode
    · rw [hstep.inode 2 h2]
      exact h.rootDir

end Insert

/-! ## Removing an entry -/

section Remove

variable {n i ino : Nat} {v v' : Vol} {blocks : List Nat} {rss rss' : List (List DirRec)}

/-- The inode that `ext2_unlink_at` leaves. -/
theorem gone_fields (now : Nat) :
    Inode.iMode ((Inode.setDtime Mem.zero now).slice 0 128) = 0 ∧
      ∀ k, k < 15 → Inode.iBlock ((Inode.setDtime Mem.zero now).slice 0 128) k = 0 := by
  constructor
  · unfold Inode.iMode Inode.setDtime Mem.wr32
    rw [rd16_slice_zero (by omega), Mem.rd16_write_out (by omega), Mem.rd16_zero]
  · intro k hk
    unfold Inode.iBlock Inode.setDtime Mem.wr32
    rw [rd32_slice_zero (by omega), Mem.rd32_write_out (by omega), Mem.rd32_zero]

theorem UnlinkStep.gone_mode (h : UnlinkStep n v v' i ino blocks) : (v'.inode ino).iMode = 0 := by
  obtain ⟨now, hgone⟩ := h.gone
  rw [hgone]
  exact (gone_fields now).1

theorem UnlinkStep.gone_owned (h : UnlinkStep n v v' i ino blocks) : v'.owned ino = [] := by
  obtain ⟨now, hgone⟩ := h.gone
  have hmode : pointerless (v'.inode ino) = false := by
    unfold pointerless
    rw [h.gone_mode]
    rfl
  rw [owned_of_pointers hmode, hgone]
  exact treeBlocks_empty (fun k hk => (gone_fields now).2 k (by omega))

theorem Sound.unlink (h : Sound n v) (hdir : DirAt n v i blocks rss)
    (hp : pointerless (v.inode ino) = false) (hnd : ifmt (v.inode ino).iMode ≠ sIfdir)
    (hstep : UnlinkStep n v v' i ino blocks) (hdir' : DirAt n v' i blocks rss') : Sound n v' := by
  have htree : treeBlocks v.blk (v.inode ino) = v.owned ino := (owned_of_pointers hp).symm
  have hne : ino ≠ i := by
    rintro rfl
    exact hnd hdir.mode
  -- only the blocks of the inode are freed
  have hkept : ∀ j, j ≠ ino → ∀ b ∈ v.owned j, v'.used b = true := by
    intro j hj b hb
    rw [hstep.used, htree, without_of_not_mem (h.apart j ino hj b hb)]
    exact (h.taken j).used b hb
  have hframe : ∀ j, j ≠ i → ∀ b ∈ v.owned j, v'.blk b = v.blk b :=
    fun j hj b hb => hstep.blk b (h.apart_dir hdir.toDirShape hj hb)
  have hself : v'.owned i = v.owned i := by rw [hdir'.owned_eq, hdir.owned_eq]
  have howned : ∀ j, j ≠ ino → v'.owned j = v.owned j := by
    intro j hj
    by_cases hji : j = i
    · rw [hji]
      exact hself
    · exact owned_frame (hstep.inode j hji hj) (hframe j hji)
  refine ⟨fun b hb hm => ?_, fun j => ?_, fun j k hjk b hb => ?_, fun j hmode => ?_, ?_, ?_⟩
  · rw [hstep.used, htree, without_of_not_mem]
    · exact h.metaUsed b hb hm
    · intro hmem
      have := ((h.taken ino).data b hmem).notMeta
      rw [hm] at this
      cases this
  · by_cases hj : j = ino
    · rw [hj, hstep.gone_owned]
      exact ⟨List.nodup_nil, fun b hb => absurd hb List.not_mem_nil, fun b hb => absurd hb List.not_mem_nil⟩
    · rw [howned j hj]
      exact ⟨(h.taken j).nodup, (h.taken j).data, hkept j hj⟩
  · by_cases hj : j = ino
    · rw [hj, hstep.gone_owned] at hb
      exact absurd hb List.not_mem_nil
    · rw [howned j hj] at hb
      by_cases hk : k = ino
      · rw [hk, hstep.gone_owned]
        exact List.not_mem_nil
      · rw [howned k hk]
        exact h.apart j k hjk b hb
  · have hj : j ≠ ino := by
      rintro rfl
      rw [hstep.gone_mode] at hmode
      cases hmode
    by_cases hji : j = i
    · rw [hji]
      exact ⟨blocks, rss', hdir'⟩
    · exact h.dir_frame hmode (hstep.inode j hji hj) (hframe j hji)
  · intro j hmode
    have hj : j ≠ ino := by
      rintro rfl
      rw [hstep.gone_mode] at hmode
      cases hmode
    rw [hstep.live, Function.update_of_ne hj]
    by_cases hji : j = i
    · rw [hji]
      exact h.dirLive i hdir.mode
    · rw [hstep.inode j hji hj] at hmode
      exact h.dirLive j hmode
  · have h2 : 2 ≠ ino := by
      rintro rfl
      exact hnd h.rootDir
    by_cases hi : 2 = i
    · rw [hi]
      exact hdir'.mode
    · rw [hstep.inode 2 hi h2]
      exact h.rootDir

end Remove

/-! ## One inode gets other blocks -/

section Reown

variable {n i : Nat} {v v' : Vol}

/-- Inode `i` changes, and what the others own does not. -/
theorem Sound.reown (h : Sound n v) (h2 : i ≠ 2) (hinode : ∀ j, j ≠ i → v'.inode j = v.inode j)
    (hblk : ∀ j, j ≠ i → ∀ b ∈ v.owned j, v'.blk b = v.blk b)
    (hused : ∀ j, j ≠ i → ∀ b ∈ v.owned j, v'.used b = true)
    (hmeta : ∀ b, b < n → isMeta n b = true → v'.used b = true)
    (hlive : ∀ j, j ≠ i → v.live j = true → v'.live j = true)
    (htaken : Taken n v'.used (v'.owned i)) (hapart : ∀ j, j ≠ i → ∀ b ∈ v'.owned i, b ∉ v.owned j)
    (hdir : ifmt (v'.inode i).iMode = sIfdir →
      (∃ blocks rss, DirAt n v' i blocks rss) ∧ v'.live i = true) : Sound n v' := by
  have howned : ∀ j, j ≠ i → v'.owned j = v.owned j :=
    fun j hj => owned_frame (hinode j hj) (hblk j hj)
  refine ⟨hmeta, fun j => ?_, fun j k hjk b hb => ?_, fun j hmode => ?_, fun j hmode => ?_, ?_⟩
  · by_cases hj : j = i
    · rw [hj]
      exact htaken
    · rw [howned j hj]
      exact ⟨(h.taken j).nodup, (h.taken j).data, hused j hj⟩
  · by_cases hj : j = i
    · rw [howned k (by rw [← hj]; exact hjk.symm)]
      rw [hj] at hb
      exact hapart k (by rw [← hj]; exact hjk.symm) b hb
    · rw [howned j hj] at hb
      by_cases hk : k = i
      · rw [hk]
        exact fun hi => hapart j hj b hi hb
      · rw [howned k hk]
        exact h.apart j k hjk b hb
  · by_cases hj : j = i
    · rw [hj] at hmode ⊢
      exact (hdir hmode).1
    · exact h.dir_frame hmode (hinode j hj) (hblk j hj)
  · by_cases hj : j = i
    · rw [hj] at hmode ⊢
      exact (hdir hmode).2
    · rw [hinode j hj] at hmode
      exact hlive j hj (h.dirLive j hmode)
  · rw [hinode 2 h2.symm]
    exact h.rootDir

end Reown

/-! ## Fields that do not matter -/

section Fields

variable {n : Nat} {v v' : Vol}

theorem owned_of_fields {i : Nat} (hmode : (v'.inode i).iMode = (v.inode i).iMode)
    (hblock : ∀ k, k < 15 → (v'.inode i).iBlock k = (v.inode i).iBlock k) (hblk : v'.blk = v.blk) :
    v'.owned i = v.owned i := by
  unfold Vol.owned pointerless
  rw [hmode, hblk, treeBlocks_of_pointers (fun k hk => hblock k (by omega))]

/-- A volume is sound when its inodes agree with those of a sound one in mode, size and
pointers. -/
theorem Sound.of_fields (h : Sound n v) (hused : v'.used = v.used) (hlive : v'.live = v.live)
    (hblk : v'.blk = v.blk) (hmode : ∀ i, (v'.inode i).iMode = (v.inode i).iMode)
    (hsize : ∀ i, (v'.inode i).iSize = (v.inode i).iSize)
    (hblock : ∀ i k, k < 15 → (v'.inode i).iBlock k = (v.inode i).iBlock k) : Sound n v' := by
  have howned : ∀ i, v'.owned i = v.owned i :=
    fun i => owned_of_fields (hmode i) (hblock i) hblk
  refine ⟨?_, fun i => ?_, fun i j hij b hb => ?_, fun i hd => ?_, fun i hd => ?_, ?_⟩
  · rw [hused]
    exact h.metaUsed
  · rw [hused, howned]
    exact h.taken i
  · rw [howned] at hb ⊢
    exact h.apart i j hij b hb
  · rw [hmode] at hd
    obtain ⟨blocks, rss, hdir⟩ := h.dirs i hd
    exact ⟨blocks, rss, hdir.toDirShape.of_fields (hmode i) (hsize i) (hblock i)
      (fun b _ => by rw [hblk]), hdir.distinct⟩
  · rw [hmode] at hd
    rw [hlive]
    exact h.dirLive i hd
  · rw [hmode]
    exact h.rootDir

end Fields

/-! ## A fresh filesystem -/

section Fresh

variable {n now now' : Nat} {label : Text} {d : Vblk} {f : Nat → Mem}

theorem rootInode_size (b : Nat) : Inode.iSize ((mkfsRootInode now b).slice 0 128) = 4096 := by
  unfold Inode.iSize
  rw [rd32_slice_zero (by omega)]
  unfold mkfsRootInode Inode.stamp Inode.setBlock Inode.setBlocks Inode.setAtime Inode.setCtime
    Inode.setMtime Inode.setSize Inode.setLinksCount Inode.setMode Mem.wr32 Mem.wr16
  simp (disch := omega) only [Mem.rd32_write_out, Mem.rd32_write_in, Nat.sub_self, Mem.rd32_le]

def rootRecords : List DirRec := [⟨2, 12, 2, [dot]⟩, ⟨2, 4084, 2, dotdot⟩]

theorem fresh_root (h : Formattable n) (hle : groupsOf n ≤ 1024) :
    DirAt n (vol n (d.image (freshBlock n now now' label f))) 2 [dataStart n] [rootRecords] := by
  have hg := h.geometry hle
  have hpos := h.pos
  have hend := hg.group_end hg.pos
  have hlt : dataStart n < uint32 := by
    have := hg.lt_uint32
    exact lt_trans (lt_trans (by omega) this) (by decide)
  have hroom := h.group_end h.pos
  have hds : dataStart n = gdtBlocksOf n + 35 := rfl
  have hinode : (vol n (d.image (freshBlock n now now' label f))).inode 2
      = (mkfsRootInode now' (dataStart n)).slice 0 128 := by
    rw [fresh_inode h hle, if_pos rfl]
  refine ⟨⟨⟨by omega, by unfold inodesOf; omega⟩, ?_, by simp, fun k hk => ?_, ?_,
    List.nodup_singleton _, fun b hb => ?_, List.Forall₂.cons ?_ List.Forall₂.nil⟩, ?_⟩
  · rw [hinode, rootInode_mode]
    rfl
  · rw [hinode, rootInode_block hlt hk]
    cases k with
    | zero => rfl
    | succ k => rfl
  · rw [hinode, rootInode_size, List.length_singleton, Nat.one_mul]
  · rw [List.mem_singleton.mp hb]
    exact ⟨by omega, isMeta_eq_false.mpr (by omega)⟩
  · rw [fresh_root_blk h]
    exact (@tiles_newDirBlock 2 2 (by decide) (by decide)).slice
  · decide

/-- No other inode of a fresh filesystem owns a block. -/
theorem fresh_owned (h : Formattable n) (hle : groupsOf n ≤ 1024) {i : Nat} (hi : i ≠ 2) :
    (vol n (d.image (freshBlock n now now' label f))).owned i = [] := by
  have hzero : (vol n (d.image (freshBlock n now now' label f))).inode i = Mem.zero := by
    rw [fresh_inode h hle, if_neg hi]
  rw [owned_of_pointers (by rw [hzero]; rfl), hzero]
  exact treeBlocks_empty (fun k _ => Mem.rd32_zero _)

theorem fresh_sound (h : Formattable n) (hle : groupsOf n ≤ 1024) :
    Sound n (vol n (d.image (freshBlock n now now' label f))) := by
  have hroot := @fresh_root n now now' label d f h hle
  have hg := h.geometry hle
  have honly : ∀ i, ifmt ((vol n (d.image (freshBlock n now now' label f))).inode i).iMode = sIfdir →
      i = 2 := by
    intro i hmode
    by_contra hi
    rw [fresh_inode h hle, if_neg hi] at hmode
    cases hmode
  refine ⟨fun b hb hm => ?_, fun i => ?_, fun i j hij b hb => ?_, fun i hmode => ?_, fun i hmode => ?_,
    hroot.mode⟩
  · unfold isMeta at hm
    rw [fresh_used h hle hb, decide_eq_true_eq]
    exact Or.inl (by simpa using hm)
  · by_cases hi : i = 2
    · rw [hi, hroot.owned_eq]
      refine ⟨hroot.nodup, hroot.data, fun b hb => ?_⟩
      rw [fresh_used h hle (hroot.data b hb).lt, decide_eq_true_eq]
      exact Or.inr (List.mem_singleton.mp hb)
    · rw [fresh_owned h hle hi]
      exact ⟨List.nodup_nil, fun b hb => absurd hb List.not_mem_nil, fun b hb => absurd hb List.not_mem_nil⟩
  · by_cases hi : i = 2
    · rw [fresh_owned h hle (by rw [← hi]; exact hij.symm)]
      exact List.not_mem_nil
    · rw [fresh_owned h hle hi] at hb
      exact absurd hb List.not_mem_nil
  · rw [honly i hmode]
    exact ⟨_, _, hroot⟩
  · rw [honly i hmode, fresh_live h hle (by omega) (by unfold inodesOf; have := hg.pos; omega)]
    rfl

end Fresh

end Guppy.Ext2
