import Guppy.Ext2.Sound

set_option autoImplicit false

/-! # New directories, devices and links

`ext2_mkdir_at`, `ext2_mknod_at` and `ext2_symlink_at` on a sound volume, from the point where
the parent is known not to hold the name. When they succeed, the volume has a new inode and
one entry that names it.
-/

namespace Guppy.Ext2

open Prog Vfs

/-! ## Inodes that are written whole -/

section Fields

variable {now : Nat}

/-- The inode of a new directory. -/
def newDirInode (mode now c : Nat) : Inode :=
  (((((Inode.setMode Mem.zero (sIfdir + mode)).setSize 4096).stamp now).setLinksCount 2).setBlocks
    (4096 / 512)).setBlock 0 c

/-- The fields of an inode that the operations and the checker read. -/
structure InodeFields (p : Inode) (mode links size dtime : Nat) (block : Nat → Nat) : Prop where
  mode : p.iMode = mode
  links : p.iLinksCount = links
  size : p.iSize = size
  dtime : p.iDtime = dtime
  block : ∀ k, k < 15 → p.iBlock k = block k

theorem newDirInode_fields {mode c : Nat} (hmode : mode < 512) (hc : c < uint32) :
    InodeFields ((newDirInode mode now c).slice 0 128) (sIfdir + mode) 2 4096 0
      (fun k => if k = 0 then c else 0) := by
  have hm : (sIfdir + mode) % 65536 = sIfdir + mode := Nat.mod_eq_of_lt (by unfold sIfdir; omega)
  have hc' : c % 4294967296 = c := Nat.mod_eq_of_lt hc
  unfold newDirInode Inode.setMode Inode.setSize Inode.stamp Inode.setLinksCount Inode.setBlocks
    Inode.setBlock Inode.setAtime Inode.setCtime Inode.setMtime Mem.wr32 Mem.wr16
  refine ⟨?_, ?_, ?_, ?_, fun k hk => ?_⟩
  · unfold Inode.iMode
    rw [rd16_slice_zero (by omega)]
    simp (disch := omega) only [Mem.rd16_write_out, Mem.rd16_write_in, Nat.sub_self, Mem.rd16_le]
    exact hm
  · unfold Inode.iLinksCount
    rw [rd16_slice_zero (by omega)]
    simp (disch := omega) only [Mem.rd16_write_out, Mem.rd16_write_in, Nat.sub_self, Mem.rd16_le]
  · unfold Inode.iSize
    rw [rd32_slice_zero (by omega)]
    simp (disch := omega) only [Mem.rd32_write_out, Mem.rd32_write_in, Nat.sub_self, Mem.rd32_le]
  · unfold Inode.iDtime
    rw [rd32_slice_zero (by omega)]
    simp (disch := omega) only [Mem.rd32_write_out, Mem.rd32_zero]
  · unfold Inode.iBlock
    rw [rd32_slice_zero (by omega)]
    by_cases h0 : k = 0
    · rw [if_pos h0, h0]
      simp (disch := omega) only [Mem.rd32_write_in, Nat.sub_self, Mem.rd32_le]
      exact hc'
    · rw [if_neg h0]
      simp (disch := omega) only [Mem.rd32_write_out, Mem.rd32_zero]

/-- The inode of a directory with a link more. -/
theorem linkedInode_fields (p : Inode) :
    InodeFields (((p.setLinksCount (p.iLinksCount + 1)).touch now).slice 0 128) p.iMode
      ((p.iLinksCount + 1) % 65536) p.iSize p.iDtime p.iBlock := by
  refine ⟨?_, ?_, ?_, ?_, fun k hk => ?_⟩
  · rw [touch_mode]
    unfold Inode.iMode Inode.setLinksCount Mem.wr16
    rw [Mem.rd16_write_out (by omega)]
  · rw [touch_links]
    unfold Inode.iLinksCount Inode.setLinksCount
    rw [Mem.rd16_wr16_self]
  · rw [touch_size]
    unfold Inode.iSize Inode.setLinksCount Mem.wr16
    rw [Mem.rd32_write_out (by omega)]
  · rw [touch_dtime]
    unfold Inode.iDtime Inode.setLinksCount Mem.wr16
    rw [Mem.rd32_write_out (by omega)]
  · rw [touch_block _ _ _ hk]
    unfold Inode.iBlock Inode.setLinksCount Mem.wr16
    rw [Mem.rd32_write_out (by omega)]

theorem ifmt_dir {mode : Nat} (h : mode < 512) : ifmt (sIfdir + mode) = sIfdir := by
  unfold ifmt sIfdir
  omega

end Fields

/-! ## The count of directories -/

section UsedDirs

variable {n : Nat} {v : Vol} {m : Ext2Meta}

theorem Current.setUsedDirs (h : Current n v m) (g c : Nat) :
    Current n v (m.setGd g ((m.gd g).setUsedDirsCount c)) where
  head := by
    refine h.head.of_agree (fun i _ => rfl) (fun g' _ i hi => ?_)
    show Function.update m.gd g _ g' i = m.gd g' i
    rw [Function.update_apply]
    split
    · rename_i hgg
      rw [hgg]
      exact Mem.write_out (by omega)
    · rfl
  groupCount := h.groupCount
  blockSize := h.blockSize
  gdtBlk := h.gdtBlk
  gdtBlocks := h.gdtBlocks
  counts := by
    have hsame : ∀ g' o, o + 2 ≤ 16 → (Function.update m.gd g ((m.gd g).setUsedDirsCount c) g').rd16 o
        = (m.gd g').rd16 o := by
      intro g' o ho
      rw [Function.update_apply]
      split
      · rename_i hgg
        rw [hgg]
        exact Mem.rd16_write_out (by omega)
      · rfl
    refine ⟨fun g' hg' => ?_, fun g' hg' => ?_, h.counts.allBlocks, h.counts.allInodes⟩
    · exact (hsame g' 12 (by omega)).trans (h.counts.blocks g' hg')
    · exact (hsame g' 14 (by omega)).trans (h.counts.inodes g' hg')

end UsedDirs

/-! ## Directories -/

section Mkdir

variable {n i c p : Nat} {v : Vol} {d : Vblk} {m : Ext2Meta} {blocks : List Nat}
  {rss : List (List DirRec)} {name : Text}

/-- The volume with a new directory `i` in block `c` that no entry names yet. -/
def Vol.newDir (v : Vol) (i c : Nat) (inode : Inode) (blk : Mem) : Vol where
  used := Function.update v.used c true
  live := Function.update v.live i true
  inode := Function.update v.inode i inode
  blk := Function.update v.blk c blk

def newDirRecords (i p : Nat) : List DirRec := [⟨i, 12, 2, [dot]⟩, ⟨p, 4084, 2, dotdot⟩]

theorem dirAt_newDir {mode now : Nat} (hi : 11 ≤ i) (hi' : i ≤ inodesOf n) (hc : DataBlock n c)
    (hmode : mode < 512) (hlt : i < uint32) (hp : p < uint32) (hcl : c < uint32) :
    DirAt n (v.newDir i c ((newDirInode mode now c).slice 0 128) ((newDirBlock 4096 i p).slice 0 4096))
      i [c] [newDirRecords i p] := by
  have hf : InodeFields ((newDirInode mode now c).slice 0 128) (sIfdir + mode) 2 4096 0
      (fun k => if k = 0 then c else 0) := newDirInode_fields hmode hcl
  have hinode : (v.newDir i c ((newDirInode mode now c).slice 0 128)
      ((newDirBlock 4096 i p).slice 0 4096)).inode i = (newDirInode mode now c).slice 0 128 :=
    Function.update_self ..
  refine ⟨⟨⟨by omega, hi'⟩, ?_, by simp, fun k hk => ?_, ?_, List.nodup_singleton _, fun b hb => ?_,
    List.Forall₂.cons ?_ List.Forall₂.nil⟩, ?_⟩
  · rw [hinode, hf.mode, ifmt_dir hmode]
  · rw [hinode, hf.block k hk]
    cases k with
    | zero => rfl
    | succ k => rfl
  · rw [hinode, hf.size, List.length_singleton, Nat.one_mul]
  · rw [List.mem_singleton.mp hb]
    exact hc
  · rw [show (v.newDir i c ((newDirInode mode now c).slice 0 128)
      ((newDirBlock 4096 i p).slice 0 4096)).blk c = _ from Function.update_self ..]
    exact (tiles_newDirBlock p hlt hp).slice
  · -- `.` and `..` are the names in use, as far as the inodes are not zero
    show (names (entries (newDirRecords i p ++ []))).Nodup
    rw [List.append_nil]
    unfold newDirRecords
    rw [entries_live (by show i ≠ 0; omega)]
    by_cases h0 : p = 0
    · rw [entries_dead h0]
      exact List.nodup_singleton _
    · rw [entries_live h0]
      show ([[dot], dotdot] : List Text).Nodup
      decide

theorem Sound.newDir {mode now : Nat} (h : Sound n v) (hi : 11 ≤ i) (hi' : i ≤ inodesOf n)
    (hc : DataBlock n c) (hfree : v.used c = false) (hmode : mode < 512) (hlt : i < uint32)
    (hp : p < uint32) (hcl : c < uint32) :
    Sound n (v.newDir i c ((newDirInode mode now c).slice 0 128)
      ((newDirBlock 4096 i p).slice 0 4096)) := by
  have hdir := @dirAt_newDir n i c p v mode now hi hi' hc hmode hlt hp hcl
  have hused : ∀ b, v.used b = true → Function.update v.used c true b = true := by
    intro b hb
    rw [Function.update_apply]
    split
    · rfl
    · exact hb
  have hother : ∀ j, ∀ b ∈ v.owned j, b ≠ c := by
    rintro j b hb rfl
    rw [(h.taken j).used b hb] at hfree
    cases hfree
  refine h.reown (i := i) (by omega) (fun j hj => Function.update_of_ne hj ..)
    (fun j _ b hb => Function.update_of_ne (hother j b hb) ..)
    (fun j _ b hb => hused b ((h.taken j).used b hb)) (fun b hb hm => hused b (h.metaUsed b hb hm))
    (fun j hj hl => ?_) ?_ (fun j _ b hb => ?_)
    (fun _ => ⟨⟨_, _, hdir⟩, Function.update_self ..⟩)
  · rw [show (v.newDir i c _ _).live j = v.live j from Function.update_of_ne hj ..]
    exact hl
  · rw [hdir.owned_eq]
    refine ⟨hdir.nodup, hdir.data, fun b hb => ?_⟩
    rw [List.mem_singleton.mp hb]
    exact Function.update_self ..
  · rw [hdir.owned_eq, List.mem_singleton] at hb
    exact fun hj => hother j b hj hb

/-- What `ext2_mkdir_at` leaves when it has made a directory. -/
structure MadeDir (n : Nat) (v v' : Vol) (p : Nat) (name : Text) (mode : Nat) (blocks : List Nat)
    (rss : List (List DirRec)) (i c now : Nat) (v₁ v₂ : Vol) (blocks' : List Nat)
    (rss' : List (List DirRec)) (es fs : List (Text × Nat × Nat)) : Prop where
  lo : 11 ≤ i
  hi : i ≤ inodesOf n
  free : v.live i = false
  data : DataBlock n c
  unused : v.used c = false
  first : v₁ = v.newDir i c ((newDirInode mode now c).slice 0 128) ((newDirBlock 4096 i p).slice 0 4096)
  step : DirStep n v₁ v₂ p blocks blocks'
  dir : DirShape n v₂ p blocks' rss'
  old : entries rss.flatten = es ++ fs
  new : entries rss'.flatten = es ++ (name, i, 2) :: fs
  used : v'.used = v₂.used
  live : v'.live = v₂.live
  blk : v'.blk = v₂.blk
  inode : ∀ j, j ≠ p → v'.inode j = v₂.inode j
  parent : InodeFields (v'.inode p) (v₂.inode p).iMode (((v₂.inode p).iLinksCount + 1) % 65536)
    (v₂.inode p).iSize (v₂.inode p).iDtime (v₂.inode p).iBlock

/-- The mode bits that `ext2_mkdir_at` takes from its argument. -/
def mkdirMode (mode : Nat) : Nat := if mode ≠ 0 then mode % 512 else 0o755

theorem mkdirMode_lt (mode : Nat) : mkdirMode mode < 512 := by
  unfold mkdirMode
  split
  · omega
  · decide

theorem inode_lt (hg : Geometry n) {i : Nat} (hi : i ≤ inodesOf n) : i < uint32 := by
  have := hg.le
  unfold inodesOf at hi
  unfold uint32
  omega

theorem block_lt (hg : Geometry n) {b : Nat} (hb : b < n) : b < uint32 :=
  lt_trans (lt_trans hb hg.lt_uint32) (by decide)

/-- A free block is a data block. -/
theorem Sound.data_of_free {b : Nat} (h : Sound n v) (hb : b < n) (hfree : v.used b = false) :
    DataBlock n b := by
  refine ⟨hb, ?_⟩
  by_contra hm
  rw [h.metaUsed b hb (by simpa using hm)] at hfree
  cases hfree

/-- `ext2_mkdir_at` of a name that is not there. -/
theorem mkdirNew_made {mode : Nat} (hg : Geometry n) (h : Good n d) (hs : Sound n (vol n d))
    (hm : Current n (vol n d) m) (hdir : DirAt n (vol n d) p blocks rss) (hlen : name.length ≤ 255) {d' : Vblk}
    (hrun : mkdirNew m p name mode d = .ok () d') :
    Good n d' ∧ ∃ i c now v₁ v₂ blocks' rss' es fs, MadeDir n (vol n d) (vol n d') p name
      (mkdirMode mode) blocks rss i c now v₁ v₂ blocks' rss' es fs := by
  have hplt := inode_lt hg hdir.range.2
  unfold mkdirNew at hrun
  -- the inode
  rcases ext2AllocInode_taken hg h hm hs.rootLive with
    ⟨i, d₁, m₁, hrun₁, hlo, hhi, hlive, hgood₁, hvol₁, hcur₁⟩ | ⟨hfail, -⟩
  case inr => rw [bind_of_error (orFail_error_iff.mpr ⟨rfl, _, hfail⟩)] at hrun; cases hrun
  rw [bind_of_ok (orFail_of_ok hrun₁)] at hrun
  dsimp only [] at hrun
  -- its block
  have hzero : (vol n d₁).used 0 = true := by
    rw [hvol₁]
    exact hs.blockZero hg
  rcases ext2AllocBlock_taken hg hgood₁ hcur₁ hzero with
    ⟨c, d₂, m₂, hrun₂, hc, hfree, hgood₂, hvol₂, hcur₂⟩ | ⟨hfail, -⟩
  case inr => rw [bind_of_error (orFail_error_iff.mpr ⟨rfl, _, hfail⟩)] at hrun; cases hrun
  rw [bind_of_ok (orFail_of_ok hrun₂), bind_of_ok (timeNull_eq d₂), hcur₂.blockSize] at hrun
  rw [hvol₁] at hfree
  have hdata := hs.data_of_free hc hfree
  -- both are written
  obtain ⟨d₃, hrun₃, hbec₃⟩ := ext2WriteInodeAt_eq hg hcur₂.toMetaFits hgood₂.toHolds.tick
    (by omega : 1 ≤ i) hhi (newDirInode (mkdirMode mode) (d₂.clock 0 % uint32) c)
  obtain ⟨d₄, hrun₄, hbec₄⟩ := pwriteBlock_data hg hbec₃.holds hdata.lt hdata.notMeta
    (newDirBlock 4096 i p)
  have hvol₄ : vol n d₄ = (vol n d).newDir i c
      ((newDirInode (mkdirMode mode) (d₂.clock 0 % uint32) c).slice 0 128)
      ((newDirBlock 4096 i p).slice 0 4096) := by
    rw [hbec₄.eq, hbec₃.eq, vol_tick, hvol₂, hvol₁]
    rfl
  have hgood₄ : Good n d₄ := hbec₄.good (hbec₃.good hgood₂.tick)
  have hcur₄ : Current n (vol n d₄) m₂ :=
    hcur₂.congr (by rw [hvol₄, hvol₂, hvol₁]; rfl) (by rw [hvol₄, hvol₂, hvol₁]; rfl)
  have hsound₄ : Sound n (vol n d₄) := by
    rw [hvol₄]
    exact hs.newDir hlo hhi hdata hfree (mkdirMode_lt mode) (inode_lt hg hhi) hplt (block_lt hg hc)
  change (orFail (ext2WriteInodeAt m₂ i (newDirInode (mkdirMode mode) (d₂.clock 0 % uint32) c)) (-26)
    >>= fun _ => _) d₂.tick = _ at hrun
  rw [bind_of_ok (orFail_of_ok hrun₃), bind_of_ok (orFail_of_ok hrun₄)] at hrun
  -- the parent is another directory and has not changed
  have hpi : p ≠ i := by
    rintro rfl
    rw [hs.dirLive p hdir.mode] at hlive
    cases hlive
  have hinode₄ : (vol n d₄).inode p = (vol n d).inode p := by
    rw [hvol₄]
    exact Function.update_of_ne hpi ..
  have hdir₄ : DirShape n (vol n d₄) p blocks rss := by
    refine hdir.toDirShape.frame hinode₄ (fun b hb => ?_)
    rw [hvol₄]
    refine Function.update_of_ne ?_ ..
    rintro rfl
    rw [← hdir.owned_eq] at hb
    rw [(hs.taken p).used b hb] at hfree
    cases hfree
  have hused₄ : ∀ b ∈ blocks, (vol n d₄).used b = true := by
    intro b hb
    rw [← hdir₄.owned_eq] at hb
    exact (hsound₄.taken p).used b hb
  -- the entry
  rcases ext2AppendDirentAt_inserted hg hgood₄ hcur₄ hsound₄.metaUsed hdir₄ hused₄ hlen
    (inode_lt hg hhi) (by omega : i ≠ 0) (by omega : 2 < 256) with ⟨e, hfail⟩ |
      ⟨d₅, m₅, blocks', rss', es, fs, hrun₅, hgood₅, hcur₅, hdir₅, hstep₅, hold, hnew⟩
  · rw [bind_of_error (orFail_error_iff.mpr ⟨rfl, _, hfail⟩)] at hrun
    cases hrun
  rw [bind_of_ok (orFail_of_ok hrun₅)] at hrun
  -- the parent's link, the count of directories
  have hread : look (fun d => orCode (ext2ReadInodeAt d m₅ p) (-29)) d₅ = .ok ((vol n d₅).inode p) d₅ :=
    look_of_ok (orCode_of_ok (ext2ReadInodeAt_eq hg hcur₅.toMetaFits hgood₅.toHolds hdir.range.1
      hdir.range.2))
  rw [bind_of_ok hread, bind_of_ok (timeNull_eq d₅)] at hrun
  obtain ⟨d₆, hrun₆, hbec₆⟩ := ext2WriteInodeAt_eq hg hcur₅.toMetaFits hgood₅.toHolds.tick
    hdir.range.1 hdir.range.2 (Inode.touch (Inode.setLinksCount ((vol n d₅).inode p)
      (((vol n d₅).inode p).iLinksCount + 1)) (d₅.clock 0 % uint32))
  rw [vol_tick] at hbec₆
  rw [bind_of_ok (orFail_of_ok hrun₆)] at hrun
  have hcur₆ : Current n (vol n d₆) m₅ := hcur₅.congr (by rw [hbec₆.eq]) (by rw [hbec₆.eq])
  obtain ⟨d₇, hrun₇, hgood₇, hvol₇⟩ := ext2StoreMeta_eq hg hbec₆.holds (hcur₆.setUsedDirs
    ((i - 1) / m₅.sb.sInodesPerGroup) ((m₅.gd ((i - 1) / m₅.sb.sInodesPerGroup)).bgUsedDirsCount + 1))
  rw [hrun₇] at hrun
  cases hrun
  refine ⟨hgood₇, i, c, d₂.clock 0 % uint32, vol n d₄, vol n d₅, blocks', rss', es, fs, ?_⟩
  have hvol := hvol₇.trans hbec₆.eq
  refine ⟨hlo, hhi, hlive, hdata, hfree, hvol₄, hstep₅, hdir₅, hold, hnew, by rw [hvol], by rw [hvol],
    by rw [hvol], fun j hj => ?_, ?_⟩
  · rw [hvol]
    exact Function.update_of_ne hj ..
  · have hinode : (vol n d').inode p = (Inode.touch (Inode.setLinksCount ((vol n d₅).inode p)
        (((vol n d₅).inode p).iLinksCount + 1)) (d₅.clock 0 % uint32)).slice 0 128 := by
      rw [hvol]
      exact Function.update_self ..
    rw [hinode]
    exact linkedInode_fields _

section Made

variable {mode now : Nat} {v' v₁ v₂ : Vol} {blocks' : List Nat} {rss' : List (List DirRec)}
  {es fs : List (Text × Nat × Nat)}

/-- Every inode but the parent and the new one is as it was. -/
theorem MadeDir.inode_same (h : MadeDir n v v' p name mode blocks rss i c now v₁ v₂ blocks' rss' es fs)
    {j : Nat} (hj : j ≠ i) (hjp : j ≠ p) : v'.inode j = v.inode j := by
  rw [h.inode j hjp, h.step.inode j hjp, h.first]
  exact Function.update_of_ne hj ..

/-- So is every block that was in use outside the parent. -/
theorem MadeDir.blk_same (h : MadeDir n v v' p name mode blocks rss i c now v₁ v₂ blocks' rss' es fs)
    {b : Nat} (hu : v.used b = true) (hb : b ∉ blocks) : v'.blk b = v.blk b := by
  have hbc : b ≠ c := by
    rintro rfl
    have hfree := h.unused
    rw [hu] at hfree
    cases hfree
  have hu₁ : v₁.used b = true := by
    rw [h.first]
    exact (Function.update_of_ne hbc ..).trans hu
  have hb' : b ∉ blocks' := by
    intro hmem
    rcases h.step.mem hmem with hold | hfree
    · exact hb hold
    · rw [hu₁] at hfree
      cases hfree
  rw [h.blk, h.step.blk b hb', h.first]
  exact Function.update_of_ne hbc ..

end Made

/-- A new directory keeps the volume sound. -/
theorem Sound.madeDir {mode now : Nat} {v' v₁ v₂ : Vol} {blocks' : List Nat} {rss' : List (List DirRec)}
    {es fs : List (Text × Nat × Nat)} (hg : Geometry n) (hs : Sound n v)
    (hdir : DirAt n v p blocks rss) (hmode : mode < 512) (hnew : name ∉ names (entries rss.flatten))
    (h : MadeDir n v v' p name mode blocks rss i c now v₁ v₂ blocks' rss' es fs) :
    Sound n v' ∧ DirAt n v' p blocks' rss' ∧ DirAt n v' i [c] [newDirRecords i p] := by
  have hplt := inode_lt hg hdir.range.2
  have hpi : p ≠ i := by
    rintro rfl
    have hlive := h.free
    rw [hs.dirLive p hdir.mode] at hlive
    cases hlive
  have hc : c ∉ blocks := by
    intro hb
    rw [← hdir.owned_eq] at hb
    have hfree := h.unused
    rw [(hs.taken p).used c hb] at hfree
    cases hfree
  -- the new directory on its own
  have hsound₁ : Sound n v₁ := by
    rw [h.first]
    exact hs.newDir h.lo h.hi h.data h.unused hmode (inode_lt hg h.hi) hplt (block_lt hg h.data.lt)
  have hnew₁ : DirAt n v₁ i [c] [newDirRecords i p] := by
    rw [h.first]
    exact dirAt_newDir h.lo h.hi h.data hmode (inode_lt hg h.hi) hplt (block_lt hg h.data.lt)
  have hdir₁ : DirAt n v₁ p blocks rss := by
    refine ⟨hdir.toDirShape.frame ?_ (fun b hb => ?_), hdir.distinct⟩
    · rw [h.first]
      exact Function.update_of_ne hpi ..
    · rw [h.first]
      exact Function.update_of_ne (fun h0 => hc (by rw [← h0]; exact hb)) ..
  -- the entry
  have hdir₂ : DirAt n v₂ p blocks' rss' := by
    refine ⟨h.dir, ?_⟩
    rw [h.new]
    refine names_insert ?_ ?_
    · rw [← h.old]
      exact hnew
    · rw [← h.old]
      exact hdir.distinct
  have hsound₂ := hsound₁.insert hdir₁ h.step hdir₂
  have hnew₂ : DirAt n v₂ i [c] [newDirRecords i p] := by
    refine ⟨hnew₁.toDirShape.frame (h.step.inode i hpi.symm) (fun b hb => h.step.blk b ?_), hnew₁.distinct⟩
    intro hmem
    rcases h.step.mem hmem with hold | hfree
    · rw [List.mem_singleton.mp hb] at hold
      exact hc hold
    · rw [← hnew₁.owned_eq] at hb
      rw [(hsound₁.taken i).used b hb] at hfree
      cases hfree
  -- the link of the parent
  have hdir' : DirAt n v' p blocks' rss' :=
    ⟨hdir₂.toDirShape.of_fields h.parent.mode h.parent.size h.parent.block
      (fun b _ => by rw [h.blk]), hdir₂.distinct⟩
  have hfields : ∀ {α : Type} (f : Inode → α), f (v'.inode p) = f (v₂.inode p) →
      ∀ j, f (v'.inode j) = f (v₂.inode j) := by
    intro α f hf j
    by_cases hj : j = p
    · rw [hj]
      exact hf
    · rw [h.inode j hj]
  refine ⟨hsound₂.of_fields h.used h.live h.blk (hfields _ h.parent.mode) (hfields _ h.parent.size)
    (fun j k hk => hfields (fun q => Inode.iBlock q k) (h.parent.block k hk) j), hdir', ?_⟩
  exact ⟨hnew₂.toDirShape.frame (h.inode i hpi.symm) (fun b _ => by rw [h.blk]), hnew₂.distinct⟩

end Mkdir

end Guppy.Ext2
