import Guppy.Ext2.Entries
import Guppy.Ext2.Format

set_option autoImplicit false

/-! # Inserting and removing directory entries

`ext2_append_dirent_at` and the part of `ext2_unlink_at` that takes a record out, on a
directory of a volume. Either the call fails and nothing has changed, or the directory has one
entry more (or less), its blocks are tiled again, and nothing outside it has changed but for
the block that it may have taken.
-/

namespace Guppy.Ext2

open Prog Vfs

/-! ## The clock -/

section Tick

variable {n : Nat} {d : Vblk}

theorem vol_tick (n : Nat) (d : Vblk) : vol n d.tick = vol n d := rfl

theorem Holds.tick (h : Holds n d) : Holds n d.tick := ⟨h.limit, h.writable, h.tail⟩

theorem Good.tick (h : Good n d) : Good n d.tick := ⟨h.toHolds.tick, h.fits, h.counts⟩

end Tick

/-! ## Other records in one block -/

section Replace

variable {n i b : Nat} {v v' : Vol} {bl br blocks : List Nat} {rl rr rss : List (List DirRec)}
  {rs rs' : List DirRec} {p : Mem}

/-- One block of the directory gets other records. -/
theorem DirShape.replace (h : DirShape n v i (bl ++ b :: br) (rl ++ rs :: rr)) (hl : TiledBy v.blk bl rl)
    (hr : TiledBy v.blk br rr) (hp : Tiles p 0 rs' 4096) (hblk : v'.blk = Function.update v.blk b p)
    (hmode : (v'.inode i).iMode = (v.inode i).iMode) (hsize : (v'.inode i).iSize = (v.inode i).iSize)
    (hblock : ∀ k, k < 15 → (v'.inode i).iBlock k = (v.inode i).iBlock k) :
    DirShape n v' i (bl ++ b :: br) (rl ++ rs' :: rr) where
  range := h.range
  mode := by rw [hmode]; exact h.mode
  le := h.le
  block k hk := by rw [hblock k hk]; exact h.block k hk
  size := by rw [hsize]; exact h.size
  nodup := h.nodup
  data := h.data
  tiles := by
    have hnd := List.nodup_append.mp h.nodup
    -- the block is none of the others
    have hleft : ∀ c ∈ bl, v'.blk c = v.blk c := by
      intro c hc
      rw [hblk, Function.update_of_ne (hnd.2.2 c hc b List.mem_cons_self)]
    have hright : ∀ c ∈ br, v'.blk c = v.blk c := by
      intro c hc
      rw [hblk, Function.update_of_ne]
      rintro rfl
      exact (List.nodup_cons.mp hnd.2.1).1 hc
    refine List.rel_append (hl.congr hleft) (List.Forall₂.cons ?_ (hr.congr hright))
    rw [hblk, Function.update_self]
    exact hp

/-- A block more, with one record. -/
theorem DirShape.grow {c : Nat} (h : DirShape n v i blocks rss) (hlt : blocks.length < 12) (hc : DataBlock n c)
    (hnew : c ∉ blocks) (hp : Tiles p 0 rs 4096) (hblk : v'.blk = Function.update v.blk c p)
    (hmode : (v'.inode i).iMode = (v.inode i).iMode)
    (hsize : (v'.inode i).iSize = (v.inode i).iSize + 4096)
    (hblock : ∀ k, k < 15 → (v'.inode i).iBlock k = if k = blocks.length then c else (v.inode i).iBlock k) :
    DirShape n v' i (blocks ++ [c]) (rss ++ [rs]) where
  range := h.range
  mode := by rw [hmode]; exact h.mode
  le := by rw [List.length_append, List.length_singleton]; omega
  block k hk := by
    rw [hblock k hk]
    by_cases hkl : k = blocks.length
    · rw [if_pos hkl, hkl, List.getD_append_right _ _ _ _ (Nat.le_refl _), Nat.sub_self]
      rfl
    · rw [if_neg hkl, h.block k hk]
      rcases Nat.lt_or_ge k blocks.length with hlt' | hge
      · rw [List.getD_append _ _ _ _ hlt']
      · rw [List.getD_eq_default _ _ hge, List.getD_eq_default _ _ (by
          rw [List.length_append, List.length_singleton]
          omega)]
  size := by rw [hsize, h.size, List.length_append, List.length_singleton]; omega
  nodup := List.nodup_append.mpr ⟨h.nodup, List.nodup_singleton _, by
    intro b hb c' hc' hbc
    rw [List.mem_singleton] at hc'
    exact hnew (by rw [← hc', ← hbc]; exact hb)⟩
  data b hb := by
    rcases List.mem_append.mp hb with hb | hb
    · exact h.data b hb
    · rw [List.mem_singleton.mp hb]
      exact hc
  tiles := by
    have hold : ∀ b ∈ blocks, v'.blk b = v.blk b := by
      intro b hb
      rw [hblk, Function.update_of_ne]
      rintro rfl
      exact hnew hb
    refine List.rel_append (h.tiles.congr hold) (List.Forall₂.cons ?_ List.Forall₂.nil)
    rw [hblk, Function.update_self]
    exact hp

theorem Tiles.slice (h : Tiles p 0 rs 4096) : Tiles (p.slice 0 4096) 0 rs 4096 :=
  h.congr (fun i _ hi => by rw [Mem.slice_in hi, Nat.zero_add])

theorem entries_middle (rl rr : List (List DirRec)) (rs : List DirRec) :
    entries (rl ++ rs :: rr).flatten = entries rl.flatten ++ entries rs ++ entries rr.flatten := by
  rw [List.flatten_append, List.flatten_cons, entries_append, entries_append, List.append_assoc]

end Replace

/-! ## What a change of a directory leaves alone -/

/-- From `v` to `v'` only directory `i` has changed, and it has taken a block at most. -/
structure DirStep (n : Nat) (v v' : Vol) (i : Nat) (blocks blocks' : List Nat) : Prop where
  live : v'.live = v.live
  inode : ∀ j, j ≠ i → v'.inode j = v.inode j
  mode : (v'.inode i).iMode = (v.inode i).iMode
  links : (v'.inode i).iLinksCount = (v.inode i).iLinksCount
  dtime : (v'.inode i).iDtime = (v.inode i).iDtime
  blk : ∀ b, b ∉ blocks' → v'.blk b = v.blk b
  grown : blocks' = blocks ∧ v'.used = v.used ∨ ∃ c, blocks' = blocks ++ [c] ∧ DataBlock n c ∧
    v.used c = false ∧ v'.used = Function.update v.used c true

/-! ## Inserting -/

section Insert

variable {n i child fileType : Nat} {d : Vblk} {m : Ext2Meta} {blocks : List Nat}
  {rss : List (List DirRec)} {name : Text}

/-- A record with room for another one of `need` bytes. -/
def hasSlack (need : Nat) (r : DirRec) : Bool := r.minLen + need ≤ r.recLen

theorem deSlack_eq (need : Nat) (blk : Mem) : deSlack need blk = fun pos => hasSlack need (recAt blk pos) := by
  funext pos
  unfold deSlack hasSlack DirRec.minLen
  rw [recAt_name_length]
  rfl

/-- The outcome of inserting an entry: there is one entry more. -/
def Inserted (n : Nat) (d : Vblk) (i : Nat) (blocks : List Nat) (rss : List (List DirRec))
    (name : Text) (x : Nat × Nat) (r : EStateM.Result Int Vblk Ext2Meta) : Prop :=
  ∃ d' m' blocks' rss' es fs, r = .ok m' d' ∧ Good n d' ∧ Current n (vol n d') m' ∧
    DirShape n (vol n d') i blocks' rss' ∧ DirStep n (vol n d) (vol n d') i blocks blocks' ∧
    entries rss.flatten = es ++ fs ∧ entries rss'.flatten = es ++ (name, x) :: fs

/-- The call has failed and changed nothing, or there is one entry more. -/
def InsertOutcome (n : Nat) (d : Vblk) (i : Nat) (blocks : List Nat) (rss : List (List DirRec))
    (name : Text) (x : Nat × Nat) (r : EStateM.Result Int Vblk Ext2Meta) : Prop :=
  (∃ e, r = .error e d) ∨ Inserted n d i blocks rss name x r

/-- What splitting a record writes: the block, then the inode with new change times. -/
def splitWrites (m : Ext2Meta) (i child fileType : Nat) (name : Text) (b pos : Nat) (blk : Mem)
    (dir : Inode) : Prog Vblk Ext2Meta := do
  orFail (pwriteBlock m.blockSize b (splitDirent blk pos child fileType name) m.blockSize) (-5)
  let now ← timeNull
  ext2WriteInodeAt m i (dir.touch now)
  pure m

/-- A record with room is cut to its minimum, and the new one is put behind it. -/
theorem splitWrites_ok (hg : Geometry n) (h : Good n d) (hm : Current n (vol n d) m)
    {b : Nat} {bl br : List Nat} {rl rr : List (List DirRec)} {l rest : List DirRec} {r : DirRec}
    (hdir : DirShape n (vol n d) i (bl ++ b :: br) (rl ++ (l ++ r :: rest) :: rr)) (hlen : name.length ≤ 255)
    (hchild : child < uint32) (htype : fileType < 256) (hl : TiledBy (vol n d).blk bl rl)
    (htiles : Tiles ((vol n d).blk b) 0 (l ++ r :: rest) 4096) (hr : TiledBy (vol n d).blk br rr)
    (hroom : r.minLen + direntMinRecLen name.length ≤ r.recLen) :
    ∃ d', splitWrites m i child fileType name b (totalLen l) ((vol n d).blk b) ((vol n d).inode i) d
        = .ok m d' ∧ Good n d' ∧ Current n (vol n d') m ∧
      DirShape n (vol n d') i (bl ++ b :: br) (rl ++ (l ++ { r with recLen := r.minLen }
        :: ⟨child, r.recLen - r.minLen, fileType, name⟩ :: rest) :: rr) ∧
      DirStep n (vol n d) (vol n d') i (bl ++ b :: br) (bl ++ b :: br) := by
  have hb := hdir.data b (List.mem_append_right _ List.mem_cons_self)
  have hsplit := tiles_split htiles (by omega) hroom (by omega) hchild htype
  -- the two writes
  obtain ⟨d₁, hrun₁, hbec₁⟩ := pwriteBlock_data hg h.toHolds hb.lt hb.notMeta
    (splitDirent ((vol n d).blk b) (totalLen l) child fileType name)
  obtain ⟨d₂, hrun₂, hbec₂⟩ := ext2WriteInodeAt_eq hg hm.toMetaFits hbec₁.holds.tick
    hdir.range.1 hdir.range.2 (Inode.touch ((vol n d).inode i) (d₁.clock 0 % uint32))
  have hvol := hbec₂.eq
  rw [vol_tick, hbec₁.eq] at hvol
  have hinode : (vol n d₂).inode i
      = (Inode.touch ((vol n d).inode i) (d₁.clock 0 % uint32)).slice 0 128 := by
    rw [hvol]
    exact Function.update_self ..
  refine ⟨d₂, ?_, hbec₂.good (hbec₁.good h).tick, ?_, ?_, ?_⟩
  · unfold splitWrites
    rw [hm.blockSize, bind_of_ok (orFail_of_ok hrun₁), bind_of_ok (timeNull_eq d₁), bind_of_ok hrun₂]
    rfl
  · exact hm.congr (by rw [hvol]) (by rw [hvol])
  · refine hdir.replace hl hr hsplit.slice (by rw [hvol]) ?_ ?_ (fun k hk => ?_)
    · rw [hinode, touch_mode]
    · rw [hinode, touch_size]
    · rw [hinode, touch_block _ _ _ hk]
  · refine ⟨by rw [hvol], fun j hj => ?_, ?_, ?_, ?_, fun c hc => ?_, Or.inl ⟨rfl, by rw [hvol]⟩⟩
    · rw [hvol]
      exact Function.update_of_ne hj ..
    · rw [hinode, touch_mode]
    · rw [hinode, touch_links]
    · rw [hinode, touch_dtime]
    · rw [hvol]
      refine Function.update_of_ne (fun h0 => hc ?_) ..
      rw [h0]
      exact List.mem_append_right _ List.mem_cons_self

/-- The entries after a record has been split. -/
theorem entries_split (hzero : child ≠ 0) (rl rr : List (List DirRec)) (l rest : List DirRec) (r : DirRec) :
    entries (rl ++ (l ++ r :: rest) :: rr).flatten
        = (entries rl.flatten ++ entries (l ++ [r])) ++ (entries rest ++ entries rr.flatten) ∧
      entries (rl ++ (l ++ { r with recLen := r.minLen }
        :: ⟨child, r.recLen - r.minLen, fileType, name⟩ :: rest) :: rr).flatten
        = (entries rl.flatten ++ entries (l ++ [r])) ++ (name, child, fileType)
          :: (entries rest ++ entries rr.flatten) := by
  constructor
  · rw [entries_middle, show l ++ r :: rest = (l ++ [r]) ++ rest by simp, entries_append (l ++ [r])]
    simp
  · rw [entries_middle, entries_append, entries_append, entries_recLen]
    have hcons : entries (r :: ⟨child, r.recLen - r.minLen, fileType, name⟩ :: rest)
        = entries [r] ++ (name, child, fileType) :: entries rest := by
      rw [← entries_live (r := ⟨child, r.recLen - r.minLen, fileType, name⟩) hzero, ← entries_append]
      rfl
    rw [hcons]
    simp

/-- A record is split to make room. -/
theorem append_split (hg : Geometry n) (h : Good n d) (hm : Current n (vol n d) m)
    (hdir : DirShape n (vol n d) i blocks rss) (hlen : name.length ≤ 255) (hchild : child < uint32)
    (hzero : child ≠ 0) (htype : fileType < 256) {b pos : Nat} {bl br : List Nat}
    {rl rr : List (List DirRec)} {rs : List DirRec}
    (hblocks : blocks = bl ++ b :: br) (hrss : rss = rl ++ rs :: rr)
    (hl : TiledBy (vol n d).blk bl rl) (htiles : Tiles ((vol n d).blk b) 0 rs 4096)
    (hr : TiledBy (vol n d).blk br rr)
    (hpick : (positions 4096 ((vol n d).blk b)).find?
      (deSlack (direntMinRecLen name.length) ((vol n d).blk b)) = some pos) :
    Inserted n d i blocks rss name (child, fileType)
      (splitWrites m i child fileType name b pos ((vol n d).blk b) ((vol n d).inode i) d) := by
  subst hblocks hrss
  rw [positions_of_tiles htiles (by omega), deSlack_eq] at hpick
  obtain ⟨l, r, rest, rfl, hslack, -, rfl⟩ := find_starts_some htiles hpick
  have hroom : r.minLen + direntMinRecLen name.length ≤ r.recLen := by simpa [hasSlack] using hslack
  obtain ⟨d', hrun, hgood, hcur, hdir', hstep⟩ :=
    splitWrites_ok hg h hm hdir hlen hchild htype hl htiles hr hroom
  obtain ⟨hold, hnew⟩ := @entries_split child fileType name hzero rl rr l rest r
  rw [Nat.zero_add]
  exact ⟨d', m, _, _, _, _, hrun, hgood, hcur, hdir', hstep, hold, hnew⟩

/-- The inode of a directory with a block more. -/
theorem grownInode_fields {dir : Inode} {slot extra now : Nat} (hslot : slot < 12) (hextra : extra < uint32)
    (hsize : dir.iSize + 4096 < uint32) {p : Inode}
    (hp : p = ((((dir.setBlock slot extra).setSize (dir.iSize + 4096)).setBlocks
      (dir.iBlocks + 4096 / 512)).touch now).slice 0 128) :
    p.iMode = dir.iMode ∧ p.iLinksCount = dir.iLinksCount ∧ p.iDtime = dir.iDtime ∧
      p.iSize = dir.iSize + 4096 ∧ ∀ k, k < 15 → p.iBlock k = if k = slot then extra else dir.iBlock k := by
  have hmod : extra % 4294967296 = extra := Nat.mod_eq_of_lt hextra
  have hmod' : (dir.iSize + 4096) % 4294967296 = dir.iSize + 4096 := Nat.mod_eq_of_lt hsize
  rw [hp]
  refine ⟨?_, ?_, ?_, ?_, fun k hk => ?_⟩
  · rw [touch_mode]
    unfold Inode.iMode Inode.setBlock Inode.setSize Inode.setBlocks Mem.wr32
    simp (disch := omega) only [Mem.rd16_write_out]
  · rw [touch_links]
    unfold Inode.iLinksCount Inode.setBlock Inode.setSize Inode.setBlocks Mem.wr32
    simp (disch := omega) only [Mem.rd16_write_out]
  · rw [touch_dtime]
    unfold Inode.iDtime Inode.setBlock Inode.setSize Inode.setBlocks Mem.wr32
    simp (disch := omega) only [Mem.rd32_write_out]
  · rw [touch_size]
    refine Eq.trans ?_ hmod'
    unfold Inode.iSize Inode.setBlock Inode.setSize Inode.setBlocks Mem.wr32
    simp (disch := omega) only [Mem.rd32_write_out, Mem.rd32_write_in, Nat.sub_self, Mem.rd32_le]
  · rw [touch_block _ _ _ hk]
    unfold Inode.iBlock Inode.setBlock Inode.setSize Inode.setBlocks Mem.wr32
    by_cases hks : k = slot
    · rw [if_pos hks, hks]
      refine Eq.trans ?_ hmod
      simp (disch := omega) only [Mem.rd32_write_out, Mem.rd32_write_in, Nat.sub_self, Mem.rd32_le]
    · rw [if_neg hks]
      simp (disch := omega) only [Mem.rd32_write_out]

/-- The one record of a new directory block. -/
theorem tiles_newBlock (hlen : name.length ≤ 255) (hchild : child < uint32) (htype : fileType < 256) :
    Tiles (putDirent Mem.zero 0 child 4096 fileType name) 0 [⟨child, 4096, fileType, name⟩] 4096 := by
  have hmin := minLen_bounds name.length
  refine ⟨?_, ⟨?_, ?_⟩, rfl⟩
  · rw [recAt_putDirent (by omega), Nat.mod_eq_of_lt hchild, Nat.mod_eq_of_lt htype]
  · simp
  · show direntMinRecLen name.length ≤ 4096
    omega

/-- No record has room, and the directory takes another block. -/
theorem append_block (hg : Geometry n) (h : Good n d) (hm : Current n (vol n d) m)
    (hmeta : ∀ b, b < n → isMeta n b = true → (vol n d).used b = true)
    (hdir : DirShape n (vol n d) i blocks rss) (hused : ∀ b ∈ blocks, (vol n d).used b = true)
    (hlen : name.length ≤ 255) (hchild : child < uint32) (hzero : child ≠ 0) (htype : fileType < 256) :
    InsertOutcome n d i blocks rss name (child, fileType)
      (appendBlock m i ((vol n d).inode i) child fileType name d) := by
  have hpos := hg.group_end hg.pos
  have hlt := hg.lt_uint32
  unfold appendBlock
  rw [hdir.slot]
  by_cases hfull : blocks.length < 12
  · rw [if_pos hfull]
    dsimp only []
    rcases ext2AllocBlock_taken hg h hm (hmeta 0 (by omega) (by
      unfold isMeta dataStart
      rw [decide_eq_true_eq]
      omega)) with ⟨c, d₁, m₁, hrun₁, hc, hfree, hgood₁, hvol₁, hcur₁⟩ | ⟨hrun, -⟩
    · -- the block that was free
      have hdata : DataBlock n c := by
        refine ⟨hc, ?_⟩
        by_contra hmt
        rw [hmeta c hc (by simpa using hmt)] at hfree
        cases hfree
      have hnot : c ∉ blocks := by
        intro hmem
        rw [hused c hmem] at hfree
        cases hfree
      obtain ⟨d₂, hrun₂, hbec₂⟩ := pwriteBlock_data hg hgood₁.toHolds hdata.lt hdata.notMeta
        (putDirent Mem.zero 0 child 4096 fileType name)
      obtain ⟨d₃, hrun₃, hbec₃⟩ := ext2WriteInodeAt_eq hg hcur₁.toMetaFits hbec₂.holds.tick
        hdir.range.1 hdir.range.2
        ((((Inode.setBlock ((vol n d).inode i) blocks.length c).setSize
          (((vol n d).inode i).iSize + 4096)).setBlocks
          (((vol n d).inode i).iBlocks + 4096 / 512)).touch (d₂.clock 0 % uint32))
      have hvol := hbec₃.eq
      rw [vol_tick, hbec₂.eq, hvol₁] at hvol
      dsimp only [] at hvol
      have hsize : ((vol n d).inode i).iSize + 4096 < uint32 := by
        have : blocks.length * 4096 ≤ 11 * 4096 := Nat.mul_le_mul_right 4096 (by omega)
        rw [hdir.size]
        exact lt_of_le_of_lt (Nat.add_le_add_right this 4096) (by decide)
      have hcLt : c < uint32 := lt_trans (lt_trans hc hlt) (by decide)
      obtain ⟨hmode, hlinks, hdtime, hsz, hblock⟩ := @grownInode_fields ((vol n d).inode i)
        blocks.length c (d₂.clock 0 % uint32) hfull hcLt hsize ((vol n d₃).inode i)
        (by rw [hvol]; exact Function.update_self ..)
      have hentries : entries (rss ++ [[(⟨child, 4096, fileType, name⟩ : DirRec)]]).flatten
          = entries rss.flatten ++ (name, child, fileType) :: [] := by
        rw [entries_middle, entries_live hzero, List.append_assoc]
        rfl
      refine Or.inr ⟨d₃, m₁, blocks ++ [c], _, _, _, ?_, hbec₃.good (hbec₂.good hgood₁).tick, ?_, ?_, ?_,
        (List.append_nil _).symm, hentries⟩
      · rw [bind_of_ok (orFail_of_ok hrun₁)]
        dsimp only []
        rw [hcur₁.blockSize, bind_of_ok (orFail_of_ok hrun₂), bind_of_ok (timeNull_eq d₂),
          bind_of_ok (orFail_of_ok hrun₃)]
        rfl
      · exact hcur₁.congr (by rw [hvol, hvol₁]) (by rw [hvol, hvol₁])
      · exact hdir.grow hfull hdata hnot (tiles_newBlock hlen hchild htype).slice (by rw [hvol])
          hmode hsz hblock
      · refine ⟨by rw [hvol], fun j hj => ?_, hmode, hlinks, hdtime, fun b hb => ?_,
          Or.inr ⟨c, rfl, hdata, hfree, by rw [hvol]⟩⟩
        · rw [hvol]
          exact Function.update_of_ne hj ..
        · rw [hvol]
          refine Function.update_of_ne (fun h0 => hb ?_) ..
          rw [h0]
          exact List.mem_append_right _ (List.mem_singleton_self _)
    · refine Or.inl ⟨-7, ?_⟩
      rw [bind_of_error (orFail_error_iff.mpr ⟨rfl, _, hrun⟩)]
  · rw [if_neg hfull]
    exact Or.inl ⟨-6, rfl⟩

/-- `ext2_append_dirent_at` on a directory. -/
theorem ext2AppendDirentAt_inserted (hg : Geometry n) (h : Good n d) (hm : Current n (vol n d) m)
    (hmeta : ∀ b, b < n → isMeta n b = true → (vol n d).used b = true)
    (hdir : DirShape n (vol n d) i blocks rss) (hused : ∀ b ∈ blocks, (vol n d).used b = true)
    (hlen : name.length ≤ 255) (hchild : child < uint32) (hzero : child ≠ 0) (htype : fileType < 256) :
    InsertOutcome n d i blocks rss name (child, fileType)
      (ext2AppendDirentAt m i child fileType name d) := by
  unfold ext2AppendDirentAt
  refine of_bind_look (orCode_of_ok (ext2ReadInodeAt_eq hg hm.toMetaFits h.toHolds hdir.range.1
    hdir.range.2)) ?_
  rw [bind_of_ok (failIf_of_not (not_not.mpr hdir.mode)), hdir.dirBlocks_eq]
  rcases findBlock_split h.toHolds (-4) (fun blk => (positions 4096 blk).find?
      (deSlack (direntMinRecLen name.length) blk)) hdir.data hdir.tiles with ⟨hnone, -⟩ | hsome
  · rw [← hm.blockSize] at hnone
    refine of_bind_look hnone ?_
    exact append_block hg h hm hmeta hdir hused hlen hchild hzero htype
  · obtain ⟨bl, b, br, rl, rs, rr, pos, hblocks, hrss, hl, htiles, hr, hpick, -, hrun⟩ := hsome
    rw [← hm.blockSize] at hrun
    refine of_bind_look hrun ?_
    exact Or.inr (append_split hg h hm hdir hlen hchild hzero htype hblocks hrss hl htiles hr hpick)

end Insert

/-! ## Removing -/

section Remove

variable {n i ino : Nat} {d : Vblk} {m : Ext2Meta} {blocks : List Nat} {rss : List (List DirRec)}
  {name : Text}

/-- Taking a record out of a tiled block takes its entry out. -/
theorem tiles_remove {blk : Mem} {rs : List DirRec} {prev : Option Nat} {pos : Nat}
    (h : Tiles blk 0 rs 4096)
    (hfind : findWithPrev (deMatches name blk) none (positions 4096 blk) = some (prev, pos)) :
    ∃ rs' es fs x, Tiles (removeDirent blk prev pos) 0 rs' 4096 ∧ entries rs = es ++ (name, x) :: fs ∧
      entries rs' = es ++ fs := by
  have hq : deMatches name blk = fun i => (recAt blk i).isNamed name :=
    funext (fun i => deMatches_eq blk i name)
  rw [positions_of_tiles h (by omega), hq] at hfind
  obtain ⟨l, r, rest, rfl, hr, -, rfl, hprev⟩ :=
    findWithPrev_some (q := fun r => r.isNamed name) h hfind
  have hnamed : r.ino ≠ 0 ∧ r.name = name := by simpa [DirRec.isNamed] using hr
  have hentry : entries (r :: rest) = (name, r.ino, r.fileType) :: entries rest := by
    rw [entries_live hnamed.1, hnamed.2]
  rcases hprev with ⟨rfl, rfl⟩ | ⟨l', p, rfl, rfl⟩
  · -- the first record of the block loses its inode
    have htiles := tiles_clear h
    refine ⟨_, [], entries rest, _, htiles, hentry, ?_⟩
    exact entries_dead (r := { r with ino := 0 }) rfl rest
  · -- the record before grows over it
    have hshape : l' ++ [p] ++ r :: rest = l' ++ p :: r :: rest := by simp
    rw [hshape] at h
    have hpos : 0 + totalLen (l' ++ [p]) = totalLen l' + p.recLen := by
      rw [Nat.zero_add, totalLen_append]
      rfl
    have htiles := tiles_merge h (by omega)
    rw [hpos, Nat.zero_add]
    refine ⟨_, entries (l' ++ [p]), entries rest, (r.ino, r.fileType), htiles, ?_, ?_⟩
    · rw [entries_append, hentry]
    · rw [entries_append, entries_recLen, entries_append l' [p], List.append_assoc,
        ← entries_append [p] rest]
      rfl

/-- A search that remembers the record before it fails only where the plain one does. -/
theorem findWithPrev_none {p : Nat → Bool} {l : List Nat} :
    ∀ {prev : Option Nat}, findWithPrev p prev l = none → l.find? p = none := by
  induction l with
  | nil => exact fun _ => rfl
  | cons pos rest ih =>
      intro prev h
      rw [findWithPrev] at h
      by_cases hp : p pos = true
      · rw [if_pos hp] at h
        cases h
      · rw [if_neg hp] at h
        rw [List.find?_cons_of_neg hp]
        exact ih h

/-- Freeing an inode number, whether it is in use or not. -/
theorem ext2FreeInodeNum_cleared (hg : Geometry n) (h : Good n d) (hm : Current n (vol n d) m)
    (h₁ : 1 ≤ ino) (h₂ : ino ≤ inodesOf n) :
    ∃ d' m', ext2FreeInodeNum m ino d = .ok m' d' ∧ Good n d' ∧
      vol n d' = { vol n d with live := Function.update (vol n d).live ino false } ∧
      Current n (vol n d') m' := by
  by_cases hl : (vol n d).live ino = true
  · exact ext2FreeInodeNum_eq hg h.toHolds hm h₁ h₂ hl
  · have hgr : (ino - 1) / 1024 < groupsOf n := by
      unfold inodesOf at h₂
      omega
    have hread : preadBlock d 4096 (ibBlk n ((ino - 1) / 1024)) 4096
        = .ok (d.block (ibBlk n ((ino - 1) / 1024))) :=
      preadBlock_of_le (block_limit h.toHolds (ibBlk_lt hg hgr))
    have hfalse : (vol n d).live ino = false := by simpa using hl
    have hsame : Function.update (vol n d).live ino false = (vol n d).live :=
      Function.update_eq_self_iff.mpr hfalse.symm
    refine ⟨d, m, ?_, h, ?_, hm⟩
    · unfold ext2FreeInodeNum
      rw [hm.head.inodesCount, hm.head.inodesPerGroup, hm.blockSize,
        bind_of_ok (failIf_of_not (by omega)), hm.head.inodeBitmap _ hgr]
      refine bind_look (orCode_of_ok hread) ?_
      rw [if_neg (by rw [← live_bit h₁ h₂]; exact hl)]
      rfl
    · rw [hsame]

/-- From `v` to `v'` an entry of directory `i` and the inode it named have gone. -/
structure UnlinkStep (n : Nat) (v v' : Vol) (i ino : Nat) (blocks : List Nat) : Prop where
  used : v'.used = without v.used (treeBlocks v.blk (v.inode ino))
  live : v'.live = Function.update v.live ino false
  inode : ∀ j, j ≠ i → j ≠ ino → v'.inode j = v.inode j
  mode : (v'.inode i).iMode = (v.inode i).iMode
  links : (v'.inode i).iLinksCount = (v.inode i).iLinksCount
  dtime : (v'.inode i).iDtime = (v.inode i).iDtime
  gone : ∃ now, v'.inode ino = (Inode.setDtime Mem.zero now).slice 0 128
  blk : ∀ b, b ∉ blocks → v'.blk b = v.blk b

/-- The outcome of removing an entry. -/
def Removed (n : Nat) (d : Vblk) (i ino : Nat) (blocks : List Nat) (rss : List (List DirRec))
    (name : Text) (r : EStateM.Result Int Vblk Unit) : Prop :=
  ∃ d' rss' es fs x, r = .ok () d' ∧ Good n d' ∧ DirAt n (vol n d') i blocks rss' ∧
    UnlinkStep n (vol n d) (vol n d') i ino blocks ∧
    entries rss.flatten = es ++ (name, x) :: fs ∧ entries rss'.flatten = es ++ fs

theorem unlinkEntry_removed (hg : Geometry n) (h : Good n d) (hm : Current n (vol n d) m)
    (hdir : DirAt n (vol n d) i blocks rss) (hname : name ∈ names (entries rss.flatten))
    (h₁ : 1 ≤ ino) (h₂ : ino ≤ inodesOf n) (hne : ino ≠ i) (h14 : ((vol n d).inode ino).iBlock 14 = 0)
    (ht : Taken n (vol n d).used (treeBlocks (vol n d).blk ((vol n d).inode ino)))
    (hapart : ∀ b ∈ treeBlocks (vol n d).blk ((vol n d).inode ino), b ∉ blocks) :
    Removed n d i ino blocks rss name (unlinkEntry m i ino name ((vol n d).inode ino) d) := by
  unfold unlinkEntry
  refine of_bind_look (orCode_of_ok (ext2ReadInodeAt_eq hg hm.toMetaFits h.toHolds hdir.range.1
    hdir.range.2)) ?_
  rw [hdir.dirBlocks_eq]
  rcases findBlock_split h.toHolds (-11) (fun blk => findWithPrev (deMatches name blk) none
      (positions 4096 blk)) hdir.data hdir.tiles with ⟨-, hnone⟩ | hsome
  · -- the name is in one of the blocks
    exfalso
    have hfind : ∀ blocks rss, TiledBy (vol n d).blk blocks rss →
        (∀ b ∈ blocks, findWithPrev (deMatches name ((vol n d).blk b)) none
          (positions 4096 ((vol n d).blk b)) = none) → name ∉ names (entries rss.flatten) := by
      intro blocks rss htiled hall
      rw [← entryMap_eq_none, ← lookup_eq]
      induction htiled with
      | nil => rfl
      | @cons b rs blocks rss hb _ ih =>
          rw [List.flatten_cons, lookup_append, ← find_matches_of_tiles hb (by omega),
            findWithPrev_none (hall b List.mem_cons_self)]
          exact ih (fun c hc => hall c (List.mem_cons_of_mem _ hc))
    exact hfind blocks rss hdir.tiles hnone hname
  · obtain ⟨bl, b, br, rl, rs, rr, a, rfl, rfl, hl, htiles, hr, hpick, -, hrun⟩ := hsome
    obtain ⟨prev, pos⟩ := a
    rw [← hm.blockSize] at hrun
    refine of_bind_look hrun ?_
    have hb := hdir.data b (List.mem_append_right _ List.mem_cons_self)
    obtain ⟨rs', es, fs, x, htiles', hold, hnew⟩ := tiles_remove htiles hpick
    -- the record
    obtain ⟨d₁, hrun₁, hbec₁⟩ := pwriteBlock_data hg h.toHolds hb.lt hb.notMeta
      (removeDirent ((vol n d).blk b) prev pos)
    have hcur₁ : Current n (vol n d₁) m := hm.congr (by rw [hbec₁.eq]) (by rw [hbec₁.eq])
    have hsame : treeBlocks (vol n d₁).blk ((vol n d).inode ino)
        = treeBlocks (vol n d).blk ((vol n d).inode ino) := by
      refine treeBlocks_congr (fun c hc => ?_)
      rw [hbec₁.eq]
      refine Function.update_of_ne (fun h0 => hapart c hc ?_) ..
      rw [h0]
      exact List.mem_append_right _ List.mem_cons_self
    -- the blocks, the inode, its number
    obtain ⟨d₂, m₂, hrun₂, hgood₂, hvol₂, hcur₂⟩ := ext2FreeInodeDataBlocks_eq hg hbec₁.holds hcur₁ h14
      (by rw [hsame, hbec₁.eq]; exact ht)
    obtain ⟨d₃, hrun₃, hbec₃⟩ := ext2WriteInodeAt_eq hg hcur₂.toMetaFits hgood₂.toHolds.tick h₁ h₂
      (Inode.setDtime Mem.zero (d₂.clock 0 % uint32))
    rw [vol_tick] at hbec₃
    have hcur₃ : Current n (vol n d₃) m₂ := hcur₂.congr (by rw [hbec₃.eq]) (by rw [hbec₃.eq])
    obtain ⟨d₄, m₄, hrun₄, hgood₄, hvol₄, hcur₄⟩ :=
      ext2FreeInodeNum_cleared hg (hbec₃.good hgood₂.tick) hcur₃ h₁ h₂
    -- the directory's own inode
    obtain ⟨d₅, hrun₅, hbec₅⟩ := ext2WriteInodeAt_eq hg hcur₄.toMetaFits hgood₄.toHolds.tick
      hdir.range.1 hdir.range.2 (Inode.touch ((vol n d).inode i) (d₄.clock 0 % uint32))
    have hvol := hbec₅.eq
    rw [vol_tick, hvol₄, hbec₃.eq, hvol₂, hsame, hbec₁.eq] at hvol
    dsimp only [] at hvol
    have hinode : (vol n d₅).inode i
        = (Inode.touch ((vol n d).inode i) (d₄.clock 0 % uint32)).slice 0 128 := by
      rw [hvol]
      exact Function.update_self ..
    have hentries : entries (rl ++ rs :: rr).flatten
        = (entries rl.flatten ++ es) ++ (name, x) :: (fs ++ entries rr.flatten) := by
      rw [entries_middle, hold]
      simp
    have hentries' : entries (rl ++ rs' :: rr).flatten
        = (entries rl.flatten ++ es) ++ (fs ++ entries rr.flatten) := by
      rw [entries_middle, hnew]
      simp
    have hnames : (names (entries (rl ++ rs' :: rr).flatten)).Nodup := by
      rw [hentries']
      have hdis := hdir.distinct
      rw [hentries] at hdis
      exact names_remove hdis
    refine ⟨d₅, _, _, _, x, ?_, hbec₅.good hgood₄.tick, ?_, ?_, hentries, hentries'⟩
    · show (orFail _ (-12) >>= fun _ => _) d = _
      rw [hm.blockSize, bind_of_ok (orFail_of_ok hrun₁), bind_of_ok (orFail_of_ok hrun₂),
        bind_of_ok (timeNull_eq d₂), bind_of_ok (orFail_of_ok hrun₃), bind_of_ok (orFail_of_ok hrun₄),
        bind_of_ok (timeNull_eq d₄)]
      exact orFail_of_ok hrun₅
    · refine ⟨hdir.replace hl hr htiles'.slice (by rw [hvol]) ?_ ?_ (fun k hk => ?_), hnames⟩
      · rw [hinode, touch_mode]
      · rw [hinode, touch_size]
      · rw [hinode, touch_block _ _ _ hk]
    · refine ⟨by rw [hvol], by rw [hvol], fun j hj hji => ?_, ?_, ?_, ?_,
        ⟨d₂.clock 0 % uint32, ?_⟩, fun c hc => ?_⟩
      · rw [hvol]
        exact (Function.update_of_ne hj ..).trans (Function.update_of_ne hji ..)
      · rw [hinode, touch_mode]
      · rw [hinode, touch_links]
      · rw [hinode, touch_dtime]
      · rw [hvol]
        exact (Function.update_of_ne hne ..).trans (Function.update_self ..)
      · rw [hvol]
        refine Function.update_of_ne (fun h0 => hc ?_) ..
        rw [h0]
        exact List.mem_append_right _ List.mem_cons_self

end Remove

end Guppy.Ext2
