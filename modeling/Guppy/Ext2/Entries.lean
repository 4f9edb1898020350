import Guppy.Ext2.Records
import Guppy.Ext2.Tree
import Mathlib.Data.List.GetD

set_option autoImplicit false

/-! # Directories of a volume

The live records of a directory are its entries; what `ext2_find_entry_at` gives is a map from
names to entries. `DirShape n v i blocks rss` says that inode `i` of the volume is a directory
that consists of these blocks, and that each block is tiled by its records; `DirAt` also says
that no two entries have the same name.
-/

namespace Guppy.Ext2

open Prog Vfs

/-! ## Entries -/

/-- The names that are in use, each with its inode and type. -/
def entries (rs : List DirRec) : List (Text × Nat × Nat) :=
  (rs.filter (·.ino ≠ 0)).map (fun r => (r.name, r.ino, r.fileType))

def names (es : List (Text × Nat × Nat)) : List Text := es.map Prod.fst

/-- What a name stands for. -/
def entryMap (es : List (Text × Nat × Nat)) (name : Text) : Option (Nat × Nat) :=
  (es.find? (·.1 = name)).map Prod.snd

section Entries

variable {r : DirRec} {rs : List DirRec} {name : Text} {x : Nat × Nat} {es fs : List (Text × Nat × Nat)}

theorem entries_append (rs rs' : List DirRec) : entries (rs ++ rs') = entries rs ++ entries rs' := by
  unfold entries
  rw [List.filter_append, List.map_append]

theorem entries_live (h : r.ino ≠ 0) (rs : List DirRec) :
    entries (r :: rs) = (r.name, r.ino, r.fileType) :: entries rs := by
  unfold entries
  rw [List.filter_cons_of_pos (by simpa using h), List.map_cons]

theorem entries_dead (h : r.ino = 0) (rs : List DirRec) : entries (r :: rs) = entries rs := by
  unfold entries
  rw [List.filter_cons_of_neg (by simpa using h)]

/-- The length of a record does not matter. -/
theorem entries_recLen (r : DirRec) (len : Nat) (rs : List DirRec) :
    entries ({ r with recLen := len } :: rs) = entries (r :: rs) := by
  by_cases h : r.ino = 0
  · rw [entries_dead h]
    exact entries_dead (r := { r with recLen := len }) h rs
  · rw [entries_live h]
    exact entries_live (r := { r with recLen := len }) h rs

theorem entryMap_cons (e : Text × Nat × Nat) (es : List (Text × Nat × Nat)) (name : Text) :
    entryMap (e :: es) name = if e.1 = name then some e.2 else entryMap es name := by
  unfold entryMap
  by_cases h : e.1 = name
  · rw [List.find?_cons_of_pos (by simpa using h), if_pos h]
    rfl
  · rw [List.find?_cons_of_neg (by simpa using h), if_neg h]

theorem entryMap_append (es fs : List (Text × Nat × Nat)) (name : Text) :
    entryMap (es ++ fs) name = (entryMap es name).or (entryMap fs name) := by
  unfold entryMap
  rw [List.find?_append]
  cases es.find? (·.1 = name) with
  | none => rfl
  | some e => rfl

theorem entryMap_eq_none : entryMap es name = none ↔ name ∉ names es := by
  unfold entryMap names
  rw [Option.map_eq_none_iff, List.find?_eq_none, List.mem_map]
  simp only [decide_eq_true_eq, not_exists, not_and]

/-- `lookup` only sees the entries. -/
theorem lookup_eq (rs : List DirRec) (name : Text) : lookup rs name = entryMap (entries rs) name := by
  induction rs with
  | nil => rfl
  | cons r rs ih =>
      rw [lookup_cons, ih]
      unfold DirRec.isNamed
      by_cases h : r.ino = 0
      · rw [entries_dead h, if_neg (by simp [h])]
      · rw [entries_live h, entryMap_cons]
        simp [h]

/-- A new entry changes the map at its name. -/
theorem entryMap_insert (h : name ∉ names (es ++ fs)) :
    entryMap (es ++ (name, x) :: fs) = Function.update (entryMap (es ++ fs)) name (some x) := by
  have hes : entryMap es name = none := by
    rw [entryMap_eq_none]
    exact fun hm => h (by rw [names, List.map_append]; exact List.mem_append_left _ hm)
  funext other
  rw [Function.update_apply, entryMap_append, entryMap_cons, entryMap_append]
  by_cases ho : other = name
  · rw [if_pos ho, ho, hes, if_pos rfl]
    rfl
  · rw [if_neg ho, if_neg (fun h' => ho h'.symm)]

/-- Taking an entry out changes the map at its name, when no other entry has that name. -/
theorem entryMap_remove (h : (names (es ++ (name, x) :: fs)).Nodup) :
    entryMap (es ++ fs) = Function.update (entryMap (es ++ (name, x) :: fs)) name none := by
  rw [names, List.map_append, List.map_cons, List.nodup_middle, List.nodup_cons,
    ← List.map_append] at h
  rw [entryMap_insert h.1, Function.update_idem]
  refine (Function.update_eq_self_iff.mpr ?_).symm
  exact (entryMap_eq_none.mpr h.1).symm

theorem names_insert (h : name ∉ names (es ++ fs)) (hnd : (names (es ++ fs)).Nodup) :
    (names (es ++ (name, x) :: fs)).Nodup := by
  rw [names, List.map_append, List.map_cons, List.nodup_middle, List.nodup_cons, ← List.map_append]
  exact ⟨h, hnd⟩

theorem names_remove (h : (names (es ++ (name, x) :: fs)).Nodup) : (names (es ++ fs)).Nodup := by
  rw [names, List.map_append, List.map_cons, List.nodup_middle, List.nodup_cons,
    ← List.map_append] at h
  exact h.2

end Entries

/-! ## Fields of an inode -/

section Fields

variable (p : Inode) (now k v : Nat)

/-- Writing an inode with new change times, `p.touch now`, keeps what the directory code reads. -/
theorem touch_mode : Inode.iMode ((p.touch now).slice 0 128) = p.iMode := by
  unfold Inode.iMode Inode.touch Inode.setCtime Inode.setMtime Mem.wr32
  rw [rd16_slice_zero (by omega)]
  simp (disch := omega) only [Mem.rd16_write_out]

theorem touch_links : Inode.iLinksCount ((p.touch now).slice 0 128) = p.iLinksCount := by
  unfold Inode.iLinksCount Inode.touch Inode.setCtime Inode.setMtime Mem.wr32
  rw [rd16_slice_zero (by omega)]
  simp (disch := omega) only [Mem.rd16_write_out]

theorem touch_size : Inode.iSize ((p.touch now).slice 0 128) = p.iSize := by
  unfold Inode.iSize Inode.touch Inode.setCtime Inode.setMtime Mem.wr32
  rw [rd32_slice_zero (by omega)]
  simp (disch := omega) only [Mem.rd32_write_out]

theorem touch_dtime : Inode.iDtime ((p.touch now).slice 0 128) = p.iDtime := by
  unfold Inode.iDtime Inode.touch Inode.setCtime Inode.setMtime Mem.wr32
  rw [rd32_slice_zero (by omega)]
  simp (disch := omega) only [Mem.rd32_write_out]

theorem touch_block (hk : k < 15) : Inode.iBlock ((p.touch now).slice 0 128) k = p.iBlock k := by
  unfold Inode.iBlock Inode.touch Inode.setCtime Inode.setMtime Mem.wr32
  rw [rd32_slice_zero (by omega)]
  simp (disch := omega) only [Mem.rd32_write_out]

end Fields

/-! ## Directories -/

/-- Each block is tiled by its list of records. -/
def TiledBy (blk : Nat → Mem) (blocks : List Nat) (rss : List (List DirRec)) : Prop :=
  List.Forall₂ (fun b rs => Tiles (blk b) 0 rs 4096) blocks rss

theorem TiledBy.congr {blk blk' : Nat → Mem} {blocks : List Nat} {rss : List (List DirRec)}
    (h : TiledBy blk blocks rss) (hb : ∀ b ∈ blocks, blk' b = blk b) : TiledBy blk' blocks rss := by
  induction h with
  | nil => exact List.Forall₂.nil
  | @cons b rs blocks rss hfirst _ ih =>
      refine List.Forall₂.cons ?_ (ih (fun c hc => hb c (List.mem_cons_of_mem _ hc)))
      rw [hb b List.mem_cons_self]
      exact hfirst

/-- Inode `i` of the volume is a directory with these blocks and records. -/
structure DirShape (n : Nat) (v : Vol) (i : Nat) (blocks : List Nat) (rss : List (List DirRec)) :
    Prop where
  range : 1 ≤ i ∧ i ≤ inodesOf n
  mode : ifmt (v.inode i).iMode = sIfdir
  le : blocks.length ≤ 12
  block : ∀ k, k < 15 → (v.inode i).iBlock k = blocks.getD k 0
  size : (v.inode i).iSize = blocks.length * 4096
  nodup : blocks.Nodup
  data : ∀ b ∈ blocks, DataBlock n b
  tiles : TiledBy v.blk blocks rss

/-- The same, and the names of its entries are different. -/
structure DirAt (n : Nat) (v : Vol) (i : Nat) (blocks : List Nat) (rss : List (List DirRec)) : Prop
    extends DirShape n v i blocks rss where
  distinct : (names (entries rss.flatten)).Nodup

section Dir

variable {n i : Nat} {v v' : Vol} {d : Vblk} {m : Ext2Meta} {blocks : List Nat}
  {rss : List (List DirRec)} {name : Text}

theorem DirShape.pointers (h : DirShape n v i blocks rss) :
    (List.range 12).map (v.inode i).iBlock = blocks ++ List.replicate (12 - blocks.length) 0 := by
  have hle := h.le
  refine List.ext_getElem (by simp; omega) (fun k h₁ _ => ?_)
  have hk : k < 12 := by simpa using h₁
  rw [List.getElem_map, List.getElem_range, h.block k (by omega)]
  by_cases hlt : k < blocks.length
  · rw [List.getElem_append_left hlt, List.getD_eq_getElem _ _ hlt]
  · rw [List.getElem_append_right (by omega), List.getElem_replicate,
      List.getD_eq_default _ _ (by omega)]

theorem DirShape.dirBlocks_eq (h : DirShape n v i blocks rss) : dirBlocks (v.inode i) = blocks := by
  have hall : ∀ b ∈ blocks, (fun b => decide (b ≠ 0)) b = true := by
    intro b hb
    simpa using (h.data b hb).ne_zero
  unfold dirBlocks
  rw [h.pointers]
  rcases Nat.eq_zero_or_pos (12 - blocks.length) with h0 | hpos
  · rw [h0, List.replicate_zero, List.append_nil]
    exact List.takeWhile_eq_self_iff.mpr hall
  · obtain ⟨k, hk⟩ := Nat.exists_eq_succ_of_ne_zero (Nat.pos_iff_ne_zero.mp hpos)
    rw [hk, List.replicate_succ, List.takeWhile_append_of_pos hall,
      List.takeWhile_cons_of_neg (by simp), List.append_nil]

/-- A directory owns the blocks of its records. -/
theorem DirShape.treeBlocks_eq (h : DirShape n v i blocks rss) : treeBlocks v.blk (v.inode i) = blocks := by
  have hle := h.le
  have h12 : (v.inode i).iBlock 12 = 0 := by
    rw [h.block 12 (by omega), List.getD_eq_default _ _ (by omega)]
  have h13 : (v.inode i).iBlock 13 = 0 := by
    rw [h.block 13 (by omega), List.getD_eq_default _ _ (by omega)]
  have hself : blocks.filter (fun b => decide (b ≠ 0)) = blocks := by
    refine List.filter_eq_self.mpr (fun b hb => ?_)
    simpa using (h.data b hb).ne_zero
  have hnone : (List.replicate (12 - blocks.length) 0).filter (fun b => decide (b ≠ 0)) = [] := by
    refine List.filter_eq_nil_iff.mpr (fun b hb => ?_)
    rw [List.eq_of_mem_replicate hb]
    simp
  unfold treeBlocks singleBlocks doubleBlocks nonzero
  rw [h.pointers, List.filter_append, hself, hnone, if_pos h12, if_pos h13, List.append_nil,
    List.append_nil, List.append_nil]

/-- The next free slot of the directory's inode. -/
theorem DirShape.slot (h : DirShape n v i blocks rss) :
    firstFrom (fun k => (v.inode i).iBlock k = 0) 12 0
      = if blocks.length < 12 then some blocks.length else none := by
  have hfull : ∀ k, k < blocks.length → (v.inode i).iBlock k ≠ 0 := by
    intro k hk
    have hle := h.le
    rw [h.block k (by omega), List.getD_eq_getElem _ _ hk]
    exact (h.data _ (List.getElem_mem hk)).ne_zero
  cases hf : firstFrom (fun k => decide ((v.inode i).iBlock k = 0)) 12 0 with
  | none =>
      have hnone := firstFrom_none.mp hf
      rw [if_neg]
      intro hlt
      have := hnone blocks.length (Nat.zero_le _) (by omega)
      rw [decide_eq_false_iff_not, h.block _ (by omega), List.getD_eq_default _ _ (Nat.le_refl _)] at this
      exact this rfl
  | some k =>
      obtain ⟨_, hk, hzero, hmin⟩ := firstFrom_some hf
      have hge : blocks.length ≤ k := by
        by_contra hlt
        exact hfull k (by omega) (by simpa using hzero)
      have heq : k = blocks.length := by
        by_contra hne
        have := hmin blocks.length (Nat.zero_le _) (by omega)
        rw [decide_eq_false_iff_not, h.block _ (by omega), List.getD_eq_default _ _ (Nat.le_refl _)] at this
        exact this rfl
      rw [if_pos (by omega), heq]

/-- A directory whose pointers and blocks have not changed. -/
theorem DirShape.of_fields (h : DirShape n v i blocks rss) (hmode : (v'.inode i).iMode = (v.inode i).iMode)
    (hsize : (v'.inode i).iSize = (v.inode i).iSize)
    (hblock : ∀ k, k < 15 → (v'.inode i).iBlock k = (v.inode i).iBlock k)
    (hb : ∀ b ∈ blocks, v'.blk b = v.blk b) : DirShape n v' i blocks rss where
  range := h.range
  mode := by rw [hmode]; exact h.mode
  le := h.le
  block k hk := by rw [hblock k hk]; exact h.block k hk
  size := by rw [hsize]; exact h.size
  nodup := h.nodup
  data := h.data
  tiles := h.tiles.congr hb

/-- A directory whose inode and blocks have not changed. -/
theorem DirShape.frame (h : DirShape n v i blocks rss) (hi : v'.inode i = v.inode i)
    (hb : ∀ b ∈ blocks, v'.blk b = v.blk b) : DirShape n v' i blocks rss :=
  h.of_fields (by rw [hi]) (by rw [hi]) (fun k _ => by rw [hi]) hb

theorem DirShape.blocksTiled (h : DirShape n (vol n d) i blocks rss) (hd : Holds n d) :
    BlocksTiled d 4096 blocks rss := by
  refine (List.forall₂_iff_get.mpr ⟨h.tiles.length_eq, fun k h₁ h₂ => ?_⟩)
  have hb := h.data _ (List.get_mem blocks ⟨k, h₁⟩)
  exact ⟨_, preadBlock_data hd hb.lt hb.notMeta, (List.forall₂_iff_get.mp h.tiles).2 k h₁ h₂⟩

/-- `ext2_find_entry_at` looks the name up in the entries. -/
theorem DirShape.find (hg : Geometry n) (hd : Holds n d) (hm : MetaFits n m)
    (h : DirShape n (vol n d) i blocks rss) (hname : name ≠ []) (hlen : name.length ≤ 255) :
    ext2FindEntryAt d m i name = .ok (entryMap (entries rss.flatten) name) := by
  have htiled := h.blocksTiled hd
  rw [← lookup_eq]
  refine ext2FindEntryAt_of_tiled (ext2ReadInodeAt_eq hg hm hd h.range.1 h.range.2) h.mode
    (by rw [hm.blockSize]; omega) (by rw [hm.blockSize]) ?_ hname hlen
  rw [h.dirBlocks_eq, hm.blockSize]
  exact htiled

/-- Every answer of `ext2_find_entry_at` in a directory. -/
theorem DirShape.find_all (hg : Geometry n) (hd : Holds n d) (hm : MetaFits n m)
    (h : DirShape n (vol n d) i blocks rss) :
    ext2FindEntryAt d m i = fun name => if name = [] then .error (-1)
      else if 255 < name.length then .error (-4) else .ok (entryMap (entries rss.flatten) name) := by
  funext name
  by_cases hname : name = []
  · rw [if_pos hname]
    unfold ext2FindEntryAt
    rw [except_bind_of_error (check_of hname)]
  · rw [if_neg hname]
    by_cases hlen : 255 < name.length
    · rw [if_pos hlen]
      unfold ext2FindEntryAt
      rw [except_bind_of_ok (check_of_not hname),
        except_bind_of_ok (orCode_of_ok (ext2ReadInodeAt_eq hg hm hd h.range.1 h.range.2)),
        except_bind_of_ok (check_of_not (not_not.mpr h.mode)), except_bind_of_error (check_of hlen)]
    · rw [if_neg hlen]
      exact h.find hg hd hm hname (by omega)

/-- `ext2_find_entry_at` finds nothing in an inode that is no directory. -/
theorem find_other (hg : Geometry n) (hd : Holds n d) (hm : MetaFits n m)
    (h : ifmt ((vol n d).inode i).iMode ≠ sIfdir) :
    ext2FindEntryAt d m i = fun name => if name = [] then .error (-1)
      else if 1 ≤ i ∧ i ≤ inodesOf n then .error (-3) else .error (-2) := by
  funext name
  unfold ext2FindEntryAt
  by_cases hname : name = []
  · rw [if_pos hname, except_bind_of_error (check_of hname)]
  · rw [if_neg hname, except_bind_of_ok (check_of_not hname)]
    by_cases hr : 1 ≤ i ∧ i ≤ inodesOf n
    · rw [if_pos hr, except_bind_of_ok (orCode_of_ok (ext2ReadInodeAt_eq hg hm hd hr.1 hr.2)),
        except_bind_of_error (check_of h)]
    · obtain ⟨e, he⟩ := @ext2ReadInodeAt_out n d m hm i (by omega)
      rw [if_neg hr, he]
      rfl

/-- A name is only looked up in a directory, and it has 1 to 255 bytes. -/
theorem find_ok_dir (hg : Geometry n) (hd : Holds n d) (hm : MetaFits n m) {x : Option (Nat × Nat)}
    (h : ext2FindEntryAt d m i name = .ok x) :
    ifmt ((vol n d).inode i).iMode = sIfdir ∧ name ≠ [] ∧ name.length ≤ 255 := by
  have hmode : ifmt ((vol n d).inode i).iMode = sIfdir := by
    by_contra hnd
    rw [find_other hg hd hm hnd] at h
    dsimp only [] at h
    split at h
    · cases h
    · split at h
      · cases h
      · cases h
  unfold ext2FindEntryAt at h
  have hname : name ≠ [] := by
    intro h0
    rw [except_bind_of_error (check_of h0)] at h
    cases h
  refine ⟨hmode, hname, ?_⟩
  by_contra hlen
  rw [except_bind_of_ok (check_of_not hname)] at h
  obtain ⟨dir, -, h⟩ := except_bind_ok_iff.mp h
  obtain ⟨-, -, h⟩ := except_bind_ok_iff.mp h
  rw [except_bind_of_error (check_of (by omega))] at h
  cases h

end Dir

/-! ## Searching the blocks -/

section Search

variable {α : Type} {n i : Nat} {d : Vblk} {blocks : List Nat} {rss : List (List DirRec)}

/-- The first block in which a search finds something, among those before and after it. -/
theorem findBlock_split (hd : Holds n d) (code : Int) (pick : Mem → Option α)
    (hdata : ∀ b ∈ blocks, DataBlock n b)
    (h : TiledBy (vol n d).blk blocks rss) :
    (findBlock d 4096 code pick blocks = .ok none ∧ ∀ b ∈ blocks, pick ((vol n d).blk b) = none) ∨
      ∃ bl b br rl rs rr a, blocks = bl ++ b :: br ∧ rss = rl ++ rs :: rr ∧
        TiledBy (vol n d).blk bl rl ∧ Tiles ((vol n d).blk b) 0 rs 4096 ∧ TiledBy (vol n d).blk br rr ∧
        pick ((vol n d).blk b) = some a ∧
        (∀ c ∈ bl, pick ((vol n d).blk c) = none) ∧
        findBlock d 4096 code pick blocks = .ok (some (b, (vol n d).blk b, a)) := by
  induction h with
  | nil => exact Or.inl ⟨rfl, fun b hb => absurd hb List.not_mem_nil⟩
  | @cons b rs blocks rss hb hrest ih =>
      have hblk := hdata b List.mem_cons_self
      rw [findBlock, except_bind_of_ok (orCode_of_ok (preadBlock_data hd hblk.lt hblk.notMeta))]
      cases hp : pick ((vol n d).blk b) with
      | some a =>
          exact Or.inr ⟨[], b, blocks, [], rs, rss, a, rfl, rfl, List.Forall₂.nil, hb, hrest, hp,
            fun c hc => absurd hc List.not_mem_nil, rfl⟩
      | none =>
          rcases ih (fun c hc => hdata c (List.mem_cons_of_mem _ hc)) with ⟨hnone, hall⟩ | hsome
          · refine Or.inl ⟨hnone, fun c hc => ?_⟩
            rcases List.mem_cons.mp hc with rfl | hc
            · exact hp
            · exact hall c hc
          · obtain ⟨bl, b', br, rl, rs', rr, a, rfl, rfl, hl, htiles, hr, ha, hall, hrun⟩ := hsome
            refine Or.inr ⟨b :: bl, b', br, rs :: rl, rs', rr, a, rfl, rfl, List.Forall₂.cons hb hl,
              htiles, hr, ha, ?_, hrun⟩
            intro c hc
            rcases List.mem_cons.mp hc with rfl | hc
            · exact hp
            · exact hall c hc

end Search

end Guppy.Ext2
