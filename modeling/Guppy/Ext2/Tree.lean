import Guppy.Ext2.Context

set_option autoImplicit false

/-! # The blocks of an inode

An inode points to its blocks directly, through one pointer block, and through a block of
pointer blocks. `treeBlocks` lists all of them, pointer blocks included, in the order in which
`ext2_free_inode_data_blocks` frees them. On a volume where they are pairwise different data
blocks that are marked used, freeing an inode clears exactly their bits (`freeTree_eq`).
-/

namespace Guppy.Ext2

open Prog Vfs

/-! ## Listing the blocks -/

/-- The pointers that point somewhere. -/
def nonzero (l : List Nat) : List Nat := l.filter (· ≠ 0)

/-- A pointer block and the blocks it points to. -/
def leafBlocks (blk : Nat → Mem) (leaf : Nat) : List Nat := nonzero (ptrList 1024 (blk leaf)) ++ [leaf]

def singleBlocks (blk : Nat → Mem) (b : Nat) : List Nat := if b = 0 then [] else leafBlocks blk b

def doubleBlocks (blk : Nat → Mem) (b : Nat) : List Nat :=
  if b = 0 then [] else (nonzero (ptrList 1024 (blk b))).flatMap (leafBlocks blk) ++ [b]

/-- The blocks of an inode, for blocks with these bytes. -/
def treeBlocks (blk : Nat → Mem) (file : Inode) : List Nat :=
  nonzero ((List.range 12).map file.iBlock) ++ singleBlocks blk (file.iBlock 12)
    ++ doubleBlocks blk (file.iBlock 13)

/-- A block of the volume that is not metadata. -/
structure DataBlock (n b : Nat) : Prop where
  lt : b < n
  notMeta : isMeta n b = false

/-- The bitmap `used` with the bits of these blocks cleared. -/
def without (used : Nat → Bool) (l : List Nat) : Nat → Bool := fun b => used b && !decide (b ∈ l)

/-- The blocks are pairwise different data blocks that are marked used. -/
structure Taken (n : Nat) (used : Nat → Bool) (l : List Nat) : Prop where
  nodup : l.Nodup
  data : ∀ b ∈ l, DataBlock n b
  used : ∀ b ∈ l, used b = true

section Listing

variable {blk blk' : Nat → Mem} {file file' : Inode} {n : Nat} {used : Nat → Bool}

theorem nonzero_cons {b : Nat} (h : b ≠ 0) (l : List Nat) : nonzero (b :: l) = b :: nonzero l := by
  unfold nonzero
  rw [List.filter_cons_of_pos (by simpa using h)]

theorem DataBlock.ne_zero {b : Nat} (h : DataBlock n b) : b ≠ 0 := by
  rintro rfl
  have := isMeta_eq_false.mp h.notMeta
  unfold dataStart at this
  omega

theorem without_nil (used : Nat → Bool) : without used [] = used := by
  funext b
  simp [without]

theorem without_append (used : Nat → Bool) (l l' : List Nat) :
    without used (l ++ l') = without (without used l) l' := by
  funext b
  by_cases h : b ∈ l <;> by_cases h' : b ∈ l' <;> simp [without, h, h']

theorem without_cons (used : Nat → Bool) (b : Nat) (l : List Nat) :
    without used (b :: l) = without (Function.update used b false) l := by
  funext c
  by_cases h : c = b
  · subst h
    simp [without]
  · simp [without, h, Function.update_of_ne h]

theorem without_of_not_mem {l : List Nat} {b : Nat} (h : b ∉ l) : without used l b = used b := by
  simp [without, h]

theorem Taken.left {l l' : List Nat} (h : Taken n used (l ++ l')) : Taken n used l :=
  ⟨(List.nodup_append.mp h.nodup).1, fun b hb => h.data b (List.mem_append_left _ hb),
    fun b hb => h.used b (List.mem_append_left _ hb)⟩

/-- What is left after the first blocks have been freed. -/
theorem Taken.right {l l' : List Nat} (h : Taken n used (l ++ l')) : Taken n (without used l) l' := by
  have hdis := (List.nodup_append.mp h.nodup).2.2
  refine ⟨(List.nodup_append.mp h.nodup).2.1, fun b hb => h.data b (List.mem_append_right _ hb),
    fun b hb => ?_⟩
  rw [without_of_not_mem (fun hl => hdis b hl b hb rfl)]
  exact h.used b (List.mem_append_right _ hb)

theorem leafBlocks_congr {leaf : Nat} (h : blk' leaf = blk leaf) :
    leafBlocks blk' leaf = leafBlocks blk leaf := by
  unfold leafBlocks
  rw [h]

theorem flatMap_leafBlocks_congr {l : List Nat} (h : ∀ b ∈ l.flatMap (leafBlocks blk), blk' b = blk b) :
    l.flatMap (leafBlocks blk') = l.flatMap (leafBlocks blk) := by
  refine List.flatMap_congr (fun leaf hleaf => leafBlocks_congr (h leaf ?_))
  exact List.mem_flatMap.mpr ⟨leaf, hleaf, List.mem_append_right _ (List.mem_singleton_self _)⟩

/-- The blocks of an inode only depend on the bytes of those blocks. -/
theorem treeBlocks_congr (h : ∀ b ∈ treeBlocks blk file, blk' b = blk b) :
    treeBlocks blk' file = treeBlocks blk file := by
  have hsingle : singleBlocks blk' (file.iBlock 12) = singleBlocks blk (file.iBlock 12) := by
    unfold singleBlocks
    by_cases h0 : file.iBlock 12 = 0
    · rw [if_pos h0, if_pos h0]
    · rw [if_neg h0, if_neg h0]
      refine leafBlocks_congr (h _ ?_)
      simp [treeBlocks, singleBlocks, h0, leafBlocks]
  have hdouble : doubleBlocks blk' (file.iBlock 13) = doubleBlocks blk (file.iBlock 13) := by
    unfold doubleBlocks
    by_cases h0 : file.iBlock 13 = 0
    · rw [if_pos h0, if_pos h0]
    · have hroot : blk' (file.iBlock 13) = blk (file.iBlock 13) :=
        h _ (by simp [treeBlocks, doubleBlocks, h0])
      rw [if_neg h0, if_neg h0, hroot, flatMap_leafBlocks_congr (fun b hb => h b ?_)]
      refine List.mem_append_right _ ?_
      unfold doubleBlocks
      rw [if_neg h0]
      exact List.mem_append_left _ hb
  unfold treeBlocks
  rw [hsingle, hdouble]

/-- The blocks of an inode only depend on its pointers. -/
theorem treeBlocks_of_pointers (h : ∀ k, k < 14 → file'.iBlock k = file.iBlock k) :
    treeBlocks blk file' = treeBlocks blk file := by
  have hdirect : (List.range 12).map file'.iBlock = (List.range 12).map file.iBlock :=
    List.map_congr_left (fun k hk => h k (by have := List.mem_range.mp hk; omega))
  unfold treeBlocks
  rw [hdirect, h 12 (by omega), h 13 (by omega)]

/-- An inode without pointers has no blocks. -/
theorem treeBlocks_empty (h : ∀ k, k < 14 → file.iBlock k = 0) : treeBlocks blk file = [] := by
  have hdirect : nonzero ((List.range 12).map file.iBlock) = [] := by
    refine List.filter_eq_nil_iff.mpr (fun b hb => ?_)
    obtain ⟨k, hk, rfl⟩ := List.mem_map.mp hb
    rw [h k (by have := List.mem_range.mp hk; omega)]
    simp
  unfold treeBlocks singleBlocks doubleBlocks
  rw [hdirect, if_pos (h 12 (by omega)), if_pos (h 13 (by omega))]
  rfl

end Listing

/-! ## Freeing the blocks -/

section Free

variable {n : Nat} {d : Vblk} {m : Ext2Meta} {ctx : AllocCtx} {used : Nat → Bool} {file : Inode}

/-- The outcome of freeing the blocks of the list. -/
def FreedBy (n : Nat) (d : Vblk) (used : Nat → Bool) (l : List Nat)
    (r : Except Int (Ext2Meta × AllocCtx)) : Prop :=
  ∃ m' ctx', r = .ok (m', ctx') ∧ Pending n (vol n d) m' ctx' (without used l)

theorem FreedBy.append {l l' : List Nat} {r : Except Int (Ext2Meta × AllocCtx)}
    (h : FreedBy n d (without used l) l' r) : FreedBy n d used (l ++ l') r := by
  unfold FreedBy at h ⊢
  rwa [without_append]

theorem freeCtxBlocks_eq (hg : Geometry n) (hd : Holds n d) (code : Int) {l : List Nat} :
    ∀ {m : Ext2Meta} {ctx : AllocCtx} {used : Nat → Bool}, Pending n (vol n d) m ctx used →
      Taken n used (nonzero l) → FreedBy n d used (nonzero l) (freeCtxBlocks d code l (m, ctx)) := by
  induction l with
  | nil =>
      intro m ctx used h _
      exact ⟨m, ctx, rfl, by rw [show nonzero [] = [] from rfl, without_nil]; exact h⟩
  | cons b l ih =>
      intro m ctx used h ht
      rw [freeCtxBlocks]
      by_cases h0 : b = 0
      · subst h0
        rw [if_pos rfl]
        exact ih h ht
      · rw [nonzero_cons h0] at ht ⊢
        have hb := ht.data b List.mem_cons_self
        obtain ⟨m', ctx', hfree, h'⟩ := ext2FreeBlockCtx_eq hg hd h h0 hb.lt (ht.used b List.mem_cons_self)
        have hone : without used [b] = Function.update used b false := by
          rw [without_cons, without_nil]
        rw [if_neg h0, except_bind_of_ok (orCode_of_ok hfree)]
        refine FreedBy.append (l := [b]) ?_
        rw [hone]
        refine ih h' ?_
        rw [← hone]
        exact Taken.right (l := [b]) ht

/-- The blocks under a pointer block, then that block. -/
theorem freePointers_eq (hg : Geometry n) (hd : Holds n d) (code code' : Int) {leaf : Nat} {ptrblk : Mem}
    (hblk : (vol n d).blk leaf = ptrblk) (h : Pending n (vol n d) m ctx used)
    (ht : Taken n used (leafBlocks (vol n d).blk leaf)) :
    FreedBy n d used (leafBlocks (vol n d).blk leaf)
      (freeCtxBlocks d code (ptrList 1024 ptrblk) (m, ctx) >>= freeCtxBlocks d code' [leaf]) := by
  unfold leafBlocks at ht ⊢
  rw [hblk] at ht ⊢
  have h0 := (ht.data leaf (List.mem_append_right _ (List.mem_singleton_self _))).ne_zero
  obtain ⟨m', ctx', hfree, h'⟩ := freeCtxBlocks_eq hg hd code h ht.left
  have hone : nonzero [leaf] = [leaf] := nonzero_cons h0 []
  have hlast := freeCtxBlocks_eq hg hd code' (l := [leaf]) h' (by rw [hone]; exact ht.right)
  rw [hone] at hlast
  rw [except_bind_of_ok hfree]
  exact hlast.append

theorem freeLeaves_eq (hg : Geometry n) (hd : Holds n d) {leaves : List Nat} :
    ∀ {m : Ext2Meta} {ctx : AllocCtx} {used : Nat → Bool}, Pending n (vol n d) m ctx used →
      Taken n used ((nonzero leaves).flatMap (leafBlocks (vol n d).blk)) →
      FreedBy n d used ((nonzero leaves).flatMap (leafBlocks (vol n d).blk))
        (freeLeaves d 1024 leaves (m, ctx)) := by
  induction leaves with
  | nil =>
      intro m ctx used h _
      refine ⟨m, ctx, rfl, ?_⟩
      rw [show (nonzero []).flatMap (leafBlocks (vol n d).blk) = [] from rfl, without_nil]
      exact h
  | cons leaf leaves ih =>
      intro m ctx used h ht
      rw [freeLeaves]
      by_cases h0 : leaf = 0
      · subst h0
        rw [if_pos rfl]
        exact ih h ht
      · rw [nonzero_cons h0, List.flatMap_cons] at ht ⊢
        have hdata := ht.left.data leaf (List.mem_append_right _ (List.mem_singleton_self _))
        have hread : preadBlock d m.blockSize leaf m.blockSize = .ok ((vol n d).blk leaf) := by
          rw [h.current.blockSize]
          exact preadBlock_data hd hdata.lt hdata.notMeta
        obtain ⟨m', ctx', hfree, h'⟩ := freePointers_eq hg hd (-9) (-10) rfl h ht.left
        obtain ⟨s, hfirst, hlast⟩ := except_bind_ok_iff.mp hfree
        rw [if_neg h0]
        dsimp only []
        rw [except_bind_of_ok (orCode_of_ok hread), except_bind_of_ok hfirst, except_bind_of_ok hlast]
        exact (ih h' ht.right).append

theorem freeSingle_eq (hg : Geometry n) (hd : Holds n d) (h : Pending n (vol n d) m ctx used)
    (ht : Taken n used (singleBlocks (vol n d).blk (file.iBlock 12))) :
    FreedBy n d used (singleBlocks (vol n d).blk (file.iBlock 12)) (freeSingle d file (m, ctx)) := by
  unfold freeSingle
  by_cases h0 : file.iBlock 12 = 0
  · rw [if_pos h0, h0]
    exact ⟨m, ctx, rfl, by rw [show singleBlocks _ 0 = [] from rfl, without_nil]; exact h⟩
  · have heq : singleBlocks (vol n d).blk (file.iBlock 12) = leafBlocks (vol n d).blk (file.iBlock 12) :=
      if_neg h0
    rw [heq] at ht ⊢
    have hdata := ht.data _ (List.mem_append_right _ (List.mem_singleton_self _))
    have hread : preadBlock d m.blockSize (file.iBlock 12) m.blockSize
        = .ok ((vol n d).blk (file.iBlock 12)) := by
      rw [h.current.blockSize]
      exact preadBlock_data hd hdata.lt hdata.notMeta
    have hptrs : m.ptrs = 1024 := by
      unfold Ext2Meta.ptrs
      rw [h.current.blockSize]
    rw [if_neg h0]
    dsimp only []
    rw [except_bind_of_ok (orCode_of_ok hread), hptrs]
    exact freePointers_eq hg hd (-5) (-6) rfl h ht

theorem freeDouble_eq (hg : Geometry n) (hd : Holds n d) (h : Pending n (vol n d) m ctx used)
    (ht : Taken n used (doubleBlocks (vol n d).blk (file.iBlock 13))) :
    FreedBy n d used (doubleBlocks (vol n d).blk (file.iBlock 13)) (freeDouble d file (m, ctx)) := by
  unfold freeDouble
  by_cases h0 : file.iBlock 13 = 0
  · rw [if_pos h0, h0]
    exact ⟨m, ctx, rfl, by rw [show doubleBlocks _ 0 = [] from rfl, without_nil]; exact h⟩
  · have heq : doubleBlocks (vol n d).blk (file.iBlock 13)
        = (nonzero (ptrList 1024 ((vol n d).blk (file.iBlock 13)))).flatMap (leafBlocks (vol n d).blk)
          ++ [file.iBlock 13] := if_neg h0
    rw [heq] at ht ⊢
    have hdata := ht.data _ (List.mem_append_right _ (List.mem_singleton_self _))
    have hread : preadBlock d m.blockSize (file.iBlock 13) m.blockSize
        = .ok ((vol n d).blk (file.iBlock 13)) := by
      rw [h.current.blockSize]
      exact preadBlock_data hd hdata.lt hdata.notMeta
    have hptrs : m.ptrs = 1024 := by
      unfold Ext2Meta.ptrs
      rw [h.current.blockSize]
    obtain ⟨m', ctx', hleaves, h'⟩ := freeLeaves_eq hg hd h ht.left
    have hone : nonzero [file.iBlock 13] = [file.iBlock 13] := nonzero_cons h0 []
    rw [if_neg h0]
    dsimp only []
    have hlast := freeCtxBlocks_eq hg hd (-11) (l := [file.iBlock 13]) h' (by rw [hone]; exact ht.right)
    rw [hone] at hlast
    rw [except_bind_of_ok (orCode_of_ok hread), hptrs, except_bind_of_ok hleaves]
    exact hlast.append

/-- What `ext2_free_inode_data_blocks` frees before its commit. -/
theorem freeTree_eq (hg : Geometry n) (hd : Holds n d) (h : Current n (vol n d) m)
    (ht : Taken n (vol n d).used (treeBlocks (vol n d).blk file)) :
    FreedBy n d (vol n d).used (treeBlocks (vol n d).blk file) (freeTree d m file) := by
  unfold treeBlocks at ht ⊢
  obtain ⟨m₁, ctx₁, hdirect, h₁⟩ := freeCtxBlocks_eq hg hd (-3) (pending_init h) ht.left.left
  obtain ⟨m₂, ctx₂, hsingle, h₂⟩ := freeSingle_eq hg hd h₁ ht.left.right
  rw [← without_append] at h₂
  have hdouble := freeDouble_eq hg hd h₂ ht.right
  unfold freeTree
  rw [except_bind_of_ok hdirect, except_bind_of_ok hsingle]
  exact hdouble.append

/-- `ext2_free_inode_data_blocks` clears the bits of the blocks of the inode. -/
theorem ext2FreeInodeDataBlocks_eq (hg : Geometry n) (hd : Holds n d) (h : Current n (vol n d) m)
    (h14 : file.iBlock 14 = 0) (ht : Taken n (vol n d).used (treeBlocks (vol n d).blk file)) :
    ∃ d' m', ext2FreeInodeDataBlocks m file d = .ok m' d' ∧ Good n d' ∧
      vol n d' = { vol n d with used := without (vol n d).used (treeBlocks (vol n d).blk file) } ∧
      Current n (vol n d') m' := by
  obtain ⟨m', ctx', hfree, hp⟩ := freeTree_eq hg hd h ht
  obtain ⟨d', hcommit, hgood, hvol⟩ := ext2AllocCtxCommit_eq hg hd hp
  refine ⟨d', m', ?_, hgood, hvol, by rw [hvol]; exact hp.current⟩
  unfold ext2FreeInodeDataBlocks
  rw [bind_of_ok (failIf_of_not (by rw [h14]; simp))]
  refine bind_look hfree ?_
  rw [bind_of_ok (orFail_of_ok hcommit)]
  rfl

end Free

end Guppy.Ext2
