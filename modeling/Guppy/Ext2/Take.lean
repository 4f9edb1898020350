import Guppy.Ext2.Head

set_option autoImplicit false

/-! # Allocating and freeing, one at a time -/

namespace Guppy.Ext2

open Prog Vfs

/-! ## Free counts -/

/-- Changing one term of a sum. -/
theorem sum_change {f f' : Nat → Nat} {k g : Nat} (hg : g < k) (h : ∀ j, j ≠ g → f' j = f j) :
    ∑ j ∈ Finset.range k, f' j + f g = ∑ j ∈ Finset.range k, f j + f' g := by
  have hmem : g ∈ Finset.range k := Finset.mem_range.mpr hg
  have hrest : ∑ j ∈ (Finset.range k).erase g, f' j = ∑ j ∈ (Finset.range k).erase g, f j :=
    Finset.sum_congr rfl (fun j hj => h j (Finset.ne_of_mem_erase hj))
  rw [← Finset.add_sum_erase _ f hmem, ← Finset.add_sum_erase _ f' hmem, hrest]
  omega

section Counts

variable {n : Nat} {v : Vol} {m : Ext2Meta}

theorem freeIn_le (n : Nat) (used : Nat → Bool) (g : Nat) : freeIn n used g ≤ 32768 := by
  have h₁ := clearIn_le used (g * 32768) (groupBlocks n g)
  have h₂ : groupBlocks n g ≤ 32768 := min_le_left _ _
  exact le_trans h₁ h₂

theorem ifreeIn_le (live : Nat → Bool) (g : Nat) : ifreeIn live g ≤ 1024 := clearIn_le _ _ _

theorem sum_le_mul {f : Nat → Nat} {k c : Nat} (h : ∀ g, f g ≤ c) :
    ∑ g ∈ Finset.range k, f g ≤ k * c := by
  have := Finset.sum_le_card_nsmul (Finset.range k) f c (fun g _ => h g)
  simpa using this

/-- Marking one free block of group `g` used. -/
theorem freeIn_set {used : Nat → Bool} {b : Nat} (hb : b < n) (hu : used b = false) :
    freeIn n (Function.update used b true) (b / 32768) + 1 = freeIn n used (b / 32768) ∧
      ∀ g, g ≠ b / 32768 → freeIn n (Function.update used b true) g = freeIn n used g := by
  have hl := groupBlocks_of_lt hb
  have hbe : b / 32768 * 32768 + b % 32768 = b := by omega
  refine ⟨?_, fun g hg => clearIn_congr (fun i hi => ?_)⟩
  · have := clearIn_set (p := used) hl (by rw [hbe]; exact hu)
    rw [hbe] at this
    exact this
  · rw [Function.update_of_ne]
    have : groupBlocks n g ≤ 32768 := min_le_left _ _
    omega

theorem freeIn_clear {used : Nat → Bool} {b : Nat} (hb : b < n) (hu : used b = true) :
    freeIn n (Function.update used b false) (b / 32768) = freeIn n used (b / 32768) + 1 ∧
      ∀ g, g ≠ b / 32768 → freeIn n (Function.update used b false) g = freeIn n used g := by
  have hl := groupBlocks_of_lt hb
  have hbe : b / 32768 * 32768 + b % 32768 = b := by omega
  refine ⟨?_, fun g hg => clearIn_congr (fun i hi => ?_)⟩
  · have := clearIn_clear (p := used) hl (by rw [hbe]; exact hu)
    rw [hbe] at this
    exact this
  · rw [Function.update_of_ne]
    have : groupBlocks n g ≤ 32768 := min_le_left _ _
    omega

theorem ifreeIn_set {live : Nat → Bool} {i : Nat} (hi : 1 ≤ i) (hl : live i = false) :
    ifreeIn (Function.update live i true) ((i - 1) / 1024) + 1 = ifreeIn live ((i - 1) / 1024) ∧
      ∀ g, g ≠ (i - 1) / 1024 → ifreeIn (Function.update live i true) g = ifreeIn live g := by
  have hie : (i - 1) / 1024 * 1024 + 1 + (i - 1) % 1024 = i := by omega
  refine ⟨?_, fun g hg => clearIn_congr (fun j hj => ?_)⟩
  · have := @clearIn_set live _ 1024
      ((i - 1) % 1024) (by omega) (by rw [hie]; exact hl)
    rw [hie] at this
    exact this
  · rw [Function.update_of_ne]
    omega

theorem ifreeIn_clear {live : Nat → Bool} {i : Nat} (hi : 1 ≤ i) (hl : live i = true) :
    ifreeIn (Function.update live i false) ((i - 1) / 1024) = ifreeIn live ((i - 1) / 1024) + 1 ∧
      ∀ g, g ≠ (i - 1) / 1024 → ifreeIn (Function.update live i false) g = ifreeIn live g := by
  have hie : (i - 1) / 1024 * 1024 + 1 + (i - 1) % 1024 = i := by omega
  refine ⟨?_, fun g hg => clearIn_congr (fun j hj => ?_)⟩
  · have := @clearIn_clear live _ 1024
      ((i - 1) % 1024) (by omega) (by rw [hie]; exact hl)
    rw [hie] at this
    exact this
  · rw [Function.update_of_ne]
    omega

/-- The static fields depend on bytes that the free counts do not touch. -/
theorem HeadFits.of_agree {sb sb' : Superblock} {gd gd' : Nat → GroupDesc} (h : HeadFits n sb gd)
    (hsb : ∀ i, (i < 12 ∨ 20 ≤ i) → sb' i = sb i)
    (hgd : ∀ g, g < groupsOf n → ∀ i, i < 12 → gd' g i = gd g i) : HeadFits n sb' gd' where
  inodesCount := (Mem.rd32_congr (fun i hi => hsb _ (by omega))).trans h.inodesCount
  blocksCount := (Mem.rd32_congr (fun i hi => hsb _ (by omega))).trans h.blocksCount
  firstDataBlock := (Mem.rd32_congr (fun i hi => hsb _ (by omega))).trans h.firstDataBlock
  logBlockSize := (Mem.rd32_congr (fun i hi => hsb _ (by omega))).trans h.logBlockSize
  blocksPerGroup := (Mem.rd32_congr (fun i hi => hsb _ (by omega))).trans h.blocksPerGroup
  inodesPerGroup := (Mem.rd32_congr (fun i hi => hsb _ (by omega))).trans h.inodesPerGroup
  magic := (Mem.rd16_congr (fun i hi => hsb _ (by omega))).trans h.magic
  revLevel := (Mem.rd32_congr (fun i hi => hsb _ (by omega))).trans h.revLevel
  firstIno := (Mem.rd32_congr (fun i hi => hsb _ (by omega))).trans h.firstIno
  inodeSize := (Mem.rd16_congr (fun i hi => hsb _ (by omega))).trans h.inodeSize
  roCompat := (Mem.rd32_congr (fun i hi => hsb _ (by omega))).trans h.roCompat
  bitmap g hg := (Mem.rd32_congr (fun i hi => hgd g hg _ (by omega))).trans (h.bitmap g hg)
  inodeBitmap g hg := (Mem.rd32_congr (fun i hi => hgd g hg _ (by omega))).trans (h.inodeBitmap g hg)
  inodeTable g hg := (Mem.rd32_congr (fun i hi => hgd g hg _ (by omega))).trans (h.inodeTable g hg)

/-- Metadata with another free count, in the superblock and in one descriptor. -/
def Ext2Meta.recount (m : Ext2Meta) (g o v o' v' : Nat) : Ext2Meta :=
  { m.setGd g ((m.gd g).wr16 o v) with sb := m.sb.wr32 o' v' }

theorem MetaFits.recount (h : MetaFits n m) {g o v o' v' : Nat} (ho : 12 ≤ o) (ho' : 12 ≤ o')
    (ho'' : o' ≤ 16) : MetaFits n (m.recount g o v o' v') where
  head := by
    refine h.head.of_agree (fun i hi => Mem.write_out (by omega)) (fun g' _ i hi => ?_)
    show Function.update m.gd g _ g' i = m.gd g' i
    rw [Function.update_apply]
    split
    · rename_i hgg
      rw [hgg]
      exact Mem.write_out (by omega)
    · rfl
  groupCount := h.groupCount
  blockSize := h.blockSize
  gdtBlk := h.gdtBlk
  gdtBlocks := h.gdtBlocks

/-- The counts after the free blocks of one group have changed. -/
theorem Current.recount_blocks (h : Current n v m) {used : Nat → Bool} {g c s : Nat}
    (hc : c = freeIn n used g) (hother : ∀ g', g' ≠ g → freeIn n used g' = freeIn n v.used g')
    (hs : s = ∑ g ∈ Finset.range (groupsOf n), freeIn n used g) (hlim : groupsOf n ≤ 1024) :
    Current n { v with used := used } (m.recount g 12 c 12 s) where
  toMetaFits := h.toMetaFits.recount (by omega) (by omega) (by omega)
  counts := by
    refine ⟨fun g' hg' => ?_, fun g' hg' => ?_, ?_, ?_⟩
    · show (Function.update m.gd g _ g').rd16 12 = freeIn n used g'
      rw [Function.update_apply]
      split
      · rename_i hgg
        have := freeIn_le n used g
        rw [hgg, Mem.rd16_wr16_self, hc, Nat.mod_eq_of_lt (by omega)]
      · rename_i hgg
        rw [hother g' hgg]
        exact h.counts.blocks g' hg'
    · rw [← h.counts.inodes g' hg']
      show (Function.update m.gd g _ g').rd16 14 = (m.gd g').rd16 14
      rw [Function.update_apply]
      split
      · rename_i hgg
        rw [hgg]
        exact Mem.rd16_write_out (by omega)
      · rfl
    · have hle := sum_le_mul (f := freeIn n used) (k := groupsOf n) (freeIn_le n used)
      show (m.sb.wr32 12 s).rd32 12 = _
      rw [Mem.rd32_wr32_self, ← hs, Nat.mod_eq_of_lt (by omega)]
    · rw [← h.counts.allInodes]
      exact Mem.rd32_write_out (by omega)

/-- The counts after the free inodes of one group have changed. -/
theorem Current.recount_inodes (h : Current n v m) {live : Nat → Bool} {g c s : Nat}
    (hc : c = ifreeIn live g) (hother : ∀ g', g' ≠ g → ifreeIn live g' = ifreeIn v.live g')
    (hs : s = ∑ g ∈ Finset.range (groupsOf n), ifreeIn live g) (hlim : groupsOf n ≤ 1024) :
    Current n { v with live := live } (m.recount g 14 c 16 s) where
  toMetaFits := h.toMetaFits.recount (by omega) (by omega) (by omega)
  counts := by
    refine ⟨fun g' hg' => ?_, fun g' hg' => ?_, ?_, ?_⟩
    · rw [← h.counts.blocks g' hg']
      show (Function.update m.gd g _ g').rd16 12 = (m.gd g').rd16 12
      rw [Function.update_apply]
      split
      · rename_i hgg
        rw [hgg]
        exact Mem.rd16_write_out (by omega)
      · rfl
    · show (Function.update m.gd g _ g').rd16 14 = ifreeIn live g'
      rw [Function.update_apply]
      split
      · rename_i hgg
        have := ifreeIn_le live g
        rw [hgg, Mem.rd16_wr16_self, hc, Nat.mod_eq_of_lt (by omega)]
      · rename_i hgg
        rw [hother g' hgg]
        exact h.counts.inodes g' hg'
    · rw [← h.counts.allBlocks]
      exact Mem.rd32_write_out (by omega)
    · have hle := sum_le_mul (f := ifreeIn live) (k := groupsOf n) (ifreeIn_le live)
      show (m.sb.wr32 16 s).rd32 16 = _
      rw [Mem.rd32_wr32_self, ← hs, Nat.mod_eq_of_lt (by omega)]

theorem Current.takeBlock (hg : Geometry n) (h : Current n v m) {b : Nat} (hb : b < n)
    (hu : v.used b = false) :
    Current n { v with used := Function.update v.used b true } (m.takeBlock (b / 32768)) := by
  obtain ⟨hsame, hother⟩ := freeIn_set hb hu
  have hgr := hg.group_lt hb
  have hsum := sum_change hgr hother
  refine h.recount_blocks ?_ hother ?_ hg.le
  · rw [h.counts.blocks _ hgr]
    omega
  · rw [h.counts.allBlocks]
    omega

theorem Current.giveBlock (hg : Geometry n) (h : Current n v m) {b : Nat} (hb : b < n)
    (hu : v.used b = true) :
    Current n { v with used := Function.update v.used b false } (m.giveBlock (b / 32768)) := by
  obtain ⟨hsame, hother⟩ := freeIn_clear hb hu
  have hgr := hg.group_lt hb
  have hsum := sum_change hgr hother
  refine h.recount_blocks ?_ hother ?_ hg.le
  · rw [h.counts.blocks _ hgr]
    omega
  · rw [h.counts.allBlocks]
    omega

theorem Current.takeInode (hg : Geometry n) (h : Current n v m) {i : Nat} (h₁ : 1 ≤ i)
    (h₂ : i ≤ inodesOf n) (hl : v.live i = false) :
    Current n { v with live := Function.update v.live i true } (m.takeInode ((i - 1) / 1024)) := by
  obtain ⟨hsame, hother⟩ := ifreeIn_set h₁ hl
  have hgr : (i - 1) / 1024 < groupsOf n := by
    unfold inodesOf at h₂
    omega
  have hsum := sum_change hgr hother
  refine h.recount_inodes ?_ hother ?_ hg.le
  · rw [h.counts.inodes _ hgr]
    omega
  · rw [h.counts.allInodes]
    omega

theorem Current.giveInode (hg : Geometry n) (h : Current n v m) {i : Nat} (h₁ : 1 ≤ i)
    (h₂ : i ≤ inodesOf n) (hl : v.live i = true) :
    Current n { v with live := Function.update v.live i false } (m.giveInode ((i - 1) / 1024)) := by
  obtain ⟨hsame, hother⟩ := ifreeIn_clear h₁ hl
  have hgr : (i - 1) / 1024 < groupsOf n := by
    unfold inodesOf at h₂
    omega
  have hsum := sum_change hgr hother
  refine h.recount_inodes ?_ hother ?_ hg.le
  · rw [h.counts.inodes _ hgr]
    omega
  · rw [h.counts.allInodes]
    omega

end Counts

/-! ## Bits on the device -/

section Bits

variable {n : Nat} {d : Vblk}

theorem live_bit {i : Nat} (h₁ : 1 ≤ i) (h₂ : i ≤ inodesOf n) :
    (vol n d).live i = (d.block (ibBlk n ((i - 1) / 1024))).bit ((i - 1) % 1024) := by
  rw [vol_live, decide_eq_true ⟨h₁, h₂⟩, Bool.true_and]

theorem used_bit {b : Nat} (hb : b < n) :
    (vol n d).used b = (d.block (bbBlk n (b / 32768))).bit (b % 32768) := by
  rw [vol_used, decide_eq_true hb, Bool.true_and]

theorem Holds.put_meta (h : Holds n d) {c : Nat} (hc : 0 < c) (hlt : c < n) (src : Mem) :
    pwriteBlock 4096 c src 4096 d = .ok () (d.put (c * 4096) 4096 src) ∧
      Holds n (d.put (c * 4096) 4096 src) :=
  ⟨pwriteBlock_of_le h.writable (block_limit h hlt), h.put hc src⟩

/-- Setting or clearing the bit of an inode in the bitmap of its group. -/
theorem vol_put_inode_bit (hg : Geometry n) {i : Nat} (h₁ : 1 ≤ i) (h₂ : i ≤ inodesOf n)
    {src : Mem} {x : Bool}
    (hsrc : ∀ j, src.bit j = if j = (i - 1) % 1024 then x
      else (d.block (ibBlk n ((i - 1) / 1024))).bit j) :
    vol n (d.put (ibBlk n ((i - 1) / 1024) * 4096) 4096 src)
      = { vol n d with live := Function.update (vol n d).live i x } := by
  rw [vol_put_ib hg]
  refine Vol.ext rfl (funext fun j => ?_) rfl rfl
  show (if (j - 1) / 1024 = (i - 1) / 1024 then
    decide (1 ≤ j ∧ j ≤ inodesOf n) && src.bit ((j - 1) % 1024) else (vol n d).live j)
    = Function.update (vol n d).live i x j
  rw [Function.update_apply]
  by_cases hji : j = i
  · rw [if_pos hji, hji, if_pos rfl, decide_eq_true ⟨h₁, h₂⟩, hsrc, if_pos rfl, Bool.true_and]
  · rw [if_neg hji]
    by_cases hgr : (j - 1) / 1024 = (i - 1) / 1024
    · rw [if_pos hgr, vol_live, hsrc, ← hgr]
      by_cases hr : 1 ≤ j ∧ j ≤ inodesOf n
      · rw [if_neg (by omega)]
      · rw [decide_eq_false hr, Bool.false_and, Bool.false_and]
    · rw [if_neg hgr]

/-- Setting or clearing the bit of a block in the bitmap of its group. -/
theorem vol_put_block_bit (hg : Geometry n) {b : Nat} (hb : b < n) {src : Mem} {x : Bool}
    (hsrc : ∀ j, src.bit j = if j = b % 32768 then x else (d.block (bbBlk n (b / 32768))).bit j) :
    vol n (d.put (bbBlk n (b / 32768) * 4096) 4096 src)
      = { vol n d with used := Function.update (vol n d).used b x } := by
  rw [vol_put_bb hg]
  refine Vol.ext (funext fun c => ?_) rfl rfl rfl
  show (if c / 32768 = b / 32768 then decide (c < n) && src.bit (c % 32768) else (vol n d).used c)
    = Function.update (vol n d).used b x c
  rw [Function.update_apply]
  by_cases hcb : c = b
  · rw [if_pos hcb, hcb, if_pos rfl, decide_eq_true hb, hsrc, if_pos rfl, Bool.true_and]
  · rw [if_neg hcb]
    by_cases hgr : c / 32768 = b / 32768
    · rw [if_pos hgr, vol_used, hsrc, ← hgr, if_neg (by omega)]
    · rw [if_neg hgr]

theorem bit_setBit_eq (p : Mem) (i j : Nat) : (p.setBit i).bit j = if j = i then true else p.bit j := by
  rw [Mem.bit_setBit]
  by_cases h : j = i
  · simp [h]
  · have : ¬ i = j := fun h' => h h'.symm
    simp [h, this]

theorem bit_clearBit_eq (p : Mem) (i j : Nat) :
    (p.clearBit i).bit j = if j = i then false else p.bit j := by
  rw [Mem.bit_clearBit]
  by_cases h : j = i
  · simp [h]
  · have : ¬ i = j := fun h' => h h'.symm
    simp [h, this]

end Bits

/-! ## Inodes -/

section Inodes

variable {n : Nat} {d : Vblk} {m : Ext2Meta}

/-- The outcome of an inode allocation that looks at the groups from `g` on. -/
def InodeTaken (n : Nat) (d : Vblk) (g : Nat) (r : EStateM.Result Int Vblk (Nat × Ext2Meta)) : Prop :=
  (∃ i d' m', r = .ok (i, m') d' ∧ 11 ≤ i ∧ i ≤ inodesOf n ∧ (vol n d).live i = false ∧ Good n d' ∧
      vol n d' = { vol n d with live := Function.update (vol n d).live i true } ∧
      Current n (vol n d') m') ∨
    (r = .error 0 d ∧ ∀ i, g * 1024 < i → i ≤ inodesOf n → 11 ≤ i → (vol n d).live i = true)

theorem ext2FreeInodes_zero (h : HeadCounts n (vol n d).used (vol n d).live m.sb m.gd) {g : Nat}
    (hgr : g < groupsOf n) (h0 : (m.gd g).bgFreeInodesCount = 0) {i : Nat} (h₁ : g * 1024 < i)
    (h₂ : i ≤ g * 1024 + 1024) : (vol n d).live i = true := by
  rw [h.inodes g hgr] at h0
  by_contra hl
  have hpos : 0 < ifreeIn (vol n d).live g := by
    refine clearIn_pos.mpr ⟨i - (g * 1024 + 1), by omega, ?_⟩
    rw [show g * 1024 + 1 + (i - (g * 1024 + 1)) = i by omega]
    simpa using hl
  omega

theorem allocInodeFrom_taken (hg : Geometry n) (h : Good n d) (hm : Current n (vol n d) m)
    (hroot : (vol n d).live 2 = true) {count : Nat} :
    ∀ {g : Nat}, g + count = groupsOf n → InodeTaken n d g (allocInodeFrom m count g d) := by
  induction count with
  | zero =>
      intro g hgc
      refine Or.inr ⟨rfl, fun i h₁ h₂ _ => ?_⟩
      unfold inodesOf at h₂
      omega
  | succ count ih =>
      intro g hgc
      have hgr : g < groupsOf n := by omega
      -- a group without a free inode is passed over
      have hskip : (∀ i, g * 1024 < i → i ≤ g * 1024 + 1024 → i ≤ inodesOf n → 11 ≤ i →
          (vol n d).live i = true) →
          InodeTaken n d g (allocInodeFrom m count (g + 1) d) := by
        intro hfull
        rcases ih (g := g + 1) (by omega) with hok | ⟨hr, hall⟩
        · exact Or.inl hok
        · refine Or.inr ⟨hr, fun i h₁ h₂ h₃ => ?_⟩
          rcases Nat.lt_or_ge (g * 1024 + 1024) i with hlt | hge
          · exact hall i (by by_contra hc; omega) h₂ h₃
          · exact hfull i h₁ hge h₂ h₃
      rw [allocInodeFrom]
      by_cases h0 : (m.gd g).bgFreeInodesCount = 0
      · rw [if_pos h0]
        exact hskip (fun i h₁ h₂ _ _ => ext2FreeInodes_zero hm.counts hgr h0 h₁ h₂)
      rw [if_neg h0, hm.blockSize, hm.head.inodeBitmap g hgr]
      have hread : preadBlock d 4096 (ibBlk n g) 4096 = .ok (d.block (ibBlk n g)) :=
        preadBlock_of_le (block_limit h.toHolds (ibBlk_lt hg hgr))
      refine of_bind_look hread ?_
      -- bit `l` of the bitmap is inode `g * 1024 + l + 1`
      have hbit : ∀ l, l < 1024 → g * 1024 + l + 1 ≤ inodesOf n ∧
          (vol n d).live (g * 1024 + l + 1) = (d.block (ibBlk n g)).bit l := by
        intro l hl
        have hle : g * 1024 + l + 1 ≤ inodesOf n := by
          unfold inodesOf
          omega
        refine ⟨hle, ?_⟩
        rw [live_bit (by omega) hle]
        rw [show (g * 1024 + l + 1 - 1) / 1024 = g by omega,
          show (g * 1024 + l + 1 - 1) % 1024 = l by omega]
      rw [hm.head.inodesPerGroup]
      cases hf : firstFrom (inodeFree m g (d.block (ibBlk n g))) 1024 0 with
      | none =>
          refine hskip (fun i h₁ h₂ h₃ h₄ => ?_)
          have hnone := firstFrom_none.mp hf (i - g * 1024 - 1) (by omega) (by omega)
          unfold inodeFree at hnone
          rw [hm.head.inodesPerGroup, hm.head.inodesCount, hm.head.firstIno] at hnone
          obtain ⟨_, hb⟩ := hbit (i - g * 1024 - 1) (by omega)
          rw [show g * 1024 + (i - g * 1024 - 1) + 1 = i by omega] at hnone hb
          simp only [decide_eq_false_iff_not] at hnone
          rw [hb]
          by_contra hlive
          exact hnone ⟨h₃, by omega, by simpa using hlive⟩
      | some l =>
          obtain ⟨_, hl, hfree, _⟩ := firstFrom_some hf
          unfold inodeFree at hfree
          rw [hm.head.inodesPerGroup, hm.head.inodesCount, hm.head.firstIno] at hfree
          simp only [decide_eq_true_eq] at hfree
          obtain ⟨hle, hres, hclear⟩ := hfree
          obtain ⟨_, hb⟩ := hbit l (by omega)
          set i := g * 1024 + l + 1 with hi
          have hlive : (vol n d).live i = false := by rw [hb, hclear]
          have hdiv : (i - 1) / 1024 = g := by omega
          have hmod : (i - 1) % 1024 = l := by omega
          have h11 : 11 ≤ i := by
            by_contra hlt
            have h2 : i = 2 := by
              by_contra hne
              exact hres ⟨by omega, hne⟩
            rw [h2, hroot] at hlive
            cases hlive
          obtain ⟨hrun, hholds⟩ := h.toHolds.put_meta (c := ibBlk n g)
            (by unfold ibBlk; omega) (ibBlk_lt hg hgr) ((d.block (ibBlk n g)).setBit l)
          have hvol := vol_put_inode_bit (d := d) hg (i := i) (by omega) hle
            (x := true) (by
              intro j
              rw [hdiv, hmod, bit_setBit_eq])
          rw [hdiv] at hvol
          have hcur := hm.takeInode hg (i := i) (by omega) hle hlive
          rw [hdiv, ← hvol] at hcur
          obtain ⟨d', hstore, hgood, hvol'⟩ := ext2StoreMeta_eq hg hholds hcur
          refine Or.inl ⟨i, d', m.takeInode g, ?_, h11, hle, hlive, hgood, hvol'.trans hvol, ?_⟩
          · show (pwriteBlock 4096 (ibBlk n g) _ 4096 >>= fun _ => _) d = _
            rw [bind_of_ok hrun, bind_of_ok hstore]
            rfl
          · rw [hvol']
            exact hcur

theorem ext2AllocInode_taken (hg : Geometry n) (h : Good n d) (hm : Current n (vol n d) m)
    (hroot : (vol n d).live 2 = true) : InodeTaken n d 0 (ext2AllocInode m d) := by
  unfold ext2AllocInode
  rw [hm.groupCount]
  exact allocInodeFrom_taken hg h hm hroot (by omega)

/-- Freeing an inode that is in use. -/
theorem ext2FreeInodeNum_eq (hg : Geometry n) (h : Holds n d) (hm : Current n (vol n d) m) {i : Nat}
    (h₁ : 1 ≤ i) (h₂ : i ≤ inodesOf n) (hl : (vol n d).live i = true) :
    ∃ d' m', ext2FreeInodeNum m i d = .ok m' d' ∧ Good n d' ∧
      vol n d' = { vol n d with live := Function.update (vol n d).live i false } ∧
      Current n (vol n d') m' := by
  have hgr : (i - 1) / 1024 < groupsOf n := by
    unfold inodesOf at h₂
    omega
  have hread : preadBlock d 4096 (ibBlk n ((i - 1) / 1024)) 4096
      = .ok (d.block (ibBlk n ((i - 1) / 1024))) :=
    preadBlock_of_le (block_limit h (ibBlk_lt hg hgr))
  obtain ⟨hrun, hholds⟩ := h.put_meta (c := ibBlk n ((i - 1) / 1024))
    (by unfold ibBlk; omega) (ibBlk_lt hg hgr)
    ((d.block (ibBlk n ((i - 1) / 1024))).clearBit ((i - 1) % 1024))
  have hvol := vol_put_inode_bit (d := d) hg h₁ h₂ (x := false)
   
    (fun j => bit_clearBit_eq _ _ _)
  have hcur := hm.giveInode hg h₁ h₂ hl
  rw [← hvol] at hcur
  obtain ⟨d', hstore, hgood, hvol'⟩ := ext2StoreMeta_eq hg hholds hcur
  refine ⟨d', _, ?_, hgood, hvol'.trans hvol, by rw [hvol']; exact hcur⟩
  unfold ext2FreeInodeNum
  rw [hm.head.inodesCount, hm.head.inodesPerGroup, hm.blockSize,
    bind_of_ok (failIf_of_not (by omega)), hm.head.inodeBitmap _ hgr]
  refine bind_look (orCode_of_ok hread) ?_
  rw [if_pos (by rw [← live_bit h₁ h₂]; exact hl), bind_of_ok (orFail_of_ok hrun),
    bind_of_ok (orFail_of_ok hstore)]
  rfl

end Inodes

/-! ## Blocks -/

section Blocks

variable {n : Nat} {d : Vblk} {m : Ext2Meta}

/-- The outcome of a block allocation that looks at the groups from `g` on. -/
def BlockTaken (n : Nat) (d : Vblk) (g : Nat) (r : EStateM.Result Int Vblk (Nat × Ext2Meta)) : Prop :=
  (∃ b d' m', r = .ok (b, m') d' ∧ b < n ∧ (vol n d).used b = false ∧ Good n d' ∧
      vol n d' = { vol n d with used := Function.update (vol n d).used b true } ∧
      Current n (vol n d') m') ∨
    (r = .error 0 d ∧ ∀ b, g * 32768 ≤ b → b < n → (vol n d).used b = true)

theorem groupBlocks_iff {g l : Nat} : l < groupBlocks n g ↔ l < 32768 ∧ g * 32768 + l < n := by
  unfold groupBlocks blocksPerGroup
  omega

theorem freeIn_zero {used : Nat → Bool} {g : Nat} (h0 : freeIn n used g = 0) {b : Nat}
    (h₁ : b / 32768 = g) (h₂ : b < n) : used b = true := by
  by_contra hu
  have hpos : 0 < freeIn n used g := by
    refine clearIn_pos.mpr ⟨b % 32768, groupBlocks_iff.mpr (by omega), ?_⟩
    rw [show g * 32768 + b % 32768 = b by omega]
    simpa using hu
  omega

theorem ext2GroupBlockCount_eq (hm : MetaFits n m) (g : Nat) :
    ext2GroupBlockCount m g = groupBlocks n g := by
  unfold ext2GroupBlockCount groupBlocks blocksPerGroup
  rw [hm.head.blocksPerGroup, hm.head.blocksCount]

theorem allocBlockFrom_taken (hg : Geometry n) (h : Good n d) (hm : Current n (vol n d) m)
    (hzero : (vol n d).used 0 = true) {count : Nat} :
    ∀ {g : Nat}, g + count = groupsOf n → BlockTaken n d g (allocBlockFrom m count g d) := by
  induction count with
  | zero =>
      intro g hgc
      refine Or.inr ⟨rfl, fun b h₁ h₂ => ?_⟩
      have := hg.blocks_le
      omega
  | succ count ih =>
      intro g hgc
      have hgr : g < groupsOf n := by omega
      have hskip : (∀ b, b / 32768 = g → b < n → (vol n d).used b = true) →
          BlockTaken n d g (allocBlockFrom m count (g + 1) d) := by
        intro hfull
        rcases ih (g := g + 1) (by omega) with hok | ⟨hr, hall⟩
        · exact Or.inl hok
        · refine Or.inr ⟨hr, fun b h₁ h₂ => ?_⟩
          by_cases hbg : b / 32768 = g
          · exact hfull b hbg h₂
          · exact hall b (by by_contra hc; omega) h₂
      rw [allocBlockFrom]
      by_cases h0 : (m.gd g).bgFreeBlocksCount = 0
      · rw [if_pos h0]
        rw [hm.counts.blocks g hgr] at h0
        exact hskip (fun b => freeIn_zero h0)
      rw [if_neg h0, hm.blockSize, hm.head.bitmap g hgr]
      have hread : preadBlock d 4096 (bbBlk n g) 4096 = .ok (d.block (bbBlk n g)) :=
        preadBlock_of_le (block_limit h.toHolds (bbBlk_lt hg hgr))
      refine of_bind_look hread ?_
      rw [hm.head.blocksPerGroup, ext2GroupBlockCount_eq hm.toMetaFits]
      cases hf : firstFrom (fun i => !(d.block (bbBlk n g)).bit i) (groupBlocks n g) 0 with
      | none =>
          refine hskip (fun b h₁ h₂ => ?_)
          have hnone := firstFrom_none.mp hf (b % 32768) (by omega)
            (by rw [Nat.zero_add, ← h₁]; exact groupBlocks_of_lt h₂)
          rw [used_bit h₂, h₁]
          simpa using hnone
      | some l =>
          obtain ⟨_, hl, hfree, _⟩ := firstFrom_some hf
          rw [Nat.zero_add] at hl
          obtain ⟨hl1, hl2⟩ := groupBlocks_iff.mp hl
          set b := g * 32768 + l with hb
          have hdiv : b / 32768 = g := by omega
          have hmod : b % 32768 = l := by omega
          have hused : (vol n d).used b = false := by
            rw [used_bit hl2, hdiv, hmod]
            simpa using hfree
          have hb0 : b ≠ 0 := by
            intro h0
            rw [h0, hzero] at hused
            cases hused
          obtain ⟨hrun, hholds⟩ := h.toHolds.put_meta (c := bbBlk n g)
            (by unfold bbBlk; omega) (bbBlk_lt hg hgr) ((d.block (bbBlk n g)).setBit l)
          have hvol := vol_put_block_bit (d := d) hg hl2
            (x := true) (by
              intro j
              rw [hdiv, hmod, bit_setBit_eq])
          rw [hdiv] at hvol
          have hcur := hm.takeBlock hg hl2 hused
          rw [hdiv, ← hvol] at hcur
          obtain ⟨d', hstore, hgood, hvol'⟩ := ext2StoreMeta_eq hg hholds hcur
          refine Or.inl ⟨b, d', m.takeBlock g, ?_, hl2, hused, hgood, hvol'.trans hvol, ?_⟩
          · show (pwriteBlock 4096 (bbBlk n g) _ 4096 >>= fun _ => _) d = _
            rw [bind_of_ok hrun, bind_of_ok hstore, bind_of_ok (failIf_of_not hb0)]
            rfl
          · rw [hvol']
            exact hcur

theorem ext2AllocBlock_taken (hg : Geometry n) (h : Good n d) (hm : Current n (vol n d) m)
    (hzero : (vol n d).used 0 = true) : BlockTaken n d 0 (ext2AllocBlock m d) := by
  unfold ext2AllocBlock
  rw [hm.groupCount]
  exact allocBlockFrom_taken hg h hm hzero (by omega)

end Blocks

end Guppy.Ext2
