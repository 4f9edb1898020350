import Guppy.Ext2.Take

set_option autoImplicit false

/-! # Allocation contexts

While a context is in use, the bitmaps on the device lag behind. `Pending n v m ctx used` says
that the context and the metadata describe the bitmap `used`, for a device that holds `v`. A
commit makes `used` the bitmap of the device.
-/

namespace Guppy.Ext2

open Prog Vfs

theorem Current.congr {n : Nat} {v w : Vol} {m : Ext2Meta} (h : Current n v m)
    (hu : w.used = v.used) (hl : w.live = v.live) : Current n w m :=
  { toMetaFits := h.toMetaFits, counts := by rw [hu, hl]; exact h.counts }

/-- The context and the metadata describe `used`, on a device with volume `v`. -/
structure Pending (n : Nat) (v : Vol) (m : Ext2Meta) (ctx : AllocCtx) (used : Nat → Bool) : Prop where
  current : Current n { v with used := used } m
  loaded : ∀ b, b < n → ctx.loaded (b / 32768) = true →
    (ctx.bitmaps (b / 32768)).bit (b % 32768) = used b
  clean : ∀ b, b < n → ctx.dirty (b / 32768) = false → used b = v.used b
  dirty : ∀ g, ctx.dirty g = true → ctx.loaded g = true
  out : ∀ b, n ≤ b → used b = false

/-- The cursors have only used blocks behind them. -/
def Swept (n : Nat) (ctx : AllocCtx) (used : Nat → Bool) : Prop :=
  ∀ b, b < n → b % 32768 < ctx.cursor (b / 32768) → used b = true

section Context

variable {n : Nat} {d : Vblk} {m : Ext2Meta} {ctx : AllocCtx} {used : Nat → Bool}

theorem vol_used_out (n : Nat) (d : Vblk) {b : Nat} (h : n ≤ b) : (vol n d).used b = false := by
  rw [vol_used, decide_eq_false (by omega), Bool.false_and]

theorem pending_init (h : Current n (vol n d) m) :
    Pending n (vol n d) m AllocCtx.init (vol n d).used where
  current := h
  loaded _ _ h := by cases h
  clean _ _ _ := rfl
  dirty _ h := by cases h
  out _ h := vol_used_out n d h

theorem swept_init (used : Nat → Bool) : Swept n AllocCtx.init used := by
  intro b _ h
  exact absurd h (Nat.not_lt_zero _)

theorem Pending.congr {v w : Vol} (h : Pending n v m ctx used) (hu : w.used = v.used)
    (hl : w.live = v.live) : Pending n w m ctx used where
  current := h.current.congr rfl hl
  loaded := h.loaded
  clean b hb hd := by rw [hu]; exact h.clean b hb hd
  dirty := h.dirty
  out := h.out

/-- Loading a bitmap changes nothing but what is loaded. -/
theorem Pending.load (hg : Geometry n) (hd : Holds n d) (h : Pending n (vol n d) m ctx used) {g : Nat}
    (hgr : g < groupsOf n) :
    ∃ ctx', ctx.load d m g = .ok ctx' ∧ Pending n (vol n d) m ctx' used ∧ ctx'.loaded g = true ∧
      ctx'.cursor = ctx.cursor := by
  unfold AllocCtx.load
  by_cases hl : ctx.loaded g = true
  · rw [if_pos hl]
    exact ⟨ctx, rfl, h, hl, rfl⟩
  · rw [if_neg hl, h.current.blockSize, h.current.head.bitmap g hgr,
      except_bind_of_ok (preadBlock_of_le (block_limit hd (bbBlk_lt hg hgr)))]
    refine ⟨_, rfl, ⟨h.current, fun b hb hlb => ?_, h.clean, fun g' hg' => ?_, h.out⟩,
      Function.update_self .., rfl⟩
    · dsimp only [] at hlb ⊢
      rw [Function.update_apply] at hlb ⊢
      by_cases hbg : b / 32768 = g
      · rw [if_pos hbg]
        have hclean : ctx.dirty (b / 32768) = false := by
          rw [hbg]
          by_contra hdt
          exact hl (h.dirty g (by simpa using hdt))
        rw [h.clean b hb hclean, used_bit hb, hbg]
        rfl
      · rw [if_neg hbg] at hlb ⊢
        exact h.loaded b hb hlb
    · dsimp only []
      rw [Function.update_apply]
      split
      · rfl
      · exact h.dirty g' hg'

/-- Setting or clearing one bit of a loaded bitmap. -/
theorem Pending.set {v : Vol} {m' : Ext2Meta} (h : Pending n v m ctx used) (cursor : Nat → Nat)
    {b : Nat} (hb : b < n) (hl : ctx.loaded (b / 32768) = true) {x : Bool} {src : Mem}
    (hsrc : ∀ j, src.bit j = if j = b % 32768 then x else (ctx.bitmaps (b / 32768)).bit j)
    (hm : Current n { v with used := Function.update used b x } m') :
    Pending n v m'
      { ctx with
        bitmaps := Function.update ctx.bitmaps (b / 32768) src
        cursor := cursor
        dirty := Function.update ctx.dirty (b / 32768) true }
      (Function.update used b x) where
  current := hm
  loaded c hc hlc := by
    dsimp only [] at hlc ⊢
    rw [Function.update_apply, Function.update_apply]
    by_cases hcb : c = b
    · rw [if_pos hcb, hcb, if_pos rfl, hsrc, if_pos rfl]
    · rw [if_neg hcb]
      by_cases hgr : c / 32768 = b / 32768
      · rw [if_pos hgr, hsrc, if_neg (by omega), ← hgr]
        exact h.loaded c hc hlc
      · rw [if_neg hgr]
        exact h.loaded c hc hlc
  clean c hc hdc := by
    dsimp only [] at hdc
    rw [Function.update_apply] at hdc
    by_cases hgr : c / 32768 = b / 32768
    · rw [if_pos hgr] at hdc
      cases hdc
    · rw [if_neg hgr] at hdc
      rw [Function.update_of_ne (fun h0 => hgr (by rw [h0]))]
      exact h.clean c hc hdc
  dirty g hdg := by
    dsimp only [] at hdg ⊢
    rw [Function.update_apply] at hdg
    by_cases hgr : g = b / 32768
    · rw [hgr]
      exact hl
    · rw [if_neg hgr] at hdg
      exact h.dirty g hdg
  out c hc := by
    rw [Function.update_of_ne (by omega)]
    exact h.out c hc

/-! ## Allocation -/

/-- The outcome of an allocation in a context that looks at the groups from `g` on. -/
def CtxTaken (n : Nat) (v : Vol) (used : Nat → Bool) (g : Nat)
    (r : Except Int (Nat × Ext2Meta × AllocCtx)) : Prop :=
  (∃ b m' ctx', r = .ok (b, m', ctx') ∧ b < n ∧ used b = false ∧
      Pending n v m' ctx' (Function.update used b true) ∧ Swept n ctx' (Function.update used b true)) ∨
    (r = .error 0 ∧ ∀ b, g * 32768 ≤ b → b < n → used b = true)

theorem Swept.set (h : Swept n ctx used) {b : Nat} (bitmaps : Nat → Mem) (dirty : Nat → Bool)
    (hnew : ∀ c, c < n → c / 32768 = b / 32768 → c % 32768 < b % 32768 → used c = true) :
    Swept n
      { ctx with
        bitmaps := bitmaps
        cursor := Function.update ctx.cursor (b / 32768) (b % 32768 + 1)
        dirty := dirty }
      (Function.update used b true) := by
  intro c hc hcur
  dsimp only [] at hcur
  rw [Function.update_apply] at hcur ⊢
  by_cases hcb : c = b
  · rw [if_pos hcb]
  · rw [if_neg hcb]
    by_cases hgr : c / 32768 = b / 32768
    · rw [if_pos hgr] at hcur
      exact hnew c hc hgr (by omega)
    · rw [if_neg hgr] at hcur
      exact h c hc hcur

theorem allocBlockCtxFrom_taken (hg : Geometry n) (hd : Holds n d) {count : Nat} :
    ∀ {g : Nat} {ctx : AllocCtx}, g + count = groupsOf n → Pending n (vol n d) m ctx used →
      Swept n ctx used → used 0 = true →
      CtxTaken n (vol n d) used g (allocBlockCtxFrom d m count g ctx) := by
  induction count with
  | zero =>
      intro g ctx hgc _ _ _
      refine Or.inr ⟨rfl, fun b h₁ h₂ => ?_⟩
      have := hg.blocks_le
      omega
  | succ count ih =>
      intro g ctx hgc h hsw hzero
      have hgr : g < groupsOf n := by omega
      have hskip : ∀ ctx', Pending n (vol n d) m ctx' used → Swept n ctx' used →
          (∀ b, b / 32768 = g → b < n → used b = true) →
          CtxTaken n (vol n d) used g (allocBlockCtxFrom d m count (g + 1) ctx') := by
        intro ctx' h' hsw' hfull
        rcases ih (g := g + 1) (by omega) h' hsw' hzero with hok | ⟨hr, hall⟩
        · exact Or.inl hok
        · refine Or.inr ⟨hr, fun b h₁ h₂ => ?_⟩
          by_cases hbg : b / 32768 = g
          · exact hfull b hbg h₂
          · exact hall b (by by_contra hc; omega) h₂
      rw [allocBlockCtxFrom]
      by_cases h0 : (m.gd g).bgFreeBlocksCount = 0
      · rw [if_pos h0]
        rw [h.current.counts.blocks g hgr] at h0
        exact hskip ctx h hsw (fun b => freeIn_zero h0)
      rw [if_neg h0]
      obtain ⟨ctx', hload, h', hl, hcur⟩ := h.load hg hd hgr
      have hsw' : Swept n ctx' used := by
        intro b hb hc
        rw [hcur] at hc
        exact hsw b hb hc
      rw [except_bind_of_ok hload]
      dsimp only []
      rw [ext2GroupBlockCount_eq h.current.toMetaFits, h.current.head.blocksPerGroup]
      set start := min (ctx'.cursor g) (groupBlocks n g) with hstart
      -- what lies behind the cursor is used
      have hbehind : ∀ c, c < n → c / 32768 = g → c % 32768 < start → used c = true := by
        intro c hc hcg hlt
        refine hsw' c hc ?_
        rw [hcg]
        omega
      cases hf : firstFrom (fun i => !(ctx'.bitmaps g).bit i) (groupBlocks n g - start) start with
      | none =>
          have hfull : ∀ b, b / 32768 = g → b < n → used b = true := by
            intro b h₁ h₂
            rcases Nat.lt_or_ge (b % 32768) start with hlt | hge
            · exact hbehind b h₂ h₁ hlt
            · have hgb := groupBlocks_of_lt h₂
              rw [h₁] at hgb
              have hnone := firstFrom_none.mp hf (b % 32768) hge (by omega)
              rw [← h'.loaded b h₂ (by rw [h₁]; exact hl), h₁]
              simpa using hnone
          refine hskip _ ⟨h'.current, h'.loaded, h'.clean, h'.dirty, h'.out⟩ ?_ hfull
          intro b hb hc
          dsimp only [] at hc
          rw [Function.update_apply] at hc
          by_cases hbg : b / 32768 = g
          · exact hfull b hbg hb
          · rw [if_neg hbg] at hc
            exact hsw' b hb hc
      | some l =>
          obtain ⟨hge, hl', hfree, hbefore⟩ := firstFrom_some hf
          obtain ⟨hl1, hl2⟩ := groupBlocks_iff.mp (show l < groupBlocks n g by omega)
          set b := g * 32768 + l with hb
          have hdiv : b / 32768 = g := by omega
          have hmod : b % 32768 = l := by omega
          have hbit := h'.loaded b hl2 (by rw [hdiv]; exact hl)
          rw [hdiv, hmod] at hbit
          have hused : used b = false := by
            rw [← hbit]
            simpa using hfree
          have hb0 : b ≠ 0 := by
            intro h0
            rw [h0, hzero] at hused
            cases hused
          have hm := h'.current.takeBlock hg hl2 (v := { vol n d with used := used }) hused
          rw [hdiv] at hm
          have hset := h'.set (Function.update ctx'.cursor (b / 32768) (b % 32768 + 1)) hl2
            (by rw [hdiv]; exact hl) (x := true) (by intro j; rw [hdiv, hmod, bit_setBit_eq]) hm
          have hsweep := hsw'.set (b := b)
            (Function.update ctx'.bitmaps (b / 32768) ((ctx'.bitmaps g).setBit l))
            (Function.update ctx'.dirty (b / 32768) true) (by
              intro c hc hcg hlt
              rw [hdiv] at hcg
              rw [hmod] at hlt
              rcases Nat.lt_or_ge (c % 32768) start with hlts | hges
              · exact hbehind c hc hcg hlts
              · have hbc := hbefore (c % 32768) hges hlt
                rw [← h'.loaded c hc (by rw [hcg]; exact hl), hcg]
                simpa using hbc)
          rw [hdiv, hmod] at hset hsweep
          refine Or.inl ⟨b, m.takeBlock g, _, ?_, hl2, hused, hset, hsweep⟩
          dsimp only []
          rw [except_bind_of_ok (check_of_not hb0)]

theorem ext2AllocBlockCtx_taken (hg : Geometry n) (hd : Holds n d)
    (h : Pending n (vol n d) m ctx used) (hsw : Swept n ctx used) (hzero : used 0 = true) :
    CtxTaken n (vol n d) used 0 (ext2AllocBlockCtx d m ctx) := by
  unfold ext2AllocBlockCtx
  rw [h.current.groupCount]
  exact allocBlockCtxFrom_taken hg hd (by omega) h hsw hzero

/-! ## Freeing -/

theorem ext2FreeBlockCtx_eq (hg : Geometry n) (hd : Holds n d) (h : Pending n (vol n d) m ctx used)
    {b : Nat} (h0 : b ≠ 0) (hb : b < n) (hu : used b = true) :
    ∃ m' ctx', ext2FreeBlockCtx d m ctx b = .ok (m', ctx') ∧
      Pending n (vol n d) m' ctx' (Function.update used b false) := by
  have hgr := hg.group_lt hb
  obtain ⟨ctx', hload, h', hl, _⟩ := h.load hg hd hgr
  have hbit := h'.loaded b hb hl
  rw [hu] at hbit
  have hm := h'.current.giveBlock hg hb (v := { vol n d with used := used }) hu
  have hset := h'.set ctx'.cursor hb hl (x := false) (fun j => bit_clearBit_eq _ _ _) hm
  refine ⟨m.giveBlock (b / 32768), _, ?_, hset⟩
  unfold ext2FreeBlockCtx
  rw [h.current.head.blocksCount, h.current.head.blocksPerGroup, h.current.groupCount,
    except_bind_of_ok (check_of_not (by omega))]
  dsimp only []
  rw [except_bind_of_ok (check_of_not (by omega)), except_bind_of_ok (orCode_of_ok hload), if_pos hbit]

/-! ## Commit -/

/-- The device after the bitmaps of the groups below `k` have been written. -/
def CommittedTo (n : Nat) (d : Vblk) (used : Nat → Bool) (k : Nat) (d' : Vblk) : Prop :=
  Holds n d' ∧
    vol n d' = { vol n d with used := (fun b => if b / 32768 < k then used b else (vol n d).used b) }

theorem ext2AllocCtxCommit_eq (hg : Geometry n) (hd : Holds n d)
    (h : Pending n (vol n d) m ctx used) :
    ∃ d', ext2AllocCtxCommit m ctx d = .ok () d' ∧ Good n d' ∧
      vol n d' = { vol n d with used := used } := by
  obtain ⟨u, d₁, hrun, hd₁, hvol₁⟩ := forLoop_total (f := fun g (_ : Unit) =>
      if ctx.dirty g then
        orFail (pwriteBlock m.blockSize (m.gd g).bgBlockBitmap (ctx.bitmaps g) m.blockSize) (-2)
      else pure ())
    (fun k _ s => CommittedTo n d used k s) (n := m.groupCount) (l := 0) (a := ())
    ⟨hd, by
      refine Vol.ext (funext fun b => ?_) rfl rfl rfl
      show (vol n d).used b = if b / 32768 < 0 then used b else (vol n d).used b
      rw [if_neg (by omega)]⟩ (by
      intro g _ s _ hk hs
      rw [h.current.groupCount] at hk
      obtain ⟨hh, hv⟩ := hs
      have hgr : g < groupsOf n := by omega
      by_cases hdirty : ctx.dirty g = true
      · obtain ⟨hw, hh'⟩ := hh.put_meta (c := bbBlk n g) (by unfold bbBlk; omega)
          (bbBlk_lt hg hgr) (ctx.bitmaps g)
        refine ⟨(), _, ?_, hh', ?_⟩
        · rw [if_pos hdirty, h.current.blockSize, h.current.head.bitmap g hgr]
          exact orFail_of_ok hw
        · rw [vol_put_bb hg, hv]
          refine Vol.ext (funext fun b => ?_) rfl rfl rfl
          show (if b / 32768 = g then decide (b < n) && (ctx.bitmaps g).bit (b % 32768)
            else if b / 32768 < g then used b else (vol n d).used b)
            = if b / 32768 < g + 1 then used b else (vol n d).used b
          by_cases hbg : b / 32768 = g
          · rw [if_pos hbg, if_pos (by omega)]
            by_cases hb : b < n
            · rw [decide_eq_true hb, Bool.true_and,
                ← h.loaded b hb (by rw [hbg]; exact h.dirty g hdirty), hbg]
            · rw [decide_eq_false hb, Bool.false_and, h.out b (by omega)]
          · rw [if_neg hbg]
            by_cases hlt : b / 32768 < g
            · rw [if_pos hlt, if_pos (by omega)]
            · rw [if_neg hlt, if_neg (by omega)]
      · refine ⟨(), s, ?_, hh, ?_⟩
        · rw [if_neg hdirty]
          rfl
        · rw [hv]
          refine Vol.ext (funext fun b => ?_) rfl rfl rfl
          show (if b / 32768 < g then used b else (vol n d).used b)
            = if b / 32768 < g + 1 then used b else (vol n d).used b
          by_cases hbg : b / 32768 = g
          · rw [if_neg (by omega), if_pos (by omega)]
            by_cases hb : b < n
            · exact (h.clean b hb (by rw [hbg]; simpa using hdirty)).symm
            · rw [h.out b (by omega), vol_used_out n d (by omega)]
          · by_cases hlt : b / 32768 < g
            · rw [if_pos hlt, if_pos (by omega)]
            · rw [if_neg hlt, if_neg (by omega)])
  have hvol : vol n d₁ = { vol n d with used := used } := by
    rw [hvol₁, h.current.groupCount]
    refine Vol.ext (funext fun b => ?_) rfl rfl rfl
    show (if b / 32768 < 0 + groupsOf n then used b else (vol n d).used b) = used b
    split
    · rfl
    · rename_i hge
      have hb : n ≤ b := by
        by_contra hlt
        exact hge (by rw [Nat.zero_add]; exact hg.group_lt (by omega))
      rw [h.out b hb, vol_used_out n d hb]
  have hcur : Current n (vol n d₁) m := by
    rw [hvol]
    exact h.current
  obtain ⟨d', hstore, hgood, hvol'⟩ := ext2StoreMeta_eq hg hd₁ hcur
  refine ⟨d', ?_, hgood, hvol'.trans hvol⟩
  unfold ext2AllocCtxCommit
  rw [bind_of_ok hrun]
  exact hstore

end Context

end Guppy.Ext2
