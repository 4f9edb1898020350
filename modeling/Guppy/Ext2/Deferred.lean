import Guppy.Ext2.HandleRead

set_option autoImplicit false

/-! # Deferred allocation

`ext2_alloc_block_ctx` works on copies of the bitmaps and leaves the device alone until
`ext2_alloc_ctx_commit`. Against `ext2_alloc_block`, which stores everything at once, it saves
the rescan from bit 0. `Tracks` relates the two: the copies are what `ext2_alloc_block` would
have on the device by now, and every bit behind a cursor is set. One call keeps this
(`returnBlock_tracks`), and the commit turns it into equal metadata (`commit_tracks`).
-/

namespace Guppy.Ext2

open Prog

/-! ## Calls with their results

A caller sees only the returned block. The source returns 0 for a full volume and, having
marked it, for block 0. -/

/-- The groups `g`, `g + 1`, ... of `ext2_alloc_block`, with the metadata that is left when it
returns 0. -/
def returnBlockFrom (m : Ext2Meta) : (count g : Nat) → Prog Vblk (Nat × Ext2Meta)
  | 0, _ => pure (0, m)
  | count + 1, g =>
      if (m.gd g).bgFreeBlocksCount = 0 then returnBlockFrom m count (g + 1)
      else do
        let bb ← look (fun d => preadBlock d m.blockSize (m.gd g).bgBlockBitmap m.blockSize)
        match firstFrom (fun i => !bb.bit i) (ext2GroupBlockCount m g) 0 with
        | none => returnBlockFrom m count (g + 1)
        | some local' => do
            pwriteBlock m.blockSize (m.gd g).bgBlockBitmap (bb.setBit local') m.blockSize
            ext2StoreMeta (m.takeBlock g)
            pure (g * m.sb.sBlocksPerGroup + local', m.takeBlock g)

def returnBlock (m : Ext2Meta) : Prog Vblk (Nat × Ext2Meta) := returnBlockFrom m m.groupCount 0

/-- The groups `g`, `g + 1`, ... of `ext2_alloc_block_ctx`, with the metadata and the context
that are left when it returns 0. -/
def returnBlockCtxFrom (d : Vblk) (m : Ext2Meta) :
    (count g : Nat) → AllocCtx → Except Int (Nat × Ext2Meta × AllocCtx)
  | 0, _, ctx => .ok (0, m, ctx)
  | count + 1, g, ctx =>
      if (m.gd g).bgFreeBlocksCount = 0 then returnBlockCtxFrom d m count (g + 1) ctx
      else do
        let ctx ← ctx.load d m g
        let groupBlocks := ext2GroupBlockCount m g
        let start := min (ctx.cursor g) groupBlocks
        match firstFrom (fun i => !(ctx.bitmaps g).bit i) (groupBlocks - start) start with
        | none =>
            returnBlockCtxFrom d m count (g + 1)
              { ctx with cursor := Function.update ctx.cursor g groupBlocks }
        | some local' =>
            .ok (g * m.sb.sBlocksPerGroup + local', m.takeBlock g,
              { ctx with
                bitmaps := Function.update ctx.bitmaps g ((ctx.bitmaps g).setBit local')
                cursor := Function.update ctx.cursor g (local' + 1)
                dirty := Function.update ctx.dirty g true })

def returnBlockCtx (d : Vblk) (m : Ext2Meta) (ctx : AllocCtx) :
    Except Int (Nat × Ext2Meta × AllocCtx) := returnBlockCtxFrom d m m.groupCount 0 ctx

/-- `ext2_alloc_block` fails where 0 is returned. -/
theorem allocBlockFrom_eq (m : Ext2Meta) (count g : Nat) :
    allocBlockFrom m count g = (do
      let r ← returnBlockFrom m count g
      failIf (r.1 = 0) 0
      pure r) := by
  induction count generalizing g with
  | zero => rfl
  | succ count ih =>
      unfold allocBlockFrom returnBlockFrom
      split
      · exact ih (g + 1)
      · rw [bind_assoc]
        congr 1
        funext bb
        cases firstFrom (fun i => !bb.bit i) (ext2GroupBlockCount m g) 0 with
        | none => exact ih (g + 1)
        | some i => simp only [bind_assoc, pure_bind]

theorem allocBlockCtxFrom_eq (d : Vblk) (m : Ext2Meta) (count g : Nat) (ctx : AllocCtx) :
    allocBlockCtxFrom d m count g ctx = (do
      let r ← returnBlockCtxFrom d m count g ctx
      check (r.1 = 0) 0
      .ok r) := by
  induction count generalizing g ctx with
  | zero => rfl
  | succ count ih =>
      unfold allocBlockCtxFrom returnBlockCtxFrom
      split
      · exact ih (g + 1) ctx
      · rw [bind_assoc]
        congr 1
        funext ctx₁
        dsimp only []
        cases firstFrom (fun i => !(ctx₁.bitmaps g).bit i)
            (ext2GroupBlockCount m g - min (ctx₁.cursor g) (ext2GroupBlockCount m g))
            (min (ctx₁.cursor g) (ext2GroupBlockCount m g)) with
        | none => exact ih (g + 1) _
        | some i => rfl

/-- `n` calls of `ext2_alloc_block`: what they return, and the metadata that they leave. -/
def allocBlocks : Nat → Ext2Meta → Prog Vblk (List Nat × Ext2Meta)
  | 0, m => pure ([], m)
  | n + 1, m => do
      let (b, m) ← returnBlock m
      let (bs, m) ← allocBlocks n m
      pure (b :: bs, m)

/-- `n` calls of `ext2_alloc_block_ctx`. -/
def allocBlocksCtx (d : Vblk) : Nat → Ext2Meta → AllocCtx → Except Int (List Nat × Ext2Meta × AllocCtx)
  | 0, m, ctx => .ok ([], m, ctx)
  | n + 1, m, ctx => do
      let (b, m, ctx) ← returnBlockCtx d m ctx
      let (bs, m, ctx) ← allocBlocksCtx d n m ctx
      .ok (b :: bs, m, ctx)

/-! ## Where the metadata is -/

/-- The bitmap block of group `g` on the device. -/
def bitmapAt (d : Vblk) (m : Ext2Meta) (g : Nat) : Mem :=
  d.bytes.slice ((m.gd g).bgBlockBitmap * m.blockSize) m.blockSize

/-- The bitmap of group `g` as a context has it: its copy, or the block on the device. -/
def AllocCtx.bitmapOf (ctx : AllocCtx) (d : Vblk) (m : Ext2Meta) (g : Nat) : Mem :=
  if ctx.loaded g then ctx.bitmaps g else bitmapAt d m g

/-- The descriptor of group `g` on the device. -/
def descAt (d : Vblk) (m : Ext2Meta) (g : Nat) : GroupDesc :=
  d.bytes.slice (m.gdtBlk * m.blockSize + g * 32) 32

/-- The metadata in memory is what the device has. -/
structure OnDisk (d : Vblk) (m : Ext2Meta) : Prop where
  sb : d.bytes.slice 1024 204 = m.sb.slice 0 204
  gd : ∀ g, g < m.groupCount → descAt d m g = (m.gd g).slice 0 32

/-- The superblock, the descriptors and the bitmap blocks are apart from each other and lie
on a device of `limit` bytes; the bits of a group fit into its bitmap block. -/
structure Apart (limit : Nat) (m : Ext2Meta) : Prop where
  per : ∃ per, 0 < per ∧ m.blockSize = 32 * per ∧ m.groupCount ≤ m.gdtBlocks * per
  super : 1228 ≤ m.gdtBlk * m.blockSize
  table : (m.gdtBlk + m.gdtBlocks) * m.blockSize ≤ limit
  bits : ∀ g, g < m.groupCount → ext2GroupBlockCount m g ≤ 8 * m.blockSize
  bitmap : ∀ g, g < m.groupCount → ((m.gd g).bgBlockBitmap + 1) * m.blockSize ≤ limit
  bitmap_sb : ∀ g, g < m.groupCount → ((m.gd g).bgBlockBitmap + 1) * m.blockSize ≤ 1024 ∨
    1228 ≤ (m.gd g).bgBlockBitmap * m.blockSize
  bitmap_gdt : ∀ g, g < m.groupCount → (m.gd g).bgBlockBitmap < m.gdtBlk ∨
    m.gdtBlk + m.gdtBlocks ≤ (m.gd g).bgBlockBitmap
  distinct : ∀ g g', g < m.groupCount → g' < m.groupCount → g ≠ g' →
    (m.gd g).bgBlockBitmap ≠ (m.gd g').bgBlockBitmap

/-- The same geometry, with other counts. -/
structure SameShape (m m' : Ext2Meta) : Prop where
  groupCount : m'.groupCount = m.groupCount
  blockSize : m'.blockSize = m.blockSize
  gdtBlk : m'.gdtBlk = m.gdtBlk
  gdtBlocks : m'.gdtBlocks = m.gdtBlocks
  groupBlocks : ∀ g, ext2GroupBlockCount m' g = ext2GroupBlockCount m g
  bitmap : ∀ g, (m'.gd g).bgBlockBitmap = (m.gd g).bgBlockBitmap

theorem SameShape.refl (m : Ext2Meta) : SameShape m m :=
  ⟨rfl, rfl, rfl, rfl, fun _ => rfl, fun _ => rfl⟩

theorem SameShape.trans {m m' m'' : Ext2Meta} (h : SameShape m m') (h' : SameShape m' m'') :
    SameShape m m'' where
  groupCount := h'.groupCount.trans h.groupCount
  blockSize := h'.blockSize.trans h.blockSize
  gdtBlk := h'.gdtBlk.trans h.gdtBlk
  gdtBlocks := h'.gdtBlocks.trans h.gdtBlocks
  groupBlocks g := (h'.groupBlocks g).trans (h.groupBlocks g)
  bitmap g := (h'.bitmap g).trans (h.bitmap g)

theorem SameShape.takeBlock (m : Ext2Meta) (g : Nat) : SameShape m (m.takeBlock g) := by
  refine ⟨rfl, rfl, rfl, rfl, fun g' => ?_, fun g' => ?_⟩
  · have h₁ : (m.takeBlock g).sb.sBlocksPerGroup = m.sb.sBlocksPerGroup :=
      Mem.rd32_write_out (by omega)
    have h₂ : (m.takeBlock g).sb.sBlocksCount = m.sb.sBlocksCount := Mem.rd32_write_out (by omega)
    unfold ext2GroupBlockCount
    rw [h₁, h₂]
  · show GroupDesc.bgBlockBitmap (Function.update m.gd g _ g') = _
    by_cases hgg : g' = g
    · rw [hgg, Function.update_self]
      exact Mem.rd32_write_out (by omega)
    · rw [Function.update_of_ne hgg]

theorem SameShape.bitmapAt {m m' : Ext2Meta} (h : SameShape m m') (d : Vblk) (g : Nat) :
    bitmapAt d m' g = bitmapAt d m g := by
  unfold Ext2.bitmapAt
  rw [h.bitmap, h.blockSize]

theorem SameShape.descAt {m m' : Ext2Meta} (h : SameShape m m') (d : Vblk) (g : Nat) :
    descAt d m' g = descAt d m g := by
  unfold Ext2.descAt
  rw [h.gdtBlk, h.blockSize]

theorem SameShape.bitmapOf {m m' : Ext2Meta} (h : SameShape m m') (ctx : AllocCtx) (d : Vblk)
    (g : Nat) : ctx.bitmapOf d m' g = ctx.bitmapOf d m g := by
  unfold AllocCtx.bitmapOf
  rw [h.bitmapAt]

theorem Apart.of_shape {limit : Nat} {m m' : Ext2Meta} (hap : Apart limit m) (h : SameShape m m') :
    Apart limit m' := by
  obtain ⟨hgroups, hbs, hblk, hblocks, hgb, hmap⟩ := h
  constructor
  · rw [hbs, hgroups, hblocks]
    exact hap.per
  · rw [hblk, hbs]
    exact hap.super
  · rw [hblk, hblocks, hbs]
    exact hap.table
  · intro g
    rw [hgroups, hgb, hbs]
    exact hap.bits g
  · intro g
    rw [hgroups, hmap, hbs]
    exact hap.bitmap g
  · intro g
    rw [hgroups, hmap, hbs]
    exact hap.bitmap_sb g
  · intro g
    rw [hgroups, hmap, hblk, hblocks]
    exact hap.bitmap_gdt g
  · intro g g'
    rw [hgroups, hmap, hmap]
    exact hap.distinct g g'

/-! ## Storing the metadata -/

/-- Different blocks do not overlap. -/
theorem block_apart {b c bs : Nat} (h : b ≠ c) : b * bs + bs ≤ c * bs ∨ c * bs + bs ≤ b * bs := by
  rcases Nat.lt_or_gt_of_ne h with hlt | hlt
  · left
    rw [← Nat.succ_mul]
    exact Nat.mul_le_mul_right bs hlt
  · right
    rw [← Nat.succ_mul]
    exact Nat.mul_le_mul_right bs hlt

section Store

variable {d : Vblk} {m : Ext2Meta}

/-- The device after the superblock and `k` blocks of descriptors have been written. -/
structure StoredUpTo (d : Vblk) (m : Ext2Meta) (per k : Nat) (d' : Vblk) : Prop where
  limit : d'.limit = d.limit
  ro : d'.ro = d.ro
  sb : d'.bytes.slice 1024 204 = m.sb.slice 0 204
  gd : ∀ g, g < k * per → g < m.groupCount → descAt d' m g = (m.gd g).slice 0 32
  bitmap : ∀ g, g < m.groupCount → bitmapAt d' m g = bitmapAt d m g

theorem StoredUpTo.zero (hap : Apart d.limit m) (per : Nat) :
    StoredUpTo d m per 0 (d.put 1024 Superblock.size m.sb) := by
  refine ⟨rfl, rfl, ?_, fun g hg => ?_, fun g hg => ?_⟩
  · show (d.bytes.write 1024 204 m.sb).slice 1024 204 = m.sb.slice 0 204
    rw [Mem.slice_write_in (le_refl _) (by omega), Nat.sub_self]
  · omega
  · have hout := hap.bitmap_sb g hg
    rw [Nat.succ_mul] at hout
    exact Mem.slice_write_out (by unfold Superblock.size; omega)

/-- One descriptor of a block of descriptors. -/
theorem gdtBuf_desc {gd : Nat → GroupDesc} {groups per k r : Nat} (hr : r < per)
    (hg : k * per + r < groups) :
    (gdtBuf gd (k * per, min per (groups - k * per))).slice (r * 32) 32 = (gd (k * per + r)).slice 0 32 := by
  funext i
  by_cases hi : i < 32
  · rw [Mem.slice_in hi, Mem.slice_in hi]
    show (if r * 32 + i < min per (groups - k * per) * 32 then
      gd (k * per + (r * 32 + i) / 32) ((r * 32 + i) % 32) else 0) = gd (k * per + r) (0 + i)
    rw [if_pos (by omega)]
    have hq : (r * 32 + i) / 32 = r := by omega
    have hm : (r * 32 + i) % 32 = 0 + i := by omega
    rw [hq, hm]
  · rw [Mem.slice_out (by omega), Mem.slice_out (by omega)]

theorem StoredUpTo.succ {per k : Nat} {d' : Vblk} (hap : Apart d.limit m) (hper : 0 < per)
    (hbs : m.blockSize = 32 * per) (hk : k < m.gdtBlocks) (h : StoredUpTo d m per k d') :
    StoredUpTo d m per (k + 1)
      (d'.put ((m.gdtBlk + k) * m.blockSize) m.blockSize (gdtBuf m.gd (gdtSpan m k))) := by
  have hspan : gdtSpan m k = (k * per, min per (m.groupCount - k * per)) := by
    unfold gdtSpan GroupDesc.size
    rw [hbs, Nat.mul_div_cancel_left per (by omega)]
  have hoff : (m.gdtBlk + k) * m.blockSize = m.gdtBlk * m.blockSize + k * per * 32 := by
    rw [Nat.add_mul, hbs]
    ring
  have hsuper := hap.super
  refine ⟨h.limit, h.ro, ?_, fun g hg hlt => ?_, fun g hg => ?_⟩
  · rw [← h.sb]
    exact Mem.slice_write_out (by omega)
  · show (d'.bytes.write _ _ _).slice _ 32 = _
    by_cases hold : g < k * per
    · -- a descriptor of an earlier block
      rw [← h.gd g hold hlt]
      exact Mem.slice_write_out (by omega)
    · rw [Nat.succ_mul] at hg
      obtain ⟨r, rfl⟩ := Nat.exists_eq_add_of_le (Nat.le_of_not_lt hold)
      rw [hoff, Mem.slice_write_in (by omega) (by omega), hspan, ← gdtBuf_desc (by omega) hlt]
      congr 1
      omega
  · rw [← h.bitmap g hg]
    have hne : (m.gd g).bgBlockBitmap ≠ m.gdtBlk + k := by
      have := hap.bitmap_gdt g hg
      omega
    exact Mem.slice_write_out (block_apart hne)

/-- Storing the metadata puts it on the device and leaves the bitmaps alone. -/
theorem ext2StoreMeta_apart (hro : d.ro = false) (hap : Apart d.limit m) :
    ∃ d', ext2StoreMeta m d = .ok () d' ∧ d'.limit = d.limit ∧ d'.ro = false ∧ OnDisk d' m ∧
      ∀ g, g < m.groupCount → bitmapAt d' m g = bitmapAt d m g := by
  obtain ⟨per, hper, hbs, hcover⟩ := hap.per
  have htable := hap.table
  have hsuper := hap.super
  have hfirst : orFail (pwriteBytesAt 1024 m.sb Superblock.size) (-1) d
      = .ok () (d.put 1024 Superblock.size m.sb) := by
    refine orFail_of_ok (pwriteBytesAt_of_le hro ?_)
    rw [Nat.add_mul] at htable
    unfold Superblock.size
    omega
  obtain ⟨u, d', hrun, hd'⟩ := @forLoop_total _ _ (fun k (_ : Unit) => orFail
      (pwriteBlock m.blockSize (m.gdtBlk + k) (gdtBuf m.gd (gdtSpan m k)) m.blockSize) (-2))
    (fun k _ s => StoredUpTo d m per k s) m.gdtBlocks 0 () _ (StoredUpTo.zero hap per) (by
      intro k _ s _ hk hs
      rw [Nat.zero_add] at hk
      refine ⟨(), _, ?_, hs.succ hap hper hbs hk⟩
      refine orFail_of_ok (pwriteBlock_of_le (hs.ro.trans hro) ?_)
      rw [hs.limit, ← Nat.succ_mul]
      exact le_trans (Nat.mul_le_mul_right _ (by omega)) htable)
  rw [Nat.zero_add] at hd'
  refine ⟨d', ?_, hd'.limit, hd'.ro.trans hro, ⟨hd'.sb, fun g hg => hd'.gd g (by omega) hg⟩, hd'.bitmap⟩
  unfold ext2StoreMeta
  rw [bind_of_ok hfirst]
  exact hrun

end Store

/-! ## One call -/

/-- Loading a bitmap changes nothing in what a context says. -/
theorem AllocCtx.load_ok {d : Vblk} {m : Ext2Meta} (ctx : AllocCtx) {g : Nat}
    (h : ctx.loaded g = true ∨ ((m.gd g).bgBlockBitmap + 1) * m.blockSize ≤ d.limit) :
    ∃ ctx' : AllocCtx, ctx.load d m g = .ok ctx' ∧ ctx'.loaded g = true ∧
      ctx'.cursor = ctx.cursor ∧ ctx'.dirty = ctx.dirty ∧
      (∀ g', ctx.loaded g' = true → ctx'.loaded g' = true) ∧
      ∀ g', ctx'.bitmapOf d m g' = ctx.bitmapOf d m g' := by
  unfold AllocCtx.load
  by_cases hl : ctx.loaded g = true
  · rw [if_pos hl]
    exact ⟨ctx, rfl, hl, rfl, rfl, fun _ h => h, fun _ => rfl⟩
  · have hlim := h.resolve_left hl
    rw [Nat.succ_mul] at hlim
    rw [if_neg hl, preadBlock_of_le hlim]
    refine ⟨_, rfl, Function.update_self .., rfl, rfl, fun g' hg' => ?_, fun g' => ?_⟩
    · by_cases hgg : g' = g
      · subst hgg
        exact Function.update_self ..
      · exact (Function.update_of_ne hgg _ _).trans hg'
    · unfold AllocCtx.bitmapOf
      by_cases hgg : g' = g
      · subst hgg
        simp [hl, bitmapAt]
      · simp [Function.update_of_ne hgg]

/-- A context on the device `d` against the device `s` on which every block was stored at once:
its bitmaps are those of `s`, only dirty ones differ from those of `d`, and the bits behind
the cursors are set. -/
structure Tracks (d s : Vblk) (m : Ext2Meta) (ctx : AllocCtx) : Prop where
  apart : Apart d.limit m
  limit : s.limit = d.limit
  ro : s.ro = false
  disk : OnDisk s m
  bitmap : ∀ g, g < m.groupCount → bitmapAt s m g = ctx.bitmapOf d m g
  dirty : ∀ g, ctx.dirty g = true → ctx.loaded g = true
  clean : ∀ g, ctx.dirty g = false → ctx.bitmapOf d m g = bitmapAt d m g
  behind : ∀ g, g < m.groupCount → ∀ i, i < ctx.cursor g → i < ext2GroupBlockCount m g →
    (ctx.bitmapOf d m g).bit i = true

theorem tracks_init {d : Vblk} {m : Ext2Meta} (hro : d.ro = false) (hap : Apart d.limit m)
    (hdisk : OnDisk d m) : Tracks d d m AllocCtx.init where
  apart := hap
  limit := rfl
  ro := hro
  disk := hdisk
  bitmap _ _ := rfl
  dirty _ h := by cases h
  clean _ _ := rfl
  behind _ _ i hi := absurd hi (Nat.not_lt_zero i)

/-- Setting a bit keeps a block a block. -/
theorem slice_setBit {p : Mem} {n i : Nat} (hp : p.slice 0 n = p) (hi : i < 8 * n) :
    (p.setBit i).slice 0 n = p.setBit i := by
  funext j
  by_cases hj : j < n
  · rw [Mem.slice_in hj, Nat.zero_add]
  · rw [Mem.slice_out (by omega), Mem.setBit, Mem.write_out (by omega), ← hp, Mem.slice_out (by omega)]

/-- Numbers that are passed over anyway need not be looked at. -/
theorem firstFrom_skip {p : Nat → Bool} {n start : Nat} (hs : start ≤ n)
    (h : ∀ i, i < start → p i = false) : firstFrom p (n - start) start = firstFrom p n 0 := by
  induction start with
  | zero => rfl
  | succ start ih =>
      rw [← ih (by omega) (fun i hi => h i (by omega)), show n - start = n - (start + 1) + 1 by omega,
        firstFrom, h start (by omega)]
      rfl

section Step

variable {d s : Vblk} {m : Ext2Meta} {ctx : AllocCtx}

theorem Tracks.load (h : Tracks d s m ctx) {g : Nat} (hg : g < m.groupCount) :
    ∃ ctx', ctx.load d m g = .ok ctx' ∧ Tracks d s m ctx' ∧ ctx'.bitmaps g = bitmapAt s m g ∧
      ctx'.loaded g = true := by
  obtain ⟨ctx', hload, hl, hcursor, hdirty, hmono, hsame⟩ := ctx.load_ok (Or.inr (h.apart.bitmap g hg))
  refine ⟨ctx', hload, ⟨h.apart, h.limit, h.ro, h.disk, ?_, ?_, ?_, ?_⟩, ?_, hl⟩
  · intro g' hg'
    rw [hsame]
    exact h.bitmap g' hg'
  · intro g' hg'
    rw [hdirty] at hg'
    exact hmono g' (h.dirty g' hg')
  · intro g' hg'
    rw [hdirty] at hg'
    rw [hsame]
    exact h.clean g' hg'
  · intro g' hg' i
    rw [hcursor, hsame]
    exact h.behind g' hg' i
  · rw [h.bitmap g hg, ← hsame, AllocCtx.bitmapOf, if_pos hl]

/-- A group without a clear bit: the cursor goes to its end. -/
theorem Tracks.exhausted (h : Tracks d s m ctx) {g : Nat} (hg : g < m.groupCount)
    (hfull : ∀ i, i < ext2GroupBlockCount m g → (bitmapAt s m g).bit i = true) :
    Tracks d s m { ctx with cursor := Function.update ctx.cursor g (ext2GroupBlockCount m g) } := by
  refine ⟨h.apart, h.limit, h.ro, h.disk, h.bitmap, h.dirty, h.clean, fun g' hg' i hi hlt => ?_⟩
  show (ctx.bitmapOf d m g').bit i = true
  by_cases hgg : g' = g
  · subst hgg
    rw [← h.bitmap g' hg']
    exact hfull i hlt
  · have hi : i < ctx.cursor g' := by
      simpa [Function.update_of_ne hgg] using hi
    exact h.behind g' hg' i hi hlt

/-- Taking bit `i` of group `g`: the device gets the bitmap and the metadata, the context its
copy. -/
theorem Tracks.take (h : Tracks d s m ctx) {g i : Nat} (hg : g < m.groupCount)
    (hi : i < ext2GroupBlockCount m g) (hl : ctx.loaded g = true)
    (hset : ∀ j, j < i → (bitmapAt s m g).bit j = true) :
    ∃ s₁ s₂, pwriteBlock m.blockSize (m.gd g).bgBlockBitmap ((bitmapAt s m g).setBit i) m.blockSize s
        = .ok () s₁ ∧
      ext2StoreMeta (m.takeBlock g) s₁ = .ok () s₂ ∧
      Tracks d s₂ (m.takeBlock g)
        { ctx with
          bitmaps := Function.update ctx.bitmaps g ((bitmapAt s m g).setBit i)
          cursor := Function.update ctx.cursor g (i + 1)
          dirty := Function.update ctx.dirty g true } := by
  have hshape := SameShape.takeBlock m g
  have hlim := h.apart.bitmap g hg
  rw [Nat.succ_mul, ← h.limit] at hlim
  have hwrite := @pwriteBlock_of_le s m.blockSize (m.gd g).bgBlockBitmap m.blockSize
    ((bitmapAt s m g).setBit i) h.ro hlim
  generalize hs₁ : s.put ((m.gd g).bgBlockBitmap * m.blockSize) m.blockSize ((bitmapAt s m g).setBit i) = s₁
    at hwrite
  have hap : Apart s₁.limit (m.takeBlock g) := by
    rw [← hs₁]
    show Apart s.limit (m.takeBlock g)
    rw [h.limit]
    exact h.apart.of_shape hshape
  obtain ⟨s₂, hstore, hlim₂, hro₂, hdisk₂, hmap₂⟩ := ext2StoreMeta_apart (by rw [← hs₁]; exact h.ro) hap
  -- the bitmap block that was written, and the others
  have hself : bitmapAt s₁ m g = (bitmapAt s m g).setBit i := by
    have hbits := h.apart.bits g hg
    rw [← hs₁]
    show (s.bytes.write _ _ _).slice _ _ = _
    rw [Mem.slice_write_in (le_refl _) (le_refl _), Nat.sub_self]
    exact slice_setBit (Mem.slice_zero_slice ..) (by omega)
  have hother : ∀ g', g' < m.groupCount → g' ≠ g → bitmapAt s₁ m g' = bitmapAt s m g' := by
    intro g' hg' hne
    rw [← hs₁]
    exact Mem.slice_write_out (block_apart (h.apart.distinct g' g hg' hg hne))
  refine ⟨s₁, s₂, hwrite, hstore, ⟨h.apart.of_shape hshape, ?_, hro₂, hdisk₂, ?_, ?_, ?_, ?_⟩⟩
  · rw [hlim₂, ← hs₁]
    exact h.limit
  · intro g' hg'
    have hg' : g' < m.groupCount := hg'
    rw [hmap₂ g' hg', hshape.bitmapAt, hshape.bitmapOf]
    by_cases hgg : g' = g
    · subst hgg
      rw [hself, AllocCtx.bitmapOf, if_pos hl]
      exact (Function.update_self g' _ ctx.bitmaps).symm
    · rw [hother g' hg' hgg, h.bitmap g' hg']
      unfold AllocCtx.bitmapOf
      simp [Function.update_of_ne hgg]
  · intro g' hg'
    by_cases hgg : g' = g
    · rw [hgg]
      exact hl
    · exact h.dirty g' (by simpa [Function.update_of_ne hgg] using hg')
  · intro g' hg'
    have hgg : g' ≠ g := by
      intro hgg
      subst hgg
      simp at hg'
    rw [hshape.bitmapAt, hshape.bitmapOf, ← h.clean g' (by simpa [Function.update_of_ne hgg] using hg')]
    unfold AllocCtx.bitmapOf
    simp [Function.update_of_ne hgg]
  · intro g' hg' j hj hlt
    have hg' : g' < m.groupCount := hg'
    rw [hshape.groupBlocks] at hlt
    rw [hshape.bitmapOf]
    by_cases hgg : g' = g
    · subst hgg
      have hj : j < i + 1 := by simpa using hj
      rw [AllocCtx.bitmapOf, if_pos hl]
      show (Function.update ctx.bitmaps g' _ g').bit j = true
      rw [Function.update_self, Mem.bit_setBit]
      by_cases hji : i = j
      · simp [hji]
      · rw [hset j (by omega), Bool.or_true]
    · have hj : j < ctx.cursor g' := by simpa [Function.update_of_ne hgg] using hj
      have := h.behind g' hg' j hj hlt
      unfold AllocCtx.bitmapOf at this ⊢
      simpa [Function.update_of_ne hgg] using this

/-- The two loops over the groups return the same block and keep the relation. -/
theorem returnBlockFrom_tracks {count g : Nat} (hcount : g + count = m.groupCount)
    (h : Tracks d s m ctx) :
    ∃ b m' s' ctx', returnBlockFrom m count g s = .ok (b, m') s' ∧
      returnBlockCtxFrom d m count g ctx = .ok (b, m', ctx') ∧ Tracks d s' m' ctx' ∧
      SameShape m m' := by
  induction count generalizing g ctx with
  | zero => exact ⟨0, m, s, ctx, rfl, rfl, h, SameShape.refl m⟩
  | succ count ih =>
      have hg : g < m.groupCount := by omega
      unfold returnBlockFrom returnBlockCtxFrom
      by_cases hfree : (m.gd g).bgFreeBlocksCount = 0
      · rw [if_pos hfree, if_pos hfree]
        exact ih (by omega) h
      rw [if_neg hfree, if_neg hfree]
      have hlim := h.apart.bitmap g hg
      rw [Nat.succ_mul, ← h.limit] at hlim
      have hread : look (fun d => preadBlock d m.blockSize (m.gd g).bgBlockBitmap m.blockSize) s
          = .ok (bitmapAt s m g) s := look_of_ok (preadBlock_of_le hlim)
      obtain ⟨ctx₁, hload, h₁, hcopy, hl₁⟩ := h.load hg
      rw [bind_of_ok hread, except_bind_of_ok hload]
      dsimp only []
      -- the scan from the cursor finds what the scan from bit 0 finds
      have hscan : firstFrom (fun i => !(ctx₁.bitmaps g).bit i)
          (ext2GroupBlockCount m g - min (ctx₁.cursor g) (ext2GroupBlockCount m g))
          (min (ctx₁.cursor g) (ext2GroupBlockCount m g))
          = firstFrom (fun i => !(bitmapAt s m g).bit i) (ext2GroupBlockCount m g) 0 := by
        rw [hcopy]
        refine firstFrom_skip (by omega) (fun i hi => ?_)
        have hset := h₁.behind g hg i (by omega) (by omega)
        rw [← h₁.bitmap g hg] at hset
        rw [hset]
        rfl
      rw [hscan]
      cases hfound : firstFrom (fun i => !(bitmapAt s m g).bit i) (ext2GroupBlockCount m g) 0 with
      | none =>
          refine ih (by omega) (h₁.exhausted hg (fun i hi => ?_))
          have := firstFrom_none.mp hfound i (Nat.zero_le i) (by omega)
          simpa using this
      | some i =>
          obtain ⟨-, hi, -, hbefore⟩ := firstFrom_some hfound
          rw [Nat.zero_add] at hi
          obtain ⟨s₁, s₂, hwrite, hstore, htake⟩ := h₁.take hg hi hl₁
            (fun j hj => by simpa using hbefore j (Nat.zero_le j) hj)
          refine ⟨g * m.sb.sBlocksPerGroup + i, m.takeBlock g, s₂, _, ?_, ?_, htake,
            SameShape.takeBlock m g⟩
          · dsimp only []
            rw [bind_of_ok hwrite, bind_of_ok hstore]
            rfl
          · rw [hcopy]

theorem returnBlock_tracks (h : Tracks d s m ctx) :
    ∃ b m' s' ctx', returnBlock m s = .ok (b, m') s' ∧ returnBlockCtx d m ctx = .ok (b, m', ctx') ∧
      Tracks d s' m' ctx' ∧ SameShape m m' :=
  returnBlockFrom_tracks (Nat.zero_add _) h

end Step

/-! ## Whole runs -/

section Run

variable {d s : Vblk} {m : Ext2Meta} {ctx : AllocCtx}

/-- `n` calls return the same blocks and keep the relation. -/
theorem allocBlocks_tracks (n : Nat) (h : Tracks d s m ctx) :
    ∃ bs m' s' ctx', allocBlocks n m s = .ok (bs, m') s' ∧
      allocBlocksCtx d n m ctx = .ok (bs, m', ctx') ∧ Tracks d s' m' ctx' ∧ SameShape m m' := by
  induction n generalizing s m ctx with
  | zero => exact ⟨[], m, s, ctx, rfl, rfl, h, SameShape.refl m⟩
  | succ n ih =>
      obtain ⟨b, m₁, s₁, ctx₁, hone, honeCtx, h₁, hshape₁⟩ := returnBlock_tracks h
      obtain ⟨bs, m₂, s₂, ctx₂, hrest, hrestCtx, h₂, hshape₂⟩ := ih h₁
      refine ⟨b :: bs, m₂, s₂, ctx₂, ?_, ?_, h₂, hshape₁.trans hshape₂⟩
      · unfold allocBlocks
        rw [bind_of_ok hone]
        dsimp only []
        rw [bind_of_ok hrest]
        rfl
      · unfold allocBlocksCtx
        rw [except_bind_of_ok honeCtx]
        dsimp only []
        rw [except_bind_of_ok hrestCtx]

/-- The commit puts the bitmaps and the metadata of a context on the device. -/
theorem commit_tracks (hro : d.ro = false) (h : Tracks d s m ctx) :
    ∃ d', ext2AllocCtxCommit m ctx d = .ok () d' ∧ OnDisk d' m ∧
      ∀ g, g < m.groupCount → bitmapAt d' m g = bitmapAt s m g := by
  obtain ⟨u, d₁, hrun, hlim₁, hro₁, hmap₁⟩ := @forLoop_total _ _ (fun g (_ : Unit) =>
      if ctx.dirty g then
        orFail (pwriteBlock m.blockSize (m.gd g).bgBlockBitmap (ctx.bitmaps g) m.blockSize) (-2)
      else pure ())
    (fun k _ t => t.limit = d.limit ∧ t.ro = false ∧ ∀ g, g < m.groupCount →
      bitmapAt t m g = if g < k then bitmapAt s m g else bitmapAt d m g)
    m.groupCount 0 () d ⟨rfl, hro, fun g _ => (if_neg (Nat.not_lt_zero g)).symm⟩ (by
      intro k _ t _ hk ht
      rw [Nat.zero_add] at hk
      obtain ⟨hlim, hrot, hmap⟩ := ht
      by_cases hdirty : ctx.dirty k = true
      · have hl := h.dirty k hdirty
        have hcopy : bitmapAt s m k = ctx.bitmaps k := by
          rw [h.bitmap k hk, AllocCtx.bitmapOf, if_pos hl]
        have hfits := h.apart.bitmap k hk
        rw [Nat.succ_mul, ← hlim] at hfits
        rw [if_pos hdirty]
        refine ⟨(), _, orFail_of_ok (pwriteBlock_of_le hrot hfits), hlim, hrot, fun g hg => ?_⟩
        show (t.bytes.write _ _ _).slice _ _ = _
        by_cases hgk : g = k
        · subst hgk
          rw [Mem.slice_write_in (le_refl _) (le_refl _), Nat.sub_self, if_pos (by omega), ← hcopy]
          exact Mem.slice_zero_slice ..
        · rw [Mem.slice_write_out (block_apart (h.apart.distinct g k hg hk hgk))]
          refine (hmap g hg).trans ?_
          by_cases hlt : g < k
          · rw [if_pos hlt, if_pos (by omega)]
          · rw [if_neg hlt, if_neg (by omega)]
      · rw [if_neg hdirty]
        refine ⟨(), t, rfl, hlim, hrot, fun g hg => ?_⟩
        rw [hmap g hg]
        by_cases hlt : g < k
        · rw [if_pos hlt, if_pos (by omega)]
        · rw [if_neg hlt]
          by_cases hgk : g = k
          · -- a bitmap that is not dirty is still the one on the device
            subst hgk
            rw [if_pos (by omega), h.bitmap g hg, h.clean g (by simpa using hdirty)]
          · rw [if_neg (by omega)])
  obtain ⟨d', hstore, -, -, hdisk, hmap'⟩ := ext2StoreMeta_apart hro₁ (by rw [hlim₁]; exact h.apart)
  refine ⟨d', ?_, hdisk, fun g hg => ?_⟩
  · unfold ext2AllocCtxCommit
    rw [bind_of_ok hrun]
    exact hstore
  · rw [hmap' g hg, hmap₁ g hg, if_pos (by omega)]

/-- The superblock, the descriptors and the bitmaps are the same on two devices. -/
structure SameMeta (m : Ext2Meta) (d d' : Vblk) : Prop where
  sb : d.bytes.slice 1024 204 = d'.bytes.slice 1024 204
  gd : ∀ g, g < m.groupCount → descAt d m g = descAt d' m g
  bitmap : ∀ g, g < m.groupCount → bitmapAt d m g = bitmapAt d' m g

/-- `n` calls on a fresh context and the commit against `n` calls that store at once: the same
blocks in the same order, the same metadata in memory and on the device. The calls that come
after the volume is full are among the `n`. -/
theorem allocBlocksCtx_eq (hro : d.ro = false) (hap : Apart d.limit m) (hdisk : OnDisk d m) (n : Nat) :
    ∃ bs m' d₁ ctx d₂, allocBlocks n m d = .ok (bs, m') d₁ ∧
      allocBlocksCtx d n m AllocCtx.init = .ok (bs, m', ctx) ∧
      ext2AllocCtxCommit m' ctx d = .ok () d₂ ∧ SameMeta m d₁ d₂ := by
  obtain ⟨bs, m', d₁, ctx, hrun, hrunCtx, htracks, hshape⟩ :=
    allocBlocks_tracks n (tracks_init hro hap hdisk)
  obtain ⟨d₂, hcommit, hdisk₂, hmap₂⟩ := commit_tracks hro htracks
  refine ⟨bs, m', d₁, ctx, d₂, hrun, hrunCtx, hcommit, ?_, fun g hg => ?_, fun g hg => ?_⟩
  · rw [htracks.disk.sb, hdisk₂.sb]
  · have hg : g < m'.groupCount := by rwa [hshape.groupCount]
    rw [← hshape.descAt, ← hshape.descAt, htracks.disk.gd g hg, hdisk₂.gd g hg]
  · have hg : g < m'.groupCount := by rwa [hshape.groupCount]
    rw [← hshape.bitmapAt, ← hshape.bitmapAt, hmap₂ g hg]

end Run

/-- What `ext2_load_meta` gives is on the device, unless it had to fill in the inode size. -/
theorem onDisk_of_load {d : Vblk} {m : Ext2Meta} (h : ext2LoadMeta d = .ok m)
    (hlog : m.sb.sLogBlockSize ≤ 2) (hsize : d.bytes.rd16 1112 ≠ 0) : OnDisk d m := by
  have hloaded := loaded_of_ok h hlog
  constructor
  · have hslice : Superblock.sInodeSize (d.bytes.slice 1024 204) = d.bytes.rd16 1112 :=
      Mem.rd16_slice (by omega)
    rw [hloaded.sb, loadedSb, hslice, if_neg hsize, Mem.slice_zero_slice]
  · intro g hg
    rw [(hloaded.gd g hg).1, Mem.slice_zero_slice]
    rfl

/-! ## Small filesystems -/

/-- Eight blocks of 2048 bytes with nothing in them. -/
def emptyFs : Vblk :=
  { limit := 16384
    ro := false
    bytes := ((((((((((((((Mem.zero.wr32 1024 8).wr32 1028 8).wr32 1036 3).wr32 1040 8).wr32 1048
      1).wr32 1056 16384).wr32 1064 8).wr16 1080 0xEF53).wr32 1100 1).wr32 1108 1).wr16 1112 128).write
      2048 16 ((((Mem.zero.wr32 0 2).wr32 4 3).wr32 8 4).wr16 12 3)).wr16 2062 8).wr16 4096 31)
    clock := fun _ => 0 }

/-- Five calls, of which the last two find the volume full. -/
theorem allocBlocksCtx_empty : ∃ m, ext2LoadMeta emptyFs = .ok m ∧
    ((allocBlocks 5 m).run' emptyFs).map (·.1) = some [5, 6, 7, 0, 0] ∧
    ∃ bs m' d₁ ctx d₂, allocBlocks 5 m emptyFs = .ok (bs, m') d₁ ∧
      allocBlocksCtx emptyFs 5 m AllocCtx.init = .ok (bs, m', ctx) ∧
      ext2AllocCtxCommit m' ctx emptyFs = .ok () d₂ ∧ SameMeta m d₁ d₂ := by
  have heval : ∃ m, ext2LoadMeta emptyFs = .ok m ∧ decide (m.sb.sLogBlockSize = 1 ∧ m.blockSize = 2048 ∧
      m.groupCount = 1 ∧ m.gdtBlk = 1 ∧ m.gdtBlocks = 1 ∧ (m.gd 0).bgBlockBitmap = 2 ∧
      ext2GroupBlockCount m 0 = 8 ∧
      ((allocBlocks 5 m).run' emptyFs).map (·.1) = some [5, 6, 7, 0, 0]) = true :=
    exists_ok_of_eval (by decide +kernel)
  obtain ⟨m, hload, hm⟩ := heval
  obtain ⟨hlog, hbs, hgroups, hblk, hblocks, hmap, hcount, hrun⟩ := of_decide_eq_true hm
  have hzero : ∀ g, g < m.groupCount → g = 0 := by
    intro g hg
    omega
  have hlimit : emptyFs.limit = 16384 := rfl
  have hap : Apart emptyFs.limit m := by
    refine ⟨⟨64, by omega, by omega, by omega⟩, by rw [hblk, hbs]; omega,
      by rw [hblk, hblocks, hbs, hlimit]; omega, ?_, ?_, ?_, ?_, ?_⟩
    · intro g hg
      rw [hzero g hg, hcount, hbs]
      omega
    · intro g hg
      rw [hzero g hg, hmap, hbs, hlimit]
      omega
    · intro g hg
      rw [hzero g hg, hmap, hbs]
      omega
    · intro g hg
      rw [hzero g hg, hmap, hblk, hblocks]
      omega
    · intro g g' hg hg' hne
      exact absurd ((hzero g hg).trans (hzero g' hg').symm) hne
  exact ⟨m, hload, hrun, allocBlocksCtx_eq rfl hap
    (onDisk_of_load hload (by omega) (by decide +kernel)) 5⟩

/-- Two groups of eight blocks with one bitmap block for both. -/
def sharedFs : Vblk :=
  { limit := 16384
    ro := false
    bytes := ((((((((((((Mem.zero.wr32 1024 16).wr32 1028 16).wr32 1036 2).wr32 1044 1).wr32 1056 8).wr32
      1064 8).wr16 1080 0xEF53).wr16 1112 128).wr32 2048 4).wr16 2060 1).wr32 2080 4).wr16 2092 1).wr16
      4096 127
    clock := fun _ => 0 }

/-- Each free count is the number of clear bits of its group. -/
def countsClear (d : Vblk) (m : Ext2Meta) : Bool :=
  (List.range m.groupCount).all (fun g =>
    clearIn (bitmapAt d m g).bit 0 (ext2GroupBlockCount m g) = (m.gd g).bgFreeBlocksCount)

/-- Stored at once, the block of group 0 takes the shared bit; a context has a copy of the
bitmap for each group and returns a block of group 1 as well. And with metadata that is not the
one on the device, a commit after no call stores it. -/
theorem deferred_differs :
    (∃ m, ext2LoadMeta sharedFs = .ok m ∧ countsClear sharedFs m = true ∧
      ((allocBlocks 2 m).run' sharedFs).map (·.1) = some [7, 0] ∧
      (allocBlocksCtx sharedFs 2 m AllocCtx.init).toOption.map (·.1) = some [7, 15]) ∧
    (∃ m, countsClear emptyFs m = true ∧
      (left (allocBlocks 0 m emptyFs)).bytes.rd32 1036 = 3 ∧
      (left (ext2AllocCtxCommit m AllocCtx.init emptyFs)).bytes.rd32 1036 = 2) := by
  constructor
  · have heval : ∃ m, ext2LoadMeta sharedFs = .ok m ∧ decide (countsClear sharedFs m = true ∧
        ((allocBlocks 2 m).run' sharedFs).map (·.1) = some [7, 0] ∧
        (allocBlocksCtx sharedFs 2 m AllocCtx.init).toOption.map (·.1) = some [7, 15]) = true :=
      exists_ok_of_eval (by decide +kernel)
    obtain ⟨m, hload, hm⟩ := heval
    exact ⟨m, hload, of_decide_eq_true hm⟩
  · have heval : ∃ m, ext2LoadMeta emptyFs = .ok m ∧ decide (
        countsClear emptyFs { m with sb := m.sb.setFreeBlocksCount 2 } = true ∧
        (left (allocBlocks 0 { m with sb := m.sb.setFreeBlocksCount 2 } emptyFs)).bytes.rd32 1036 = 3 ∧
        (left (ext2AllocCtxCommit { m with sb := m.sb.setFreeBlocksCount 2 } AllocCtx.init
          emptyFs)).bytes.rd32 1036 = 2) = true := exists_ok_of_eval (by decide +kernel)
    obtain ⟨m, -, hm⟩ := heval
    exact ⟨_, of_decide_eq_true hm⟩

end Guppy.Ext2
