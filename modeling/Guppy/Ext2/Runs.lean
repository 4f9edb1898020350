import Guppy.Ext2.Access

set_option autoImplicit false

/-! # Writing the data of a file

`ext2_write_data_runs` collects blocks that follow each other and writes each run at one go,
in pieces of 64 MiB, and then the zeros behind the data. `writeBlocks` is what it is to do:
write one block after the other. The two agree on a list of blocks unless the last block
number there is, `4294967295`, is followed by block `0`: the run then goes on behind it.
-/

namespace Guppy.Ext2

open Prog

/-- Write one block after the other: block `i` of the data, padded with zeros, to the `i`-th
block of the list. -/
def writeBlocks (bs : Nat) (data : List UInt8) : Nat → List Nat → Prog Vblk Unit
  | _, [] => pure ()
  | i, b :: blocks => do
      pwriteBlock bs b (fun k => Mem.ofList data (i * bs + k)) bs
      writeBlocks bs data (i + 1) blocks

/-- No run of the list goes on from block `4294967295` to block `0`. -/
def NoWrap (blocks : List Nat) : Prop := blocks.IsChain (fun a b => ¬ (a + 1 = uint32 ∧ b = 0))

/-! ## Writes -/

theorem Vblk.put_zero (d : Vblk) (off : Nat) (src : Mem) : d.put off 0 src = d := by
  unfold Vblk.put
  rw [Mem.write_zero_len]

/-- Two writes next to each other are one. -/
theorem Vblk.put_put (d : Vblk) (off l₁ l₂ : Nat) (src : Mem) :
    (d.put off l₁ src).put (off + l₁) l₂ (fun k => src (l₁ + k)) = d.put off (l₁ + l₂) src := by
  unfold Vblk.put
  simp only [Vblk.mk.injEq, and_true, true_and]
  funext i
  by_cases h₂ : off + l₁ ≤ i ∧ i < off + l₁ + l₂
  · rw [Mem.write_in h₂.1 h₂.2, Mem.write_in (by omega) (by omega)]
    congr 1
    omega
  · rw [Mem.write_out (by omega)]
    by_cases h₁ : off ≤ i ∧ i < off + l₁
    · rw [Mem.write_in h₁.1 h₁.2, Mem.write_in (by omega) (by omega)]
    · rw [Mem.write_out (by omega), Mem.write_out (by omega)]

theorem Vblk.put_congr (d : Vblk) {off len : Nat} {src src' : Mem}
    (h : ∀ k, k < len → src k = src' k) : d.put off len src = d.put off len src' := by
  unfold Vblk.put
  simp only [Vblk.mk.injEq, and_true, true_and]
  funext i
  by_cases hi : off ≤ i ∧ i < off + len
  · rw [Mem.write_in hi.1 hi.2, Mem.write_in hi.1 hi.2, h _ (by omega)]
  · rw [Mem.write_out (by omega), Mem.write_out (by omega)]

/-! ## Pieces of a run -/

section Pieces

variable {abs step stop : Nat} {src : Mem} {code : Int}

theorem writePieces_of_le (hstep : 0 < step) {fuel done : Nat} {d : Vblk} (hro : d.ro = false)
    (hlim : abs + stop ≤ d.limit) (hle : done ≤ stop) (hfuel : stop - done ≤ fuel) :
    writePieces abs step src code stop fuel done d
      = .ok () (d.put (abs + done) (stop - done) (fun k => src (done + k))) := by
  induction fuel generalizing done d with
  | zero =>
      rw [Nat.le_zero.mp hfuel, Vblk.put_zero]
      rfl
  | succ fuel ih =>
      unfold writePieces
      by_cases hlt : done < stop
      · rw [if_pos hlt]
        have hw : pwriteBytesAt (abs + done) (fun i => src (done + i)) (min step (stop - done)) d
            = .ok () (d.put (abs + done) (min step (stop - done)) (fun i => src (done + i))) :=
          pwriteBytesAt_of_le hro (by omega)
        rw [bind_of_ok (orFail_of_ok hw), ih (d := d.put (abs + done) _ _) hro hlim (by omega) (by omega)]
        -- what is left and the piece just written are next to each other
        have hput := Vblk.put_put d (abs + done) (min step (stop - done))
          (stop - (done + min step (stop - done))) (fun k => src (done + k))
        rw [show min step (stop - done) + (stop - (done + min step (stop - done))) = stop - done
          by omega] at hput
        rw [← hput, Nat.add_assoc]
        simp only [Nat.add_assoc]
      · rw [if_neg hlt, show stop - done = 0 by omega, Vblk.put_zero]
        rfl

/-- Pieces that were all written lie on the device. -/
theorem writePieces_ok (hstep : 0 < step) {fuel done : Nat} {d d' : Vblk} {u : Unit}
    (hfuel : stop - done ≤ fuel) (h : writePieces abs step src code stop fuel done d = .ok u d') :
    d'.limit = d.limit ∧ (done < stop → abs + stop ≤ d.limit) := by
  induction fuel generalizing done d with
  | zero =>
      obtain ⟨-, rfl⟩ := pure_ok_iff.mp h
      exact ⟨rfl, fun hlt => absurd hlt (by omega)⟩
  | succ fuel ih =>
      unfold writePieces at h
      by_cases hlt : done < stop
      · rw [if_pos hlt] at h
        obtain ⟨_, d₁, hw, hrest⟩ := bind_ok_iff.mp h
        obtain ⟨hro, hlim, rfl⟩ := pwriteBytesAt_ok_iff.mp (orFail_ok_iff.mp hw)
        obtain ⟨hl, hend⟩ := ih (by omega) hrest
        have hl' : d'.limit = d.limit := hl
        have hend' : done + min step (stop - done) < stop → abs + stop ≤ d.limit := hend
        refine ⟨hl', fun _ => ?_⟩
        by_cases hmore : done + min step (stop - done) < stop
        · exact hend' hmore
        · omega
      · rw [if_neg hlt] at h
        obtain ⟨-, rfl⟩ := pure_ok_iff.mp h
        exact ⟨rfl, fun h' => absurd h' hlt⟩

end Pieces

/-! ## Runs -/

section Runs

variable {bs : Nat} {data : List UInt8}

/-- A run is one write: the data from `filePos` on, and zeros. -/
theorem writeRun_of_le {filePos start count : Nat} {d : Vblk} (hro : d.ro = false)
    (hlim : (start + count) * bs ≤ d.limit) :
    writeRun bs data filePos start count d
      = .ok () (d.put (start * bs) (count * bs) (fun k => Mem.ofList data (filePos + k))) := by
  rw [Nat.add_mul] at hlim
  unfold writeRun
  generalize hcap : count * bs = capacity at hlim ⊢
  generalize hact : min capacity (data.length - filePos) = actual
  have hdata : writePieces (start * bs) 67108864 (fun i => Mem.ofList data (filePos + i)) (-2)
      actual actual 0 d = .ok () (d.put (start * bs + 0) (actual - 0)
        (fun k => Mem.ofList data (filePos + (0 + k)))) :=
    writePieces_of_le (by omega) hro (by omega) (Nat.zero_le _) (Nat.sub_le _ _)
  simp only [Nat.add_zero, Nat.zero_add, Nat.sub_zero] at hdata
  rw [bind_of_ok hdata, writePieces_of_le (d := d.put (start * bs) actual _) (by omega) hro hlim
    (by omega) (le_refl _)]
  have hput := Vblk.put_put d (start * bs) actual (capacity - actual)
    (fun k => Mem.ofList data (filePos + k))
  rw [show actual + (capacity - actual) = capacity by omega] at hput
  rw [← hput]
  refine congrArg _ (Vblk.put_congr _ (fun k hk => ?_))
  -- behind the data there are only zeros
  rw [Mem.ofList_ge (by omega)]
  rfl

/-- A run that was written lies on the device. -/
theorem writeRun_ok {filePos start count : Nat} {d d' : Vblk} {u : Unit}
    (hpos : 0 < count * bs) (h : writeRun bs data filePos start count d = .ok u d') :
    d'.limit = d.limit ∧ (start + count) * bs ≤ d.limit := by
  unfold writeRun at h
  rw [Nat.add_mul]
  generalize hcap : count * bs = capacity at h hpos ⊢
  generalize hact : min capacity (data.length - filePos) = actual at h
  obtain ⟨_, d₁, h₁, h₂⟩ := bind_ok_iff.mp h
  obtain ⟨hl₁, he₁⟩ := writePieces_ok (by omega) (by omega) h₁
  obtain ⟨hl₂, he₂⟩ := writePieces_ok (by omega) (by omega) h₂
  refine ⟨by omega, ?_⟩
  by_cases htail : actual < capacity
  · have := he₂ htail
    omega
  · have := he₁ (by omega)
    omega

theorem NoWrap.tail {b : Nat} {blocks : List Nat} (h : NoWrap (b :: blocks)) : NoWrap blocks :=
  List.IsChain.tail h

/-- A run without a wrap, block by block, is one write. The induction is on the blocks; the
run goes on with the next one as long as it is the number that follows. -/
theorem writeBlocks_run {blocks : List Nat} :
    ∀ {b i : Nat} {d : Vblk}, (∀ x ∈ b :: blocks, x < uint32) → NoWrap (b :: blocks) → d.ro = false →
      (b + (runLength b blocks + 1)) * bs ≤ d.limit →
      writeBlocks bs data i (b :: blocks) d
        = writeBlocks bs data (i + runLength b blocks + 1) (blocks.drop (runLength b blocks))
          (d.put (b * bs) ((runLength b blocks + 1) * bs) (fun k => Mem.ofList data (i * bs + k))) := by
  induction blocks with
  | nil =>
      intro b i d _ _ hro hlim
      simp only [runLength, Nat.zero_add, Nat.one_mul] at hlim ⊢
      rw [Nat.add_mul, Nat.one_mul] at hlim
      unfold writeBlocks
      rw [bind_of_ok (pwriteBlock_of_le hro hlim)]
      rfl
  | cons c blocks ih =>
      intro b i d hlt hw hro hlim
      have hone : b * bs + bs ≤ d.limit := by
        calc b * bs + bs = (b + 1) * bs := by ring
          _ ≤ (b + (runLength b (c :: blocks) + 1)) * bs := Nat.mul_le_mul_right _ (by omega)
          _ ≤ d.limit := hlim
      rw [writeBlocks, bind_of_ok (pwriteBlock_of_le hro hone)]
      by_cases hc : c = (b + 1) % uint32
      · -- the run goes on; without a wrap its next block is `b + 1`
        have hnext : c = b + 1 := by
          have hpair : ¬ (b + 1 = uint32 ∧ c = 0) := (List.isChain_cons_cons.mp hw).1
          have hblt := hlt b (List.mem_cons_self ..)
          unfold uint32 at hpair hblt hc
          by_contra hne
          omega
        have hlen : runLength b (c :: blocks) = runLength c blocks + 1 := if_pos hc
        rw [hlen] at hlim ⊢
        have hput := Vblk.put_put d (b * bs) bs ((runLength c blocks + 1) * bs)
          (fun k => Mem.ofList data (i * bs + k))
        have hstart : b * bs + bs = c * bs := by
          rw [hnext]
          ring
        have hpos : ∀ k, i * bs + (bs + k) = (i + 1) * bs + k := by
          intro k
          ring
        rw [hstart] at hput
        simp only [hpos] at hput
        have hrun : (c + (runLength c blocks + 1)) * bs ≤ d.limit := by
          rw [show c + (runLength c blocks + 1) = b + (runLength c blocks + 1 + 1) by omega]
          exact hlim
        rw [ih (d := d.put (b * bs) bs _) (fun x hx => hlt x (List.mem_cons_of_mem _ hx)) hw.tail
          hro hrun, hput]
        rw [List.drop_succ_cons, show i + 1 + runLength c blocks + 1 = i + (runLength c blocks + 1) + 1
          by omega, show bs + (runLength c blocks + 1) * bs = (runLength c blocks + 1 + 1) * bs by ring]
      · have hlen : runLength b (c :: blocks) = 0 := if_neg hc
        rw [hlen, List.drop_zero, Nat.add_zero, Nat.zero_add, Nat.one_mul]

/-- A list of blocks that can be written one by one. -/
theorem writeBlocks_ok_iff {blocks : List Nat} {i : Nat} {d : Vblk} :
    (∃ d', writeBlocks bs data i blocks d = .ok () d') ↔
      blocks = [] ∨ d.ro = false ∧ ∀ b ∈ blocks, b * bs + bs ≤ d.limit := by
  induction blocks generalizing i d with
  | nil => exact ⟨fun _ => Or.inl rfl, fun _ => ⟨d, rfl⟩⟩
  | cons b blocks ih =>
      constructor
      · rintro ⟨d', h⟩
        obtain ⟨_, d₁, hw, hrest⟩ := bind_ok_iff.mp h
        obtain ⟨hro, hlim, rfl⟩ := pwriteBytesAt_ok_iff.mp hw
        refine Or.inr ⟨hro, fun c hc => ?_⟩
        rcases List.mem_cons.mp hc with rfl | hc
        · exact hlim
        · rcases ih.mp ⟨d', hrest⟩ with rfl | ⟨-, hall⟩
          · exact absurd hc (List.not_mem_nil)
          · exact hall c hc
      · rintro (h | ⟨hro, hall⟩)
        · cases h
        · obtain ⟨d', h'⟩ := ih (i := i + 1) (d := d.put (b * bs) bs (fun k => Mem.ofList data (i * bs + k)))
            |>.mpr (Or.inr ⟨hro, fun c hc => hall c (List.mem_cons_of_mem _ hc)⟩)
          refine ⟨d', ?_⟩
          rw [writeBlocks, bind_of_ok (pwriteBlock_of_le hro (hall b (List.mem_cons_self ..)))]
          exact h'

/-- Writing block by block changes no byte outside the blocks. -/
theorem writeBlocks_frame {blocks : List Nat} {i : Nat} {d d' : Vblk} {u : Unit}
    (h : writeBlocks bs data i blocks d = .ok u d') {off : Nat}
    (hoff : ∀ b ∈ blocks, off < b * bs ∨ b * bs + bs ≤ off) : d'.bytes off = d.bytes off := by
  induction blocks generalizing i d with
  | nil =>
      obtain ⟨-, rfl⟩ := pure_ok_iff.mp h
      rfl
  | cons b blocks ih =>
      obtain ⟨_, d₁, hw, hrest⟩ := bind_ok_iff.mp h
      obtain ⟨-, -, rfl⟩ := pwriteBytesAt_ok_iff.mp hw
      rw [ih hrest (fun c hc => hoff c (List.mem_cons_of_mem _ hc))]
      simp only [Vblk.put]
      rw [Mem.write_out (hoff b (List.mem_cons_self ..))]

/-- The last block of a run without a wrap is a block of the list. -/
theorem run_end_mem {b : Nat} {blocks : List Nat} (hlt : ∀ x ∈ b :: blocks, x < uint32)
    (hw : NoWrap (b :: blocks)) : b + runLength b blocks ∈ b :: blocks := by
  induction blocks generalizing b with
  | nil => exact List.mem_cons_self ..
  | cons c blocks ih =>
      unfold runLength
      split
      · rename_i hc
        have hpair : ¬ (b + 1 = uint32 ∧ c = 0) := (List.isChain_cons_cons.mp hw).1
        have hblt := hlt b (List.mem_cons_self ..)
        have hnext : c = b + 1 := by
          unfold uint32 at hpair hblt hc
          by_contra hne
          omega
        have hmem := ih (fun x hx => hlt x (List.mem_cons_of_mem _ hx)) hw.tail
        rw [show b + (runLength c blocks + 1) = c + runLength c blocks by omega]
        exact List.mem_cons_of_mem _ hmem
      · exact List.mem_cons_self ..

theorem NoWrap.drop {blocks : List Nat} (h : NoWrap blocks) (n : Nat) : NoWrap (blocks.drop n) :=
  List.IsChain.drop h n

/-- Without a wrap the runs are the blocks one by one. -/
theorem writeRuns_eq {fuel : Nat} :
    ∀ {blocks : List Nat} {i : Nat} {d : Vblk}, blocks.length ≤ fuel → NoWrap blocks →
      (∀ x ∈ blocks, x < uint32) → d.ro = false → (∀ b ∈ blocks, b * bs + bs ≤ d.limit) →
      writeRuns bs data fuel i blocks d = writeBlocks bs data i blocks d := by
  induction fuel with
  | zero =>
      intro blocks i d hlen _ _ _ _
      rw [List.length_eq_zero_iff.mp (Nat.le_zero.mp hlen)]
      rfl
  | succ fuel ih =>
      intro blocks i d hlen hw hlt hro hlim
      cases blocks with
      | nil => rfl
      | cons b blocks =>
          have hend : (b + (runLength b blocks + 1)) * bs ≤ d.limit := by
            calc (b + (runLength b blocks + 1)) * bs = (b + runLength b blocks) * bs + bs := by ring
              _ ≤ d.limit := hlim _ (run_end_mem hlt hw)
          have hsub : ∀ x ∈ blocks.drop (runLength b blocks), x ∈ b :: blocks := fun x hx =>
            List.mem_cons_of_mem _ (List.mem_of_mem_drop hx)
          have hfuel : (blocks.drop (runLength b blocks)).length ≤ fuel := by
            rw [List.length_drop]
            rw [List.length_cons] at hlen
            omega
          rw [writeBlocks_run hlt hw hro hend, writeRuns, bind_of_ok (writeRun_of_le hro hend)]
          exact ih hfuel (hw.tail.drop _) (fun x hx => hlt x (hsub x hx)) hro
            (fun x hx => hlim x (hsub x hx))

/-- A run that stays below block `4294967296` has no wrap in it. -/
theorem noWrap_of_run {b : Nat} {blocks : List Nat} (h : b + (runLength b blocks + 1) ≤ uint32)
    (hrest : NoWrap (blocks.drop (runLength b blocks))) : NoWrap (b :: blocks) := by
  induction blocks generalizing b with
  | nil => exact List.IsChain.singleton _
  | cons c blocks ih =>
      by_cases hc : c = (b + 1) % uint32
      · have hlen : runLength b (c :: blocks) = runLength c blocks + 1 := if_pos hc
        rw [hlen] at h hrest
        have hnext : c = b + 1 := by
          rw [hc, Nat.mod_eq_of_lt (by omega)]
        refine List.isChain_cons_cons.mpr ⟨fun hpair => ?_, ih (by omega) hrest⟩
        omega
      · have hlen : runLength b (c :: blocks) = 0 := if_neg hc
        rw [hlen, List.drop_zero] at hrest
        refine List.isChain_cons_cons.mpr ⟨fun hpair => hc ?_, hrest⟩
        rw [hpair.1, hpair.2, Nat.mod_self]

/-- Runs that were all written to a device of `4294967296` blocks have no wrap. -/
theorem noWrap_of_writeRuns (hbs : 0 < bs) {fuel : Nat} :
    ∀ {blocks : List Nat} {i : Nat} {d d' : Vblk} {u : Unit}, blocks.length ≤ fuel →
      d.limit = uint32 * bs → writeRuns bs data fuel i blocks d = .ok u d' → NoWrap blocks := by
  induction fuel with
  | zero =>
      intro blocks i d d' u hlen _ _
      rw [List.length_eq_zero_iff.mp (Nat.le_zero.mp hlen)]
      exact List.IsChain.nil
  | succ fuel ih =>
      intro blocks i d d' u hlen hlim h
      cases blocks with
      | nil => exact List.IsChain.nil
      | cons b blocks =>
          obtain ⟨_, d₁, hrun, hrest⟩ := bind_ok_iff.mp h
          obtain ⟨hl, hend⟩ := writeRun_ok (Nat.mul_pos (Nat.succ_pos _) hbs) hrun
          rw [hlim] at hend hl
          have hfuel : (blocks.drop (runLength b blocks)).length ≤ fuel := by
            rw [List.length_drop]
            rw [List.length_cons] at hlen
            omega
          exact noWrap_of_run (Nat.le_of_mul_le_mul_right hend hbs) (ih hfuel hl hrest)

end Runs

/-! ## Runs and blocks agree -/

/-- On every device on which the blocks can be written one by one, the runs leave the same
device, and no byte outside the blocks has changed. -/
def RunsAgree (m : Ext2Meta) (data : List UInt8) (blocks : List Nat) : Prop :=
  ∀ d d', writeBlocks m.blockSize data 0 blocks d = .ok () d' →
    ext2WriteDataRuns m data blocks d = .ok () d' ∧
      ∀ off, (∀ b ∈ blocks, off < b * m.blockSize ∨ b * m.blockSize + m.blockSize ≤ off) →
        d'.bytes off = d.bytes off

/-- Where the runs agree with the blocks there is no wrap: on a device with every block that
has a number, and none behind them, a run with a wrap cannot be written. -/
theorem noWrap_of_runsAgree {m : Ext2Meta} {data : List UInt8} {blocks : List Nat}
    (hpos : 0 < m.blockSize) (hblocks : ∀ b ∈ blocks, b < uint32) (h : RunsAgree m data blocks) :
    NoWrap blocks := by
  let d : Vblk := ⟨uint32 * m.blockSize, false, Mem.zero, fun _ => 0⟩
  have hfit : ∀ b ∈ blocks, b * m.blockSize + m.blockSize ≤ d.limit := by
    intro b hb
    calc b * m.blockSize + m.blockSize = (b + 1) * m.blockSize := by ring
      _ ≤ uint32 * m.blockSize := Nat.mul_le_mul_right _ (hblocks b hb)
  have hplain : ∃ d', writeBlocks m.blockSize data 0 blocks d = .ok () d' :=
    writeBlocks_ok_iff.mpr (Or.inr ⟨rfl, hfit⟩)
  obtain ⟨d', hd'⟩ := hplain
  exact noWrap_of_writeRuns hpos (le_refl _) rfl (h d d' hd').1

/-- The runs are the blocks one by one exactly when no run goes on behind the last block
number. -/
theorem runsAgree_iff_noWrap {m : Ext2Meta} {data : List UInt8} {blocks : List Nat}
    (hbs : m.blockSize = 1024 ∨ m.blockSize = 2048 ∨ m.blockSize = 4096)
    (hblocks : ∀ b ∈ blocks, b < uint32) : RunsAgree m data blocks ↔ NoWrap blocks := by
  have hpos : 0 < m.blockSize := by omega
  constructor
  · exact noWrap_of_runsAgree hpos hblocks
  · intro hw d d' hd'
    refine ⟨?_, fun off hoff => writeBlocks_frame hd' hoff⟩
    rcases writeBlocks_ok_iff.mp ⟨d', hd'⟩ with rfl | ⟨hro, hlim⟩
    · exact hd'
    · rw [← hd']
      exact writeRuns_eq (le_refl _) hw hblocks hro hlim

/-- Metadata with blocks of 1 KiB. -/
def kibMeta : Ext2Meta := ⟨Mem.zero, fun _ => Mem.zero, 1, 1024, 2, 1⟩

/-- Two runs, the second with a short last block. -/
theorem runsAgree_two_runs : RunsAgree kibMeta (List.replicate 2500 1) [7, 3, 4] :=
  (runsAgree_iff_noWrap (Or.inl rfl) (by decide)).mpr (by unfold NoWrap uint32; decide)

/-- Block `0` directly after block `4294967295`. -/
theorem runs_do_not_agree_behind_last_block :
    [4294967295, 0].Nodup ∧ (∀ b ∈ [4294967295, 0], b < uint32) ∧
      (2 - 1) * 1024 < (List.replicate 2048 (1 : UInt8)).length ∧
      (List.replicate 2048 (1 : UInt8)).length ≤ 2 * 1024 ∧
      ¬ RunsAgree kibMeta (List.replicate 2048 1) [4294967295, 0] := by
  have hblocks : ∀ b ∈ [4294967295, 0], b < uint32 := by decide
  refine ⟨by decide, hblocks, ?_, ?_, fun h => ?_⟩
  · rw [List.length_replicate]
    omega
  · rw [List.length_replicate]
  · have hw := noWrap_of_runsAgree (by decide) hblocks h
    exact (List.isChain_cons_cons.mp hw).1 ⟨rfl, rfl⟩

end Guppy.Ext2
