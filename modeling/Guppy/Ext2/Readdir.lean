import Guppy.Ext2.FsckDirs
import Guppy.Ext2.Getdents

set_option autoImplicit false

/-! # Reading a directory

`vfs_readdir` of `src/gu_dirent.c` decodes what `d_getdents64` has written, one record a call,
and asks for the next batch when the buffer is used up. Read to its end, a directory that the
checker accepts gives its live entries in order (`readdir_lists`), as long as its blocks are
direct and its names are names: not empty, and without a NUL.
-/

namespace Guppy.Ext2

open Prog Vfs

/-! ## `vfs_readdir` -/

/-- `struct dirent`. -/
structure DirEntry where
  ino : Nat
  type : Nat
  name : Text
deriving DecidableEq

/-- The record at offset `off` of the buffer, and the offset of the next one. -/
def parseDirent (buf : List UInt8) (off : Nat) : Option (DirEntry × Nat) :=
  if buf.length - off < 24 then none
  else
    let p := Mem.ofList (buf.drop off)
    let reclen := p.rd16 16
    if reclen < 24 ∨ buf.length < off + reclen then none
    else
      some (⟨p.rd64 0, (p 18).toNat, ((p.toList 19 (reclen - 19)).takeWhile (· ≠ 0)).take 255⟩,
        off + reclen)

/-- `DIR`: the offset in the buffer, its bytes, the position of the file, and the sizes of the
batches to come. The source has 4096 for all of them. -/
structure Dir where
  off : Nat
  buf : List UInt8
  pos : Nat
  sizes : Nat → Nat

/-- What `vfs_readdir` returns. It returns NULL both at the end and after an error. -/
inductive Readdir where
  | entry (e : DirEntry) (dir : Dir)
  | done
  | failed

/-- The next record of the buffer. -/
def Dir.next (dir : Dir) : Readdir :=
  match parseDirent dir.buf dir.off with
  | none => .failed
  | some (e, off) => .entry e { dir with off := off }

/-- `vfs_readdir`, with `refill`. -/
def vfsReaddir (d : Vblk) (ino : Nat) (dir : Dir) : Readdir :=
  if dir.buf.length ≤ dir.off then
    match dGetdents64 d ino (dir.sizes 0) dir.pos with
    | (none, _) => .failed
    | (some buf, pos) =>
        if buf = [] then .done else Dir.next ⟨0, buf, pos, fun i => dir.sizes (i + 1)⟩
  else dir.next

/-- Call `vfs_readdir` until there is nothing more. Nothing when a call fails or the fuel is
used up. -/
def readAll (d : Vblk) (ino : Nat) : (fuel : Nat) → Dir → Option (List DirEntry)
  | 0, _ => none
  | fuel + 1, dir =>
      match vfsReaddir d ino dir with
      | .failed => none
      | .done => some []
      | .entry e dir => (readAll d ino fuel dir).map (e :: ·)

/-! ## Records in the buffer -/

theorem length_direntBytes (ino next fileType : Nat) (name : Text) :
    (direntBytes ino next fileType name).length = reclen64 name.length := Mem.length_toList ..

theorem ofList_toList_append {p : Mem} {n i : Nat} (rest : List UInt8) (hi : i < n) :
    Mem.ofList (p.toList 0 n ++ rest) i = p i := by
  have hlen : (p.toList 0 n).length = n := Mem.length_toList ..
  rw [Mem.ofList_lt (by rw [List.length_append, hlen]; omega), List.getElem_append_left (by omega),
    Mem.getElem_toList, Nat.zero_add]

/-- What `vfs_readdir` makes of a record: the name ends at the first NUL. -/
def entryOf (x : Nat × DirRec) : DirEntry :=
  ⟨x.2.ino, ext2FtToVfs x.2.fileType, x.2.name.takeWhile (· ≠ 0)⟩

theorem ext2FtToVfs_lt (t : Nat) : ext2FtToVfs t < 256 := by
  unfold ext2FtToVfs
  split <;> omega

/-- A record that was written is read back. -/
theorem parseDirent_encode {pre rest : List UInt8} {x : Nat × DirRec} (hino : x.2.ino < 4294967296)
    (hname : x.2.name.length < 256) :
    parseDirent (pre ++ (encode x ++ rest)) pre.length =
      some (entryOf x, pre.length + (encode x).length) := by
  obtain ⟨next, r⟩ := x
  dsimp only [] at hino hname
  have hlen : (encode (next, r)).length = reclen64 r.name.length := length_direntBytes ..
  have hre : 24 ≤ reclen64 r.name.length ∧ reclen64 r.name.length < 65536 ∧
      20 + r.name.length ≤ reclen64 r.name.length := by
    unfold reclen64
    omega
  -- below the length of the record, the buffer is the memory that was written
  generalize hp : ((((Mem.zero.wr64 0 r.ino).wr64 8 next).wr16 16 (reclen64 r.name.length)).wr8 18
    (ext2FtToVfs r.fileType)).write 19 r.name.length (Mem.ofList r.name) = p
  have henc : encode (next, r) = p.toList 0 (reclen64 r.name.length) := by
    rw [← hp]
    rfl
  have hbyte : ∀ i, i < reclen64 r.name.length → Mem.ofList (encode (next, r) ++ rest) i = p i := by
    intro i hi
    rw [henc]
    exact ofList_toList_append rest hi
  have hrd16 : (Mem.ofList (encode (next, r) ++ rest)).rd16 16 = reclen64 r.name.length := by
    rw [Mem.rd16_congr (fun i hi => hbyte (16 + i) (by omega)), ← hp, Mem.rd16_write_out (by omega),
      Mem.wr8, Mem.rd16_write_out (by omega), Mem.rd16_wr16_self, Nat.mod_eq_of_lt hre.2.1]
  have hrd64 : (Mem.ofList (encode (next, r) ++ rest)).rd64 0 = r.ino := by
    rw [Mem.rd64_congr (fun i hi => hbyte (0 + i) (by omega)), ← hp, Mem.rd64_write_out (by omega),
      Mem.wr8, Mem.rd64_write_out (by omega), Mem.wr16, Mem.rd64_write_out (by omega), Mem.wr64,
      Mem.rd64_write_out (by omega), Mem.rd64_wr64_self, Nat.mod_eq_of_lt (by omega)]
  have htype : (Mem.ofList (encode (next, r) ++ rest) 18).toNat = ext2FtToVfs r.fileType := by
    have hlt := ext2FtToVfs_lt r.fileType
    rw [hbyte 18 (by omega), ← hp, Mem.write_out (by omega), Mem.wr8, Mem.write_in (by omega) (by omega),
      Nat.sub_self, Mem.le_toNat, pow_zero, Nat.div_one, Nat.mod_eq_of_lt hlt]
  have hzero : ∀ i, 19 + r.name.length ≤ i → p i = 0 := by
    intro i hi
    rw [← hp, Mem.write_out (by omega), Mem.wr8, Mem.write_out (by omega), Mem.wr16,
      Mem.write_out (by omega), Mem.wr64, Mem.write_out (by omega), Mem.wr64, Mem.write_out (by omega)]
    rfl
  have hnm : ((Mem.ofList (encode (next, r) ++ rest)).toList 19 (reclen64 r.name.length - 19)).takeWhile
      (· ≠ 0) = r.name.takeWhile (· ≠ 0) := by
    rw [Mem.toList_congr (fun i hi => hbyte (19 + i) (by omega)),
      show reclen64 r.name.length - 19 = r.name.length + (reclen64 r.name.length - 20 - r.name.length + 1)
        by omega, Mem.toList_append]
    have h₁ : p.toList 19 r.name.length = r.name := by
      rw [← hp]
      refine (@Mem.toList_congr _ (Mem.ofList r.name) 19 0 r.name.length (fun i hi => ?_)).trans
        (Mem.toList_ofList r.name)
      rw [Mem.write_in (by omega) (by omega), Nat.add_sub_cancel_left, Nat.zero_add]
    have h₂ : p.toList (19 + r.name.length) (reclen64 r.name.length - 20 - r.name.length + 1)
        = 0 :: p.toList (19 + r.name.length + 1) (reclen64 r.name.length - 20 - r.name.length) := by
      rw [Nat.add_comm _ 1, Mem.toList_append]
      show [p (19 + r.name.length)] ++ _ = _
      rw [hzero _ (le_refl _)]
      rfl
    rw [h₁, h₂, List.takeWhile_append]
    split
    · rename_i hall
      rw [List.takeWhile_cons_of_neg (by simp), List.append_nil]
      exact (List.takeWhile_sublist _).eq_of_length hall |>.symm
    · rfl
  unfold parseDirent
  dsimp only []
  rw [List.drop_left, hrd16, hrd64, htype, hnm, if_neg, if_neg, List.take_of_length_le, hlen]
  · rfl
  · exact le_trans (List.takeWhile_sublist _).length_le (by omega)
  · rw [List.length_append, List.length_append, hlen]
    omega
  · rw [List.length_append, List.length_append, hlen]
    omega

/-! ## Batches -/

/-- The lengths that are left when a buffer of `bytes` bytes has taken what fits. -/
def dropFit : Nat → List Nat → List Nat
  | _, [] => []
  | bytes, k :: ks => if k ≤ bytes then dropFit (bytes - k) ks else k :: ks

/-- The lengths that are left after `n` batches. -/
def remaining (sizes : Nat → Nat) (ks : List Nat) : Nat → List Nat
  | 0 => ks
  | n + 1 => dropFit (sizes n) (remaining sizes ks n)

/-- Every batch has a buffer, with room for the record that is next. -/
def Adequate (sizes : Nat → Nat) (ks : List Nat) : Prop :=
  ∀ n, 0 < sizes n ∧ ∀ k ∈ (remaining sizes ks n).head?, k ≤ sizes n

theorem remaining_shift (sizes : Nat → Nat) (ks : List Nat) (n : Nat) :
    remaining (fun i => sizes (i + 1)) (dropFit (sizes 0) ks) n = remaining sizes ks (n + 1) := by
  induction n with
  | zero => rfl
  | succ n ih =>
      rw [remaining, ih]
      rfl

theorem Adequate.shift {sizes : Nat → Nat} {ks : List Nat} (h : Adequate sizes ks) :
    Adequate (fun i => sizes (i + 1)) (dropFit (sizes 0) ks) := by
  intro n
  rw [remaining_shift]
  exact h (n + 1)

/-- The lengths of the records that a call writes. -/
def lengths (l : List (Nat × DirRec)) : List Nat :=
  (l.filter (·.2.listed)).map (fun x => (encode x).length)

def encodeAll (l : List (Nat × DirRec)) : List UInt8 := (l.filter (·.2.listed)).flatMap encode

/-- Records that lie behind the position are passed over. -/
theorem fill_skip {bytes pos : Nat} {out : List UInt8} {l l' : List (Nat × DirRec)}
    (h : ∀ x ∈ l, x.1 ≤ pos) : fill bytes (l ++ l') pos out = fill bytes l' pos out := by
  induction l with
  | nil => rfl
  | cons x l ih =>
      rw [List.cons_append, fill, if_pos (h x (List.mem_cons_self ..))]
      exact ih (fun y hy => h y (List.mem_cons_of_mem _ hy))

/-- What a call writes is a first part of the records; the others are those whose lengths are
left. -/
theorem fill_split {bytes : Nat} (l : List (Nat × DirRec)) {pos : Nat} {out : List UInt8}
    (hsorted : (l.map Prod.fst).Pairwise (· < ·)) (hpos : ∀ x ∈ l, pos < x.1) (hout : out.length ≤ bytes) :
    ∃ c l', l = c ++ l' ∧
      (fill bytes l pos out).1.2 = out ++ encodeAll c ∧
      (∀ x ∈ c, x.1 ≤ (fill bytes l pos out).1.1) ∧ (∀ x ∈ l', (fill bytes l pos out).1.1 < x.1) ∧
      pos ≤ (fill bytes l pos out).1.1 ∧ dropFit (bytes - out.length) (lengths l) = lengths l' := by
  induction l generalizing pos out with
  | nil => exact ⟨[], [], rfl, by simp [fill, encodeAll], by simp, by simp, le_refl _, rfl⟩
  | cons x l ih =>
      rw [List.map_cons, List.pairwise_cons] at hsorted
      have hx := hpos x (List.mem_cons_self ..)
      have hrest : ∀ y ∈ l, x.1 < y.1 := fun y hy => hsorted.1 y.1 (List.mem_map_of_mem hy)
      rw [fill, if_neg (by omega)]
      by_cases hl : x.2.listed = true
      · have hlens : lengths (x :: l) = (encode x).length :: lengths l := by
          unfold lengths
          rw [List.filter_cons_of_pos (by simpa using hl), List.map_cons]
        have henc : ∀ c, encodeAll (x :: c) = encode x ++ encodeAll c := by
          intro c
          unfold encodeAll
          rw [List.filter_cons_of_pos (by simpa using hl), List.flatMap_cons]
        rw [if_pos hl]
        by_cases hfull : bytes < out.length + (encode x).length
        · rw [if_pos hfull]
          refine ⟨[], x :: l, rfl, by simp [encodeAll], by simp, hpos, le_refl _, ?_⟩
          rw [hlens, dropFit, if_neg (by omega)]
        · rw [if_neg hfull]
          obtain ⟨c, l', rfl, hwritten, hc, hl', hle, hdrop⟩ := @ih x.1 (out ++ encode x) hsorted.2 hrest
            (by rw [List.length_append]; omega)
          refine ⟨x :: c, l', rfl, ?_, ?_, hl', by omega, ?_⟩
          · rw [hwritten, henc, List.append_assoc]
          · intro y hy
            rcases List.mem_cons.mp hy with rfl | hy
            · exact hle
            · exact hc y hy
          · rw [hlens, dropFit, if_pos (by omega), ← hdrop, List.length_append, Nat.sub_add_eq]
      · have hlens : lengths (x :: l) = lengths l := by
          unfold lengths
          rw [List.filter_cons_of_neg (by simpa using hl)]
        have henc : ∀ c, encodeAll (x :: c) = encodeAll c := by
          intro c
          unfold encodeAll
          rw [List.filter_cons_of_neg (by simpa using hl)]
        rw [if_neg hl]
        obtain ⟨c, l', rfl, hwritten, hc, hl', hle, hdrop⟩ := ih hsorted.2 hrest hout
        refine ⟨x :: c, l', rfl, ?_, ?_, hl', by omega, ?_⟩
        · rw [hwritten, henc]
        · intro y hy
          rcases List.mem_cons.mp hy with rfl | hy
          · exact hle
          · exact hc y hy
        · rw [hlens, hdrop]

/-! ## Reading to the end -/

section Run

variable {d : Vblk} {ino : Nat} {di : Inode} {lo : DiskLayout} {recs : Nat → List DirRec}

/-- The entries that a directory shows. -/
def entriesOf (l : List (Nat × DirRec)) : List DirEntry := (l.filter (·.2.listed)).map entryOf

/-- Records in the buffer are read one after the other. -/
theorem readAll_buffer {pos fuel : Nat} {sizes : Nat → Nat} (xs : List (Nat × DirRec)) :
    ∀ (pre : List UInt8), (∀ x ∈ xs, x.2.ino < 4294967296 ∧ x.2.name.length < 256) →
      readAll d ino (xs.length + fuel) ⟨pre.length, pre ++ xs.flatMap encode, pos, sizes⟩ =
        (readAll d ino fuel ⟨(pre ++ xs.flatMap encode).length, pre ++ xs.flatMap encode, pos, sizes⟩).map
          (xs.map entryOf ++ ·) := by
  induction xs with
  | nil =>
      intro pre _
      rw [List.flatMap_nil, List.append_nil, List.length_nil, Nat.zero_add]
      simp
  | cons x xs ih =>
      intro pre hxs
      have hx := hxs x (List.mem_cons_self ..)
      have hlen : 0 < (encode x).length := by
        unfold encode
        rw [length_direntBytes, reclen64]
        omega
      rw [List.length_cons, Nat.add_right_comm, readAll, vfsReaddir, List.flatMap_cons]
      dsimp only []
      rw [if_neg (by simp only [List.length_append]; omega), Dir.next]
      dsimp only []
      rw [parseDirent_encode hx.1 hx.2]
      dsimp only []
      have hrest := ih (pre ++ encode x) (fun y hy => hxs y (List.mem_cons_of_mem _ hy))
      rw [List.append_assoc, List.length_append] at hrest
      rw [hrest, Option.map_map]
      rfl

theorem lengths_append (l l' : List (Nat × DirRec)) : lengths (l ++ l') = lengths l ++ lengths l' := by
  unfold lengths
  rw [List.filter_append, List.map_append]

/-- A buffer with room for the next record takes it. -/
theorem dropFit_ne {bytes : Nat} {ks : List Nat} (hne : ks ≠ []) (h : ∀ k ∈ ks.head?, k ≤ bytes) :
    dropFit bytes ks ≠ ks := by
  cases ks with
  | nil => exact absurd rfl hne
  | cons k ks =>
      have hle : ∀ (ks : List Nat) (b : Nat), (dropFit b ks).length ≤ ks.length := by
        intro ks
        induction ks with
        | nil => exact fun b => le_refl _
        | cons k ks ih =>
            intro b
            rw [dropFit]
            split
            · exact le_trans (ih _) (Nat.le_succ _)
            · exact le_refl _
      rw [dropFit, if_pos (h k rfl)]
      intro heq
      have := congrArg List.length heq
      have := hle ks (bytes - k)
      rw [List.length_cons] at *
      omega

/-- A new batch is read like the buffer that it fills. -/
theorem readAll_refill {dir : Dir} {buf : List UInt8} {pos fuel : Nat} (hoff : dir.buf.length ≤ dir.off)
    (hcall : dGetdents64 d ino (dir.sizes 0) dir.pos = (some buf, pos)) (hne : buf ≠ []) :
    readAll d ino (fuel + 1) dir = readAll d ino (fuel + 1) ⟨0, buf, pos, fun i => dir.sizes (i + 1)⟩ := by
  have hlen : ¬ buf.length ≤ 0 := by
    have := List.length_pos_iff.mpr hne
    omega
  rw [readAll, readAll, vfsReaddir, vfsReaddir, if_pos hoff, hcall]
  dsimp only []
  rw [if_neg hne, if_neg hlen]

/-- Reading a directory to its end, from where some of its records have been read. -/
theorem readAll_rest (hlay : ext2ReadLayout d = some lo) (hino : ext2ReadInodeDisk d lo ino = some di)
    (h : TiledDir d lo.blockSize di recs)
    (hsmall : ∀ x ∈ dirRecords lo.blockSize di recs, x.2.ino < 4294967296 ∧ x.2.name.length < 256)
    (n : Nat) : ∀ {l l' : List (Nat × DirRec)} {pos : Nat} {sizes : Nat → Nat} {buf : List UInt8},
      dirRecords lo.blockSize di recs = l ++ l' → (∀ x ∈ l, x.1 ≤ pos) → (∀ x ∈ l', pos < x.1) →
      Adequate sizes (lengths l') → (lengths l').length = n →
      ∃ fuel, readAll d ino fuel ⟨buf.length, buf, pos, sizes⟩ = some (entriesOf l') := by
  have hsorted := (dirRecords_sorted h).1
  induction n using Nat.strong_induction_on with
  | _ n ih =>
      intro l l' pos sizes buf hsplit hl hl' had hn
      have hsize := had 0
      have hcall := @dGetdents64_eq d (sizes 0) di recs lo ino pos hlay hino h (by omega)
      rw [hsplit, fill_skip hl] at hcall
      rw [hsplit, List.map_append, List.pairwise_append] at hsorted
      obtain ⟨c, l'', rfl, hwritten, hc, hl'', hle, hdrop⟩ :=
        @fill_split (sizes 0) l' pos [] hsorted.2.1 hl' (Nat.zero_le _)
      rw [hwritten, List.nil_append] at hcall
      generalize (fill (sizes 0) (c ++ l'') pos []).1.1 = pos' at hcall hc hl'' hle
      rw [List.length_nil, Nat.sub_zero] at hdrop
      by_cases hnone : c.filter (·.2.listed) = []
      · -- nothing was written, so nothing is left
        have hlens : lengths (c ++ l'') = lengths l'' := by
          rw [lengths_append]
          unfold lengths
          rw [hnone]
          rfl
        have hnil : lengths (c ++ l'') = [] := by
          by_contra hne
          exact dropFit_ne hne hsize.2 (hdrop.trans hlens.symm)
        have hempty : (c ++ l'').filter (·.2.listed) = [] := List.map_eq_nil_iff.mp hnil
        refine ⟨1, ?_⟩
        rw [readAll, vfsReaddir, if_pos (le_refl _)]
        dsimp only []
        rw [hcall, encodeAll, hnone, List.flatMap_nil]
        dsimp only []
        rw [if_pos rfl, entriesOf, hempty]
        rfl
      · have hcall : dGetdents64 d ino (sizes 0) pos
            = (some ((c.filter (·.2.listed)).flatMap encode), pos') := hcall
        have hmem : ∀ x ∈ c.filter (·.2.listed), x.2.ino < 4294967296 ∧ x.2.name.length < 256 := by
          intro x hx
          refine hsmall x ?_
          rw [hsplit]
          exact List.mem_append_right _ (List.mem_append_left _ (List.mem_of_mem_filter hx))
        have hbuf : (c.filter (·.2.listed)).flatMap encode ≠ [] := by
          obtain ⟨x, xs, hxs⟩ := List.exists_cons_of_ne_nil hnone
          rw [hxs, List.flatMap_cons]
          intro hnil
          have := congrArg List.length (List.append_eq_nil_iff.mp hnil).1
          unfold encode at this
          rw [length_direntBytes, reclen64, List.length_nil] at this
          omega
        have hfewer : (lengths l'').length < n := by
          rw [← hn, lengths_append, List.length_append]
          have := List.length_pos_iff.mpr hnone
          unfold lengths
          rw [List.length_map, List.length_map]
          omega
        obtain ⟨fuel, hfuel⟩ := @ih _ hfewer (l ++ c) l'' pos' (fun i => sizes (i + 1))
          ((c.filter (·.2.listed)).flatMap encode) (by rw [hsplit, List.append_assoc])
          (fun x hx => (List.mem_append.mp hx).elim (fun hx => le_trans (hl x hx) hle) (hc x)) hl''
          (hdrop ▸ had.shift) rfl
        refine ⟨(c.filter (·.2.listed)).length + fuel, ?_⟩
        obtain ⟨k, hk⟩ : ∃ k, (c.filter (·.2.listed)).length + fuel = k + 1 := by
          have := List.length_pos_iff.mpr hnone
          exact ⟨(c.filter (·.2.listed)).length + fuel - 1, by omega⟩
        rw [hk, readAll_refill (le_refl _) hcall hbuf, ← hk]
        have hread := @readAll_buffer d ino pos' fuel (fun i => sizes (i + 1)) (c.filter (·.2.listed)) [] hmem
        rw [List.nil_append, List.length_nil] at hread
        rw [hread, hfuel, entriesOf, entriesOf, List.filter_append, List.map_append]
        rfl

end Run

/-! ## Directories that the checker accepts -/

/-- Direct block `j` of a directory; a hole has zeros. -/
def dirBlk (d : Vblk) (bs : Nat) (di : Inode) (j : Nat) : Mem :=
  if di.iBlock j = 0 then Mem.zero else d.bytes.slice (di.iBlock j * bs) bs

def blockRecs (d : Vblk) (bs : Nat) (di : Inode) (j : Nat) : List DirRec :=
  (positions bs (dirBlk d bs di j)).map (recAt (dirBlk d bs di j))

/-- The live entries of a directory, in the order on the disk. -/
def liveRecords (d : Vblk) (bs : Nat) (di : Inode) : List DirRec :=
  ((List.range 12).flatMap (fun j =>
    ((positions bs (dirBlk d bs di j)).filter (fun pos => j * bs + pos < di.iSize)).map
      (recAt (dirBlk d bs di j)))).filter (fun r => r.ino ≠ 0)

/-- The `VFS_DT_*` constant for a file type of ext2. -/
def vfsType : Nat → Nat
  | 1 => 8
  | 2 => 4
  | 3 => 2
  | 4 => 6
  | 5 => 1
  | 6 => 12
  | 7 => 10
  | _ => 0

/-- The entry shows the record: inode number, name and, unless it is a FIFO or a socket, the
type. -/
structure Shows (e : DirEntry) (r : DirRec) : Prop where
  ino : e.ino = r.ino
  name : e.name = r.name
  type : r.fileType ≠ 5 → r.fileType ≠ 6 → e.type = vfsType r.fileType

/-- A directory that the checker has accepted and that the driver has open: inode `ino` is in
use, and `di` is what both of them read for it. -/
structure AcceptedDir (d : Vblk) (lo : DiskLayout) (ino : Nat) (di : Inode) : Prop where
  fsck : ext2FsckPhase1 d = 0
  layout : ext2ReadLayout d = some lo
  inode : ext2ReadInodeDisk d lo ino = some di
  dir : ifmt di.iMode = sIfdir
  examined : ∃ g i, Examined d (fsckGeometry (d.bytes.slice 1024 1024)) g i ∧
    ino = g * (fsckGeometry (d.bytes.slice 1024 1024)).ipg + i + 1 ∧
    ∀ k, k < 128 → (fsckGeometry (d.bytes.slice 1024 1024)).inodeOf d g i k = di k

/-- The directory has direct blocks up to its size, and its live names are names. -/
structure PlainDir (d : Vblk) (bs : Nat) (di : Inode) : Prop where
  direct : ∀ j, j * bs < di.iSize → j < 12 ∧ di.iBlock j ≠ 0
  names : ∀ r ∈ liveRecords d bs di, r.name ≠ [] ∧ 0 ∉ r.name

section Accepted

variable {d : Vblk} {lo : DiskLayout} {ino : Nat} {di : Inode}

theorem map_recAt_starts {blk : Mem} {pos stop : Nat} {rs : List DirRec} (h : Tiles blk pos rs stop) :
    (starts pos rs).map (recAt blk) = rs := by
  induction rs generalizing pos with
  | nil => rfl
  | cons r rs ih => rw [starts, List.map_cons, h.1, ih h.2.2]

theorem starts_ge {pos : Nat} {rs : List DirRec} : ∀ p ∈ starts pos rs, pos ≤ p := by
  induction rs generalizing pos with
  | nil => exact fun p hp => absurd hp List.not_mem_nil
  | cons r rs ih =>
      intro p hp
      rcases List.mem_cons.mp hp with rfl | hp
      · exact le_refl _
      · have := ih p hp
        omega

theorem located_snd {blk : Mem} {size base pos stop : Nat} {rs : List DirRec} (h : Tiles blk pos rs stop) :
    (located size (base + pos) rs).map Prod.snd =
      ((starts pos rs).filter (fun p => base + p < size)).map (recAt blk) := by
  induction rs generalizing pos with
  | nil => rfl
  | cons r rs ih =>
      rw [located, starts]
      by_cases hlt : base + pos < size
      · rw [if_pos hlt, List.filter_cons_of_pos (by simpa using hlt), List.map_cons, List.map_cons, h.1,
          Nat.add_assoc, ih h.2.2]
      · rw [if_neg hlt]
        have hnil : (pos :: starts (pos + r.recLen) rs).filter (fun p => base + p < size) = [] := by
          rw [List.filter_eq_nil_iff]
          intro p hp
          have : pos ≤ p := @starts_ge pos (r :: rs) p hp
          simp only [decide_eq_true_eq]
          omega
        rw [hnil]
        rfl

/-- What the checker knows about such a directory. -/
theorem AcceptedDir.tiled (h : AcceptedDir d lo ino di) (hplain : PlainDir d lo.blockSize di) :
    TiledDir d lo.blockSize di (blockRecs d lo.blockSize di) := by
  obtain ⟨g, i, hex, -, hsame⟩ := h.examined
  generalize hq : fsckGeometry (d.bytes.slice 1024 1024) = q at hex hsame
  have hbs : lo.blockSize = q.bs ∧ 0 < lo.blockSize := by
    have hlay := h.layout
    unfold ext2ReadLayout at hlay
    obtain ⟨sb, hsb, hlo⟩ := Option.bind_eq_some_iff.mp hlay
    dsimp only [] at hlo
    split at hlo
    · cases hlo
    · cases hlo
      have hread : readat d 1024 1024 = some sb := hsb
      rw [← hq, readat_some hread]
      refine ⟨rfl, ?_⟩
      show 0 < 1024 * 2 ^ _
      positivity
  have hmode : (q.inodeOf d g i).iMode = di.iMode :=
    Mem.rd16_congr (fun k hk => hsame (0 + k) (by omega))
  have hsz : (q.inodeOf d g i).iSize = di.iSize :=
    Mem.rd32_congr (fun k hk => hsame (4 + k) (by omega))
  have hblk : ∀ j, j < 12 → (q.inodeOf d g i).iBlock j = di.iBlock j :=
    fun j hj => Mem.rd32_congr (fun k hk => hsame _ (by omega))
  have hdir : ifmt (q.inodeOf d g i).iMode = sIfdir := by
    rw [hmode]
    exact h.dir
  have hacc := ext2FsckPhase1_accepted h.fsck
  rw [hq] at hacc
  have hfsck : ∀ j, j < 12 → di.iBlock j ≠ 0 → di.iBlock j < q.blocks ∧
      (j * lo.blockSize < di.iSize →
        ∃ rs, Tiles (d.bytes.slice (di.iBlock j * lo.blockSize) lo.blockSize) 0 rs lo.blockSize) := by
    intro j hj hne
    have := ext2FsckPhase1_directory hq.symm h.fsck hex hdir hj (by rwa [hblk j hj])
    rwa [hblk j hj, hsz, ← hbs.1] at this
  refine ⟨hbs.2, ?_, hplain.direct, ?_⟩
  · intro j hj hne
    have hlt := (hfsck j hj hne).1
    have hlim := hacc.limit
    rw [← hbs.1] at hlim
    rw [← Nat.succ_mul]
    exact le_trans (Nat.mul_le_mul_right _ hlt) hlim
  · intro j hj
    obtain ⟨hj12, hne⟩ := hplain.direct j hj
    obtain ⟨rs, hrs⟩ := (hfsck j hj12 hne).2 hj
    have : blockRecs d lo.blockSize di j = rs := by
      unfold blockRecs dirBlk
      rw [if_neg hne, positions_of_tiles hrs hbs.2, map_recAt_starts hrs]
    rw [this]
    exact hrs

/-- The records that a call goes through are those of the directory. -/
theorem TiledDir.records {bs : Nat} (h : TiledDir d bs di (blockRecs d bs di)) :
    ((dirRecords bs di (blockRecs d bs di)).map Prod.snd).filter (fun r => r.ino ≠ 0)
      = liveRecords d bs di := by
  unfold dirRecords liveRecords
  rw [List.map_flatMap]
  congr 1
  refine List.flatMap_congr (fun j _ => ?_)
  by_cases hsize : j * bs < di.iSize
  · have hblk : d.bytes.slice (di.iBlock j * bs) bs = dirBlk d bs di j :=
      (if_neg (h.direct j hsize).2).symm
    have htiles := h.tiles j hsize
    rw [hblk] at htiles
    have hsnd := @located_snd _ di.iSize (j * bs) 0 bs _ htiles
    have hpos : positions bs (dirBlk d bs di j) = starts 0 (blockRecs d bs di j) :=
      positions_of_tiles htiles h.pos
    rw [hpos, recordsAt]
    rwa [Nat.add_zero] at hsnd
  · rw [recordsAt_of_le (by omega)]
    symm
    rw [List.map_nil, List.map_eq_nil_iff, List.filter_eq_nil_iff]
    intro p _
    simp only [decide_eq_true_eq]
    omega

theorem located_mem {size base : Nat} {rs : List DirRec} {x : Nat × DirRec}
    (hx : x ∈ located size base rs) : x.2 ∈ rs := by
  induction rs generalizing base with
  | nil => exact absurd hx List.not_mem_nil
  | cons r rs ih =>
      rw [located] at hx
      split at hx
      · rcases List.mem_cons.mp hx with rfl | hx
        · exact List.mem_cons_self ..
        · exact List.mem_cons_of_mem _ (ih hx)
      · exact absurd hx List.not_mem_nil

/-- Reading an accepted directory from its start until there is nothing more gives its live
entries, each once and in order, whatever the sizes of the batches. -/
theorem readdir_lists (h : AcceptedDir d lo ino di) (hplain : PlainDir d lo.blockSize di)
    (sizes : Nat → Nat)
    (hsizes : Adequate sizes ((liveRecords d lo.blockSize di).map (fun r => reclen64 r.name.length))) :
    ∃ fuel ents, readAll d ino fuel ⟨0, [], 0, sizes⟩ = some ents ∧
      List.Forall₂ Shows ents (liveRecords d lo.blockSize di) := by
  have htiled := h.tiled hplain
  have hlive := htiled.records
  generalize hl : dirRecords lo.blockSize di (blockRecs d lo.blockSize di) = l at hlive
  -- a live record has a name, so it is listed
  have hlisted : l.filter (·.2.listed) = l.filter (fun x => x.2.ino ≠ 0) := by
    refine List.filter_congr (fun x hx => ?_)
    unfold DirRec.listed
    by_cases hz : x.2.ino = 0
    · simp [hz]
    · have hname := (hplain.names x.2 (by
        rw [← hlive, List.mem_filter]
        exact ⟨List.mem_map_of_mem hx, by simpa using hz⟩)).1
      simp [hz, hname]
  have hmap : (l.filter (·.2.listed)).map Prod.snd = liveRecords d lo.blockSize di := by
    rw [hlisted, ← hlive, List.filter_map]
    rfl
  have hlens : lengths l = (liveRecords d lo.blockSize di).map (fun r => reclen64 r.name.length) := by
    unfold lengths
    rw [← hmap, List.map_map]
    exact List.map_congr_left (fun x _ => length_direntBytes ..)
  have hsmall : ∀ x ∈ l, x.2.ino < 4294967296 ∧ x.2.name.length < 256 := by
    intro x hx
    rw [← hl, dirRecords] at hx
    obtain ⟨j, -, hx⟩ := List.mem_flatMap.mp hx
    obtain ⟨p, -, hp⟩ := List.mem_map.mp (located_mem hx)
    rw [← hp]
    exact ⟨Mem.rd32_lt .., by rw [recAt_name_length]; exact UInt8.toNat_lt _⟩
  obtain ⟨fuel, hfuel⟩ := @readAll_rest d ino di lo (blockRecs d lo.blockSize di) h.layout h.inode htiled
    (hl.symm ▸ hsmall) _ [] l 0 sizes [] hl (fun x hx => absurd hx List.not_mem_nil)
    (hl ▸ (dirRecords_sorted htiled).2) (hlens.symm ▸ hsizes) rfl
  refine ⟨fuel, entriesOf l, hfuel, ?_⟩
  rw [← hmap, entriesOf, List.forall₂_map_left_iff, List.forall₂_map_right_iff, List.forall₂_same]
  intro x hx
  have hr : x.2 ∈ liveRecords d lo.blockSize di := hmap ▸ List.mem_map_of_mem hx
  refine ⟨rfl, ?_, ?_⟩
  · show x.2.name.takeWhile (· ≠ 0) = x.2.name
    rw [List.takeWhile_eq_self_iff]
    intro b hb
    have := (hplain.names x.2 hr).2
    simpa using fun h0 : b = 0 => this (h0 ▸ hb)
  · intro h₅ h₆
    show ext2FtToVfs x.2.fileType = vfsType x.2.fileType
    unfold ext2FtToVfs vfsType
    split
    all_goals first | rfl | (split <;> simp_all)

end Accepted

/-- Buffers with room for every record are adequate. -/
theorem adequate_const {size : Nat} {ks : List Nat} (hpos : 0 < size) (h : ∀ k ∈ ks, k ≤ size) :
    Adequate (fun _ => size) ks := by
  have hdrop : ∀ (ks : List Nat) (bytes k : Nat), k ∈ dropFit bytes ks → k ∈ ks := by
    intro ks
    induction ks with
    | nil => exact fun _ _ hk => hk
    | cons x ks ih =>
        intro bytes k hk
        rw [dropFit] at hk
        split at hk
        · exact List.mem_cons_of_mem _ (ih _ _ hk)
        · exact hk
  have hmem : ∀ n k, k ∈ remaining (fun _ => size) ks n → k ∈ ks := by
    intro n
    induction n with
    | zero => exact fun k hk => hk
    | succ n ih => exact fun k hk => ih k (hdrop _ _ k hk)
  intro n
  exact ⟨hpos, fun k hk => h k (hmem n k (List.mem_of_mem_head? hk))⟩

/-! ## Small directories -/

/-- Eight blocks of 1024 bytes with a root directory of `size` bytes, which has the block
pointers `first` and `second`, and in block 7 the entries `.`, `..` and `name`. -/
def flatFs (size first second : Nat) (name : Text) : Vblk :=
  { limit := 8192
    ro := false
    bytes := (((((((Mem.zero.write 1024 204 (((((((Mem.zero.wr32 0 16).wr32 4 8).wr32 16 5).wr32 20
      1).wr32 32 8192).wr32 40 16).wr16 56 0xEF53)).write 2048 32 ((((Mem.zero.wr32 0 3).wr32 4 4).wr32 8
      5).wr16 14 5)).wr16 3072 127).wr16 4096 2047).write 5248 128 (((((Mem.zero.wr16 0 0o40755).wr32 4
      size).wr16 26 2).wr32 40 first).wr32 44 second)).write 6400 128 emptyFile).write 7168 1024
      (dirBlock 2 2 11 1 name))
    clock := fun _ => 0 }

/-- The driver and the checker read the same directory for inode 2, with `p`. -/
def rootIs (d : Vblk) (p : Inode → Bool) : Bool :=
  ((ext2ReadLayout d).bind (fun lo => (ext2ReadInodeDisk d lo 2).map (fun di =>
    decide (lo.blockSize = 1024 ∧ ifmt di.iMode = sIfdir) && (List.range 128).all (fun k =>
      (fsckGeometry (d.bytes.slice 1024 1024)).inodeOf d 0 1 k = di k) && p di))) = some true

theorem acceptedRoot {d : Vblk} {p : Inode → Bool} (hfsck : ext2FsckPhase1 d = 0)
    (hex : Examined d (fsckGeometry (d.bytes.slice 1024 1024)) 0 1) (hroot : rootIs d p = true) :
    ∃ lo di, AcceptedDir d lo 2 di ∧ lo.blockSize = 1024 ∧ p di = true := by
  obtain ⟨lo, hlo, hroot⟩ := Option.bind_eq_some_iff.mp (of_decide_eq_true hroot)
  obtain ⟨di, hdi, hcheck⟩ := Option.map_eq_some_iff.mp hroot
  rw [Bool.and_eq_true, Bool.and_eq_true, decide_eq_true_eq, List.all_eq_true] at hcheck
  refine ⟨lo, di, ⟨hfsck, hlo, hdi, hcheck.1.1.2, 0, 1, hex, by rw [Nat.zero_mul], fun k hk => ?_⟩,
    hcheck.1.1.1, hcheck.2⟩
  exact of_decide_eq_true (hcheck.1.2 k (List.mem_range.mpr hk))

/-- The names that reading the root gives, in batches of 4096 bytes. -/
def rootRead (d : Vblk) : Option (List Text) :=
  (readAll d 2 8 ⟨0, [], 0, fun _ => 4096⟩).map (fun es => es.map (·.name))

/-- A root with one file. -/
theorem readdir_plain : ∃ lo di, AcceptedDir (flatFs 1024 7 0 [99]) lo 2 di ∧
    ∃ fuel ents, readAll (flatFs 1024 7 0 [99]) 2 fuel ⟨0, [], 0, fun _ => 4096⟩ = some ents ∧
      List.Forall₂ Shows ents (liveRecords (flatFs 1024 7 0 [99]) lo.blockSize di) := by
  obtain ⟨lo, di, hacc, hbs, hdi⟩ := @acceptedRoot (flatFs 1024 7 0 [99])
    (fun di => decide (di.iSize = 1024 ∧ di.iBlock 0 ≠ 0) &&
      (liveRecords (flatFs 1024 7 0 [99]) 1024 di).all (fun r =>
        decide (r.name ≠ [] ∧ 0 ∉ r.name ∧ r.name.length ≤ 255)))
    (by decide +kernel) ⟨by decide +kernel, by decide +kernel, by decide +kernel, by decide +kernel⟩
    (by decide +kernel)
  rw [Bool.and_eq_true, decide_eq_true_eq, List.all_eq_true] at hdi
  have hnames : ∀ r ∈ liveRecords (flatFs 1024 7 0 [99]) 1024 di,
      r.name ≠ [] ∧ 0 ∉ r.name ∧ r.name.length ≤ 255 := fun r hr => of_decide_eq_true (hdi.2 r hr)
  refine ⟨lo, di, hacc, readdir_lists hacc ⟨fun j hj => ?_, fun r hr => ?_⟩ _ ?_⟩
  · rw [hbs, hdi.1.1] at hj
    obtain rfl : j = 0 := by omega
    exact ⟨by omega, hdi.1.2⟩
  · rw [hbs] at hr
    exact ⟨(hnames r hr).1, (hnames r hr).2.1⟩
  · rw [hbs]
    refine adequate_const (by omega) (fun k hk => ?_)
    obtain ⟨r, hr, rfl⟩ := List.mem_map.mp hk
    have := (hnames r hr).2.2
    unfold reclen64
    omega

/-- A name with a NUL is cut there, and a directory with a hole ends at the hole. -/
theorem readdir_cuts :
    (∃ lo di, AcceptedDir (flatFs 1024 7 0 [97, 0, 98]) lo 2 di ∧
      (liveRecords (flatFs 1024 7 0 [97, 0, 98]) 1024 di).map (·.name) = [[46], [46, 46], [97, 0, 98]] ∧
      rootRead (flatFs 1024 7 0 [97, 0, 98]) = some [[46], [46, 46], [97]]) ∧
    ∃ lo di, AcceptedDir (flatFs 2048 0 7 [99]) lo 2 di ∧
      (liveRecords (flatFs 2048 0 7 [99]) 1024 di).map (·.name) = [[46], [46, 46], [99]] ∧
      rootRead (flatFs 2048 0 7 [99]) = some [] := by
  constructor
  · obtain ⟨lo, di, hacc, -, hdi⟩ := @acceptedRoot (flatFs 1024 7 0 [97, 0, 98])
      (fun di => (liveRecords (flatFs 1024 7 0 [97, 0, 98]) 1024 di).map (·.name)
        = [[46], [46, 46], [97, 0, 98]])
      (by decide +kernel) ⟨by decide +kernel, by decide +kernel, by decide +kernel, by decide +kernel⟩
      (by decide +kernel)
    exact ⟨lo, di, hacc, of_decide_eq_true hdi, by decide +kernel⟩
  · obtain ⟨lo, di, hacc, -, hdi⟩ := @acceptedRoot (flatFs 2048 0 7 [99])
      (fun di => (liveRecords (flatFs 2048 0 7 [99]) 1024 di).map (·.name) = [[46], [46, 46], [99]])
      (by decide +kernel) ⟨by decide +kernel, by decide +kernel, by decide +kernel, by decide +kernel⟩
      (by decide +kernel)
    exact ⟨lo, di, hacc, of_decide_eq_true hdi, by decide +kernel⟩

end Guppy.Ext2
