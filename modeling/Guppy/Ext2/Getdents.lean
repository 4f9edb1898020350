import Guppy.Ext2.Handle
import Guppy.Ext2.Access
import Guppy.Ext2.Records

set_option autoImplicit false

/-! # Listing a directory

`d_getdents64` of `src/vfs_ext2.c` goes through the blocks of a directory from the start, skips
the records that end at or before the position of the file, and writes the others into the
buffer of the caller until one does not fit. On tiled blocks this is `fill` on the list of the
records (`dGetdents64_eq`).
-/

namespace Guppy.Ext2

open Prog Vfs

/-! ## `d_getdents64` -/

/-- `ext2_ft_to_vfs`. -/
def ext2FtToVfs : Nat → Nat
  | 1 => 8
  | 2 => 4
  | 3 => 2
  | 4 => 6
  | 7 => 10
  | _ => 0

/-- `d_reclen` for a name of `nl` bytes: 19 bytes before the name and a NUL after it, rounded
up to a multiple of 8. -/
def reclen64 (nl : Nat) : Nat := (19 + nl + 1 + 7) / 8 * 8

/-- The `vfs_dirent64_t` of a record that ends at `next`. -/
def direntBytes (ino next fileType : Nat) (name : Text) : List UInt8 :=
  (((((Mem.zero.wr64 0 ino).wr64 8 next).wr16 16 (reclen64 name.length)).wr8 18
    (ext2FtToVfs fileType)).write 19 name.length (Mem.ofList name)).toList 0 (reclen64 name.length)

/-- The state of a call: `f->f_pos`, the position in the directory, and what is in the
buffer. -/
structure Filling where
  pos : Nat
  logical : Nat
  out : List UInt8

/-- The records of a block from `off` on, with a buffer of `bytes` bytes; `true` when the
buffer is full. -/
def getdentsBlock (blk : Mem) (bs size bytes : Nat) : (fuel off : Nat) → Filling → Filling × Bool
  | 0, _, s => (s, false)
  | fuel + 1, off, s =>
      if off + 8 ≤ bs ∧ s.logical < size then
        let rec' := deRecLen blk off
        if rec' < 8 ∨ bs < off + rec' then (s, false)
        else
          let next := s.logical + rec'
          if next ≤ s.pos then
            getdentsBlock blk bs size bytes fuel (off + rec') { s with logical := next }
          else if deInode blk off ≠ 0 ∧ deNameLen blk off ≠ 0 ∧ deNameLen blk off ≤ rec' - 8 then
            let de := direntBytes (deInode blk off) next (deFileType blk off) (deName blk off)
            if bytes < s.out.length + de.length then (s, true)
            else getdentsBlock blk bs size bytes fuel (off + rec') ⟨next, next, s.out ++ de⟩
          else getdentsBlock blk bs size bytes fuel (off + rec') ⟨next, next, s.out⟩
      else (s, false)

/-- The blocks `bi`, `bi + 1`, ... of the directory: what is in the buffer, or nothing when it
returns -1, and the position of the file. -/
def getdentsBlocks (d : Vblk) (bs : Nat) (di : Inode) (bytes : Nat) :
    (count bi : Nat) → Filling → Option (List UInt8) × Nat
  | 0, _, s => (some s.out, s.pos)
  | count + 1, bi, s =>
      if di.iBlock bi = 0 then (some s.out, s.pos)
      else
        match preadBytesAt d (di.iBlock bi * bs) bs with
        | .error _ => (none, s.pos)
        | .ok blk =>
            match getdentsBlock blk bs di.iSize bytes bs 0 s with
            | (s, true) => (some s.out, s.pos)
            | (s, false) => getdentsBlocks d bs di bytes count (bi + 1) s

/-- `d_getdents64` on a file at position `pos` of the directory with inode `ino`. -/
def dGetdents64 (d : Vblk) (ino bytes pos : Nat) : Option (List UInt8) × Nat :=
  if bytes = 0 then (none, pos)
  else
    match ext2ReadLayout d with
    | none => (none, pos)
    | some lo =>
        match ext2ReadInodeDisk d lo ino with
        | none => (none, pos)
        | some di => getdentsBlocks d lo.blockSize di bytes 12 0 ⟨pos, 0, []⟩

/-! ## Filling from a list of records -/

/-- The record is in use and has a name. -/
def DirRec.listed (r : DirRec) : Bool := r.ino ≠ 0 ∧ r.name ≠ []

/-- The records that start below `size`, each with the position where it ends; the first one
starts at `base`. -/
def located (size : Nat) : Nat → List DirRec → List (Nat × DirRec)
  | _, [] => []
  | base, r :: rs =>
      if base < size then (base + r.recLen, r) :: located size (base + r.recLen) rs else []

/-- Where the walk over these records ends. -/
def endOf (size : Nat) : Nat → List DirRec → Nat
  | base, [] => base
  | base, r :: rs => if base < size then endOf size (base + r.recLen) rs else base

def encode (x : Nat × DirRec) : List UInt8 := direntBytes x.2.ino x.1 x.2.fileType x.2.name

/-- What a call does with the records of a directory: the position, what is in the buffer, and
whether it is full. -/
def fill (bytes : Nat) : List (Nat × DirRec) → Nat → List UInt8 → (Nat × List UInt8) × Bool
  | [], pos, out => ((pos, out), false)
  | x :: l, pos, out =>
      if x.1 ≤ pos then fill bytes l pos out
      else if x.2.listed then
        if bytes < out.length + (encode x).length then ((pos, out), true)
        else fill bytes l x.1 (out ++ encode x)
      else fill bytes l x.1 out

section Fill

variable {d : Vblk} {blk : Mem} {bs size bytes : Nat} {rs : List DirRec}

theorem fill_append (l l' : List (Nat × DirRec)) (pos : Nat) (out : List UInt8) :
    fill bytes (l ++ l') pos out =
      if (fill bytes l pos out).2 then fill bytes l pos out
      else fill bytes l' (fill bytes l pos out).1.1 (fill bytes l pos out).1.2 := by
  induction l generalizing pos out with
  | nil => rfl
  | cons x l ih =>
      rw [List.cons_append, fill, fill]
      split
      · exact ih pos out
      · split
        · split
          · rfl
          · exact ih _ _
        · exact ih _ _

theorem located_of_le {base : Nat} (h : size ≤ base) (rs : List DirRec) : located size base rs = [] := by
  cases rs with
  | nil => rfl
  | cons r rs => rw [located, if_neg (by omega)]

theorem endOf_of_le {base : Nat} (h : size ≤ base) (rs : List DirRec) : endOf size base rs = base := by
  cases rs with
  | nil => rfl
  | cons r rs => rw [endOf, if_neg (by omega)]

/-- The walk ends at the end of the records, unless it reaches the size before. -/
theorem endOf_spec (base : Nat) (rs : List DirRec) :
    endOf size base rs = base + totalLen rs ∨
      size ≤ endOf size base rs ∧ endOf size base rs ≤ base + totalLen rs := by
  induction rs generalizing base with
  | nil => exact Or.inl rfl
  | cons r rs ih =>
      have hlen : totalLen (r :: rs) = r.recLen + totalLen rs := by
        simp [totalLen]
      rw [endOf]
      split
      · have := ih (base + r.recLen)
        omega
      · omega

/-- Behind the size of the directory nothing is read. -/
theorem getdentsBlock_past {fuel off : Nat} {s : Filling} (h : size ≤ s.logical) :
    getdentsBlock blk bs size bytes fuel off s = (s, false) := by
  cases fuel with
  | zero => rfl
  | succ fuel => rw [getdentsBlock, if_neg (fun hlt => by omega)]

/-- The loop over a tiled block. -/
theorem getdentsBlock_eq {fuel off : Nat} (h : Tiles blk off rs bs) (hfuel : rs.length < fuel)
    (s : Filling) :
    ∃ logical, getdentsBlock blk bs size bytes fuel off s =
        (⟨(fill bytes (located size s.logical rs) s.pos s.out).1.1, logical,
          (fill bytes (located size s.logical rs) s.pos s.out).1.2⟩,
          (fill bytes (located size s.logical rs) s.pos s.out).2) ∧
      ((fill bytes (located size s.logical rs) s.pos s.out).2 = false →
        logical = endOf size s.logical rs) := by
  induction rs generalizing off fuel s with
  | nil =>
      obtain ⟨k, rfl⟩ := Nat.exists_eq_succ_of_ne_zero (by omega : fuel ≠ 0)
      have hoff : off = bs := h
      rw [getdentsBlock, if_neg (by omega)]
      exact ⟨s.logical, rfl, fun _ => rfl⟩
  | cons r rs ih =>
      obtain ⟨k, rfl⟩ := Nat.exists_eq_succ_of_ne_zero (by omega : fuel ≠ 0)
      obtain ⟨hrec, hok, hrest⟩ := h
      rw [List.length_cons] at hfuel
      have hle := hrest.le
      have hname := hok.name_le
      have hlen : deRecLen blk off = r.recLen := congrArg DirRec.recLen hrec
      have hino : deInode blk off = r.ino := congrArg DirRec.ino hrec
      have htype : deFileType blk off = r.fileType := congrArg DirRec.fileType hrec
      have hnm : deName blk off = r.name := congrArg DirRec.name hrec
      have hnl : deNameLen blk off = r.name.length := by
        rw [← hnm]
        exact (Mem.length_toList ..).symm
      rw [getdentsBlock]
      by_cases hsize : s.logical < size
      · rw [if_pos ⟨by omega, hsize⟩]
        dsimp only []
        rw [hlen, hino, htype, hnm, hnl, if_neg (by omega), located, if_pos hsize, endOf, if_pos hsize]
        have hlisted : (r.ino ≠ 0 ∧ r.name.length ≠ 0 ∧ r.name.length ≤ r.recLen - 8) ↔
            r.listed = true := by
          unfold DirRec.listed
          rw [decide_eq_true_eq, Ne, Ne, Ne, List.length_eq_zero_iff]
          exact ⟨fun h => ⟨h.1, h.2.1⟩, fun h => ⟨h.1, h.2, by omega⟩⟩
        rw [fill]
        by_cases hskip : s.logical + r.recLen ≤ s.pos
        · rw [if_pos hskip, if_pos hskip]
          exact ih hrest (by omega) { s with logical := s.logical + r.recLen }
        · rw [if_neg hskip, if_neg hskip]
          by_cases hl : r.listed = true
          · rw [if_pos (hlisted.mpr hl), if_pos hl]
            show ∃ logical, (if bytes < s.out.length + (encode (s.logical + r.recLen, r)).length then _
              else _) = _ ∧ _
            by_cases hfull : bytes < s.out.length + (encode (s.logical + r.recLen, r)).length
            · rw [if_pos hfull, if_pos hfull]
              exact ⟨s.logical, rfl, fun h => by cases h⟩
            · rw [if_neg hfull, if_neg hfull]
              exact ih hrest (by omega) ⟨_, _, _⟩
          · rw [if_neg (fun h => hl (hlisted.mp h)), if_neg hl]
            exact ih hrest (by omega) ⟨_, _, _⟩
      · rw [if_neg (fun h => hsize h.2), located_of_le (by omega), endOf_of_le (by omega)]
        exact ⟨s.logical, rfl, fun _ => rfl⟩

end Fill

/-! ## A whole directory -/

/-- A directory as the checker accepts it, with direct blocks up to its size: the blocks that
are there can be read, and `recs` are the records of those below the size. -/
structure TiledDir (d : Vblk) (bs : Nat) (di : Inode) (recs : Nat → List DirRec) : Prop where
  pos : 0 < bs
  block : ∀ j, j < 12 → di.iBlock j ≠ 0 → di.iBlock j * bs + bs ≤ d.limit
  direct : ∀ j, j * bs < di.iSize → j < 12 ∧ di.iBlock j ≠ 0
  tiles : ∀ j, j * bs < di.iSize → Tiles (d.bytes.slice (di.iBlock j * bs) bs) 0 (recs j) bs

/-- The records of block `j`. -/
def recordsAt (bs : Nat) (di : Inode) (recs : Nat → List DirRec) (j : Nat) : List (Nat × DirRec) :=
  located di.iSize (j * bs) (recs j)

/-- All records of the directory. -/
def dirRecords (bs : Nat) (di : Inode) (recs : Nat → List DirRec) : List (Nat × DirRec) :=
  (List.range 12).flatMap (recordsAt bs di recs)

section Directory

variable {d : Vblk} {bs bytes : Nat} {di : Inode} {recs : Nat → List DirRec}

theorem recordsAt_of_le {j : Nat} (h : di.iSize ≤ j * bs) : recordsAt bs di recs j = [] :=
  located_of_le h _

theorem getdentsBlocks_eq (h : TiledDir d bs di recs) {count bi : Nat} (hcount : bi + count = 12)
    (s : Filling) (hlog : s.logical = bi * bs ∨ di.iSize ≤ s.logical ∧ di.iSize ≤ bi * bs) :
    getdentsBlocks d bs di bytes count bi s =
      (some (fill bytes ((List.range' bi count).flatMap (recordsAt bs di recs)) s.pos s.out).1.2,
        (fill bytes ((List.range' bi count).flatMap (recordsAt bs di recs)) s.pos s.out).1.1) := by
  have hpos := h.pos
  induction count generalizing bi s with
  | zero => rfl
  | succ count ih =>
      rw [getdentsBlocks]
      by_cases hzero : di.iBlock bi = 0
      · -- the blocks end here, and so does the directory
        have hend : di.iSize ≤ bi * bs := by
          by_contra hlt
          exact (h.direct bi (by omega)).2 hzero
        have hnil : (List.range' bi (count + 1)).flatMap (recordsAt bs di recs) = [] := by
          rw [List.flatMap_eq_nil_iff]
          intro j hj
          have hj := (List.mem_range'_1.mp hj).1
          exact recordsAt_of_le (le_trans hend (Nat.mul_le_mul_right bs hj))
        rw [if_pos hzero, hnil]
        rfl
      · rw [if_neg hzero, preadBytesAt_of_le (h.block bi (by omega) hzero), List.range'_succ,
          List.flatMap_cons, fill_append]
        dsimp only []
        have hlocated : recordsAt bs di recs bi = located di.iSize s.logical (recs bi) := by
          rcases hlog with hlog | hlog
          · rw [hlog]
            rfl
          · rw [recordsAt_of_le hlog.2, located_of_le hlog.1]
        by_cases hsize : bi * bs < di.iSize
        · have htiles := h.tiles bi hsize
          have htotal := htiles.le
          have hlen := length_le_totalLen htiles
          obtain ⟨logical, heq, hend⟩ := @getdentsBlock_eq
            (d.bytes.slice (di.iBlock bi * bs) bs) bs di.iSize bytes (recs bi) bs 0 htiles (by omega) s
          rw [heq, hlocated]
          generalize fill bytes (located di.iSize s.logical (recs bi)) s.pos s.out = r at hend ⊢
          obtain ⟨⟨pos', out'⟩, full⟩ := r
          cases full with
          | true => rfl
          | false =>
              refine ih (by omega) ⟨pos', logical, out'⟩ ?_
              have hspec := @endOf_spec di.iSize s.logical (recs bi)
              rw [← hend rfl] at hspec
              have hnext : (bi + 1) * bs = bi * bs + bs := Nat.succ_mul bi bs
              show logical = (bi + 1) * bs ∨ di.iSize ≤ logical ∧ di.iSize ≤ (bi + 1) * bs
              omega
        · have hlog : di.iSize ≤ s.logical := by omega
          rw [getdentsBlock_past hlog, recordsAt_of_le (by omega)]
          refine ih (by omega) s (Or.inr ⟨hlog, ?_⟩)
          rw [Nat.succ_mul]
          omega

/-- One call of `d_getdents64` on such a directory. -/
theorem dGetdents64_eq {lo : DiskLayout} {ino pos : Nat} (hlay : ext2ReadLayout d = some lo)
    (hino : ext2ReadInodeDisk d lo ino = some di) (h : TiledDir d lo.blockSize di recs)
    (hbytes : bytes ≠ 0) :
    dGetdents64 d ino bytes pos =
      (some (fill bytes (dirRecords lo.blockSize di recs) pos []).1.2,
        (fill bytes (dirRecords lo.blockSize di recs) pos []).1.1) := by
  unfold dGetdents64
  rw [if_neg hbytes, hlay]
  dsimp only []
  rw [hino]
  dsimp only []
  rw [getdentsBlocks_eq h (by omega) _ (Or.inl (Nat.zero_mul _).symm)]
  rfl

/-! ## Where a call stops -/

/-- The positions at the ends of the records of a block increase, within the block. -/
theorem located_sorted {size base : Nat} {rs : List DirRec} (hok : ∀ r ∈ rs, 0 < r.recLen) :
    ((located size base rs).map Prod.fst).Pairwise (· < ·) ∧
      ∀ x ∈ located size base rs, base < x.1 ∧ x.1 ≤ base + totalLen rs := by
  induction rs generalizing base with
  | nil => exact ⟨List.Pairwise.nil, fun x hx => absurd hx List.not_mem_nil⟩
  | cons r rs ih =>
      have hlen : totalLen (r :: rs) = r.recLen + totalLen rs := by
        simp [totalLen]
      have hr := hok r (List.mem_cons_self ..)
      obtain ⟨hsorted, hbound⟩ := @ih (base + r.recLen) (fun r' h' => hok r' (List.mem_cons_of_mem _ h'))
      rw [located]
      split
      · constructor
        · rw [List.map_cons, List.pairwise_cons]
          refine ⟨fun n hn => ?_, hsorted⟩
          obtain ⟨x, hx, rfl⟩ := List.mem_map.mp hn
          exact (hbound x hx).1
        · intro x hx
          rcases List.mem_cons.mp hx with rfl | hx
          · exact ⟨by show base < base + r.recLen; omega, by show base + r.recLen ≤ _; omega⟩
          · have := hbound x hx
            omega
      · exact ⟨List.Pairwise.nil, fun x hx => absurd hx List.not_mem_nil⟩

theorem tiles_pos {blk : Mem} {off stop : Nat} {rs : List DirRec} (h : Tiles blk off rs stop) :
    ∀ r ∈ rs, 0 < r.recLen := by
  induction rs generalizing off with
  | nil => exact fun r hr => absurd hr List.not_mem_nil
  | cons r rs ih =>
      intro r' hr'
      rcases List.mem_cons.mp hr' with rfl | hr'
      · have := h.2.1.name_le
        omega
      · exact ih h.2.2 r' hr'

/-- The positions at the ends of the records of a directory increase. -/
theorem dirRecords_sorted (h : TiledDir d bs di recs) :
    ((dirRecords bs di recs).map Prod.fst).Pairwise (· < ·) ∧
      ∀ x ∈ dirRecords bs di recs, 0 < x.1 := by
  have hblock : ∀ j, ((recordsAt bs di recs j).map Prod.fst).Pairwise (· < ·) ∧
      ∀ x ∈ recordsAt bs di recs j, j * bs < x.1 ∧ x.1 ≤ (j + 1) * bs := by
    intro j
    by_cases hsize : j * bs < di.iSize
    · have htiles := h.tiles j hsize
      have htotal := htiles.le
      obtain ⟨hsorted, hbound⟩ := @located_sorted di.iSize (j * bs) (recs j) (tiles_pos htiles)
      refine ⟨hsorted, fun x hx => ?_⟩
      have := hbound x hx
      rw [Nat.succ_mul]
      omega
    · rw [recordsAt_of_le (by omega)]
      exact ⟨List.Pairwise.nil, fun x hx => absurd hx List.not_mem_nil⟩
  have hall : ∀ k, (((List.range k).flatMap (recordsAt bs di recs)).map Prod.fst).Pairwise (· < ·) ∧
      ∀ x ∈ (List.range k).flatMap (recordsAt bs di recs), 0 < x.1 ∧ x.1 ≤ k * bs := by
    intro k
    induction k with
    | zero => exact ⟨List.Pairwise.nil, fun x hx => absurd hx List.not_mem_nil⟩
    | succ k ih =>
        rw [List.range_succ, List.flatMap_append, List.flatMap_singleton]
        have hlast := hblock k
        constructor
        · rw [List.map_append, List.pairwise_append]
          refine ⟨ih.1, hlast.1, fun a ha b hb => ?_⟩
          obtain ⟨x, hx, rfl⟩ := List.mem_map.mp ha
          obtain ⟨y, hy, rfl⟩ := List.mem_map.mp hb
          exact lt_of_le_of_lt (ih.2 x hx).2 (hlast.2 y hy).1
        · intro x hx
          have hle := Nat.mul_le_mul_right bs (Nat.le_succ k)
          rcases List.mem_append.mp hx with hx | hx
          · have := ih.2 x hx
            exact ⟨this.1, le_trans this.2 hle⟩
          · have := hlast.2 x hx
            exact ⟨by omega, this.2⟩
  exact ⟨(hall 12).1, fun x hx => ((hall 12).2 x hx).1⟩

end Directory

end Guppy.Ext2
