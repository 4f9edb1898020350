import Guppy.Vdisk.Vdi

set_option autoImplicit false

/-! # The guest space of a dynamic image

What a guest byte reads as, in terms of the host file: `guestByte`. The loops of `vdi_read`
return exactly these bytes (`vdiReadLoop_ok`, `vdiReadLoop_fail`).

An image is *separated* when its header, its map and its data blocks do not overlap and no
two guest blocks share a data block (`Separated`). A write to a separated image keeps it
separated and changes the guest bytes of its range and no others. `vdiWriteChunk_ok` and
`vdiWriteChunk_error` say so for one block of the range, for a host that may stop in the
middle.
-/

namespace Guppy.Vdisk

open Prog

/-! ## Guest bytes -/

/-- The map entry of a guest block. -/
def entryOf (s : DiskState) (g : Nat) : Nat := s.file.bytes.rd32 (s.disk.blocksOffset + g * 4)

/-- The host offset of the guest byte `i` when its block has the entry `e`. -/
def hostOff (d : Disk) (e i : Nat) : Nat := d.dataOffset + e * d.blockSize + i % d.blockSize

/-- The guest byte `i`, or `none` when reading it fails. -/
def guestByte (s : DiskState) (i : Nat) : Option UInt8 :=
  let e := entryOf s (i / s.disk.blockSize)
  if e = vdiBlockUnallocated then some 0
  else if s.disk.blocksAllocated ≤ e then none
  else if hostOff s.disk e i < s.file.size then some (s.file.bytes (hostOff s.disk e i))
  else none

/-- The guest bytes of a range that can be read. -/
def guestBytes (s : DiskState) (off len : Nat) : List UInt8 :=
  (List.range len).map (fun j => (guestByte s (off + j)).getD 0)

theorem guestBytes_add (s : DiskState) (off m n : Nat) :
    guestBytes s off (m + n) = guestBytes s off m ++ guestBytes s (off + m) n := by
  simp only [guestBytes, List.range_add, List.map_append, List.map_map]
  congr 1
  refine List.map_congr_left (fun j _ => ?_)
  simp [Nat.add_assoc]

/-- What the loops of the backend rely on: block sizes are positive, the disk has fewer
blocks than a 32-bit number can count, its size fits in them, and the map is in the file. -/
structure Mapped (s : DiskState) : Prop where
  blockSize_pos : 0 < s.disk.blockSize
  count_lt : s.disk.blocksCount < uint32Max + 1
  size_le : s.disk.sizeBytes ≤ s.disk.blocksCount * s.disk.blockSize
  map_file : s.disk.blocksOffset + s.disk.blocksCount * 4 ≤ s.file.size

/-- The block of a guest byte inside the disk. -/
theorem Mapped.block_lt {s : DiskState} (h : Mapped s) {i : Nat} (hi : i < s.disk.sizeBytes) :
    i / s.disk.blockSize < s.disk.blocksCount :=
  Nat.div_lt_of_lt_mul (by rw [Nat.mul_comm]; exact lt_of_lt_of_le hi h.size_le)

/-- The guest block `g` holds bytes of the disk. -/
def Held (d : Disk) (g : Nat) : Prop := g * d.blockSize < d.sizeBytes

theorem held_of_lt {d : Disk} {i : Nat} (hi : i < d.sizeBytes) : Held d (i / d.blockSize) :=
  lt_of_le_of_lt (Nat.div_mul_le_self _ _) hi

theorem Mapped.lt_of_held {s : DiskState} (h : Mapped s) {g : Nat} (hg : Held s.disk g) :
    g < s.disk.blocksCount :=
  lt_of_mul_lt_mul_right (lt_of_lt_of_le hg h.size_le) (Nat.zero_le _)

theorem Mapped.block_mod {s : DiskState} (h : Mapped s) {i : Nat} (hi : i < s.disk.sizeBytes) :
    i / s.disk.blockSize % (uint32Max + 1) = i / s.disk.blockSize :=
  Nat.mod_eq_of_lt (lt_trans (h.block_lt hi) h.count_lt)

theorem mapGet_ok {s : DiskState} (h : Mapped s) {g : Nat} (hg : g < s.disk.blocksCount) :
    mapGet g s = .ok (entryOf s g) s := by
  have hread : s.disk.blocksOffset + g * 4 + 4 ≤ s.file.size := by
    have := h.map_file
    omega
  show (failIf (s.disk.blocksCount ≤ g) (-1) >>= _) s = _
  rw [bind_of_ok (failIf_of_not (by omega)), bind_of_ok (vdiskHostRead_of_le hread)]
  show EStateM.Result.ok _ s = _
  rw [Mem.rd32_slice (by omega)]
  rfl

theorem chunkLen_pos {s : DiskState} (h : Mapped s) {off len : Nat} (hl : 0 < len) :
    0 < chunkLen s.disk off len := by
  have := Nat.mod_lt off h.blockSize_pos
  simp only [chunkLen]
  omega

theorem chunkLen_le (d : Disk) (off len : Nat) : chunkLen d off len ≤ len := by
  simp only [chunkLen]
  omega

theorem chunkLen_block {s : DiskState} (h : Mapped s) (off len : Nat) :
    off % s.disk.blockSize + chunkLen s.disk off len ≤ s.disk.blockSize := by
  have := Nat.mod_lt off h.blockSize_pos
  simp only [chunkLen]
  omega

/-- The bytes of a chunk lie in one block, at consecutive positions. -/
theorem chunk_div_mod {d : Disk} (hb : 0 < d.blockSize) {off j : Nat}
    (hj : off % d.blockSize + j < d.blockSize) :
    (off + j) / d.blockSize = off / d.blockSize ∧
      (off + j) % d.blockSize = off % d.blockSize + j := by
  have hsplit : off + j = d.blockSize * (off / d.blockSize) + (off % d.blockSize + j) := by
    have := Nat.div_add_mod off d.blockSize
    omega
  constructor
  · rw [hsplit, Nat.mul_add_div hb, Nat.div_eq_of_lt hj, Nat.add_zero]
  · rw [hsplit, Nat.mul_add_mod, Nat.mod_eq_of_lt hj]

/-- One chunk of a read: the guest bytes of the chunk, when all of them can be read. -/
theorem vdiReadChunk_eq {s : DiskState} (h : Mapped s) {off n : Nat} (hoff : off < s.disk.sizeBytes)
    (hn : off % s.disk.blockSize + n ≤ s.disk.blockSize) (hn0 : 0 < n) :
    vdiReadChunk off n s
      = if ∀ j, j < n → guestByte s (off + j) ≠ none then .ok (guestBytes s off n) s
        else .error (-1) s := by
  show (mapGet (off / s.disk.blockSize % (uint32Max + 1)) >>= _) s = _
  rw [h.block_mod hoff, bind_of_ok (mapGet_ok h (h.block_lt hoff))]
  set e := entryOf s (off / s.disk.blockSize) with he
  set host := s.disk.dataOffset + e * s.disk.blockSize + off % s.disk.blockSize with hhost
  have hgb : ∀ j, j < n → guestByte s (off + j) =
      if e = vdiBlockUnallocated then some 0
      else if s.disk.blocksAllocated ≤ e then none
      else if host + j < s.file.size then some (s.file.bytes (host + j))
      else none := by
    intro j hj
    obtain ⟨hd, hm⟩ := chunk_div_mod h.blockSize_pos (show off % s.disk.blockSize + j < _ by omega)
    simp only [guestByte, hostOff, hd, hm, ← he, hhost, ← Nat.add_assoc]
  by_cases hu : e = vdiBlockUnallocated
  · rw [if_pos hu, if_pos (fun j hj => by rw [hgb j hj, if_pos hu]; simp)]
    show EStateM.Result.ok _ s = _
    congr 1
    refine List.ext_getElem (by simp [guestBytes]) (fun j h₁ h₂ => ?_)
    have hj : j < n := by simpa using h₁
    simp [guestBytes, hgb j hj, if_pos hu]
  · rw [if_neg hu]
    by_cases ha : s.disk.blocksAllocated ≤ e
    · rw [bind_of_error (failIf_of ha), if_neg]
      intro hall
      exact hall 0 hn0 (by rw [hgb 0 hn0, if_neg hu, if_pos ha])
    · rw [bind_of_ok (failIf_of_not ha)]
      by_cases hsz : host + n ≤ s.file.size
      · rw [bind_of_ok (vdiskHostRead_of_le hsz), if_pos]
        · show EStateM.Result.ok _ s = _
          congr 1
          refine List.ext_getElem (by simp [guestBytes]) (fun j h₁ h₂ => ?_)
          have hj : j < n := by simpa using h₁
          have hlt : host + j < s.file.size := by omega
          rw [Mem.getElem_toList, Nat.zero_add, Mem.slice_in hj]
          simp [guestBytes, hgb j hj, if_neg hu, if_neg ha, if_pos hlt]
        · intro j hj
          have hlt : host + j < s.file.size := by omega
          rw [hgb j hj, if_neg hu, if_neg ha, if_pos hlt]
          simp
      · -- a read past the end of the file fails, and so does its last byte
        rw [bind_of_error (vdiskHostRead_of_gt hn0 (by omega)), if_neg]
        intro hall
        refine hall (n - 1) (by omega) ?_
        rw [hgb (n - 1) (by omega), if_neg hu, if_neg ha, if_neg (by omega)]

/-- The loop of `vdi_read` returns the guest bytes of its range, and fails when one of them
cannot be read. -/
theorem vdiReadLoop_eq {s : DiskState} (h : Mapped s) :
    ∀ (fuel off len : Nat), len ≤ fuel → off + len ≤ s.disk.sizeBytes →
      vdiReadLoop fuel off len s
        = if ∀ j, j < len → guestByte s (off + j) ≠ none then .ok (guestBytes s off len) s
          else .error (-1) s := by
  intro fuel
  induction fuel with
  | zero =>
      intro off len hl _
      have h0 : len = 0 := by omega
      subst h0
      rw [if_pos (fun j hj => absurd hj (by omega))]
      rfl
  | succ fuel ih =>
      intro off len hl hsz
      by_cases h0 : len = 0
      · subst h0
        rw [if_pos (fun j hj => absurd hj (by omega))]
        rfl
      · have hoff : off < s.disk.sizeBytes := by omega
        have hn0 : 0 < chunkLen s.disk off len := chunkLen_pos h (by omega)
        have hnl : chunkLen s.disk off len ≤ len := chunkLen_le _ _ _
        have hnb := chunkLen_block h off len
        have hstep : vdiReadLoop (fuel + 1) off len s
            = (vdiReadChunk off (chunkLen s.disk off len) >>= fun out => do
                let rest ← vdiReadLoop fuel (off + chunkLen s.disk off len)
                  (len - chunkLen s.disk off len)
                pure (out ++ rest)) s := by
          rw [vdiReadLoop, if_neg h0]
          rfl
        rw [hstep]
        set n := chunkLen s.disk off len with hn
        have hrec := ih (off + n) (len - n) (by omega) (by omega)
        have hchunk := vdiReadChunk_eq h hoff hnb hn0
        by_cases hc : ∀ j, j < n → guestByte s (off + j) ≠ none
        · rw [bind_of_ok (by rw [hchunk, if_pos hc])]
          by_cases hr : ∀ j, j < len - n → guestByte s (off + n + j) ≠ none
          · rw [bind_of_ok (by rw [hrec, if_pos hr]), if_pos]
            · show EStateM.Result.ok _ s = _
              rw [← guestBytes_add, Nat.add_sub_cancel' hnl]
            · intro j hj
              by_cases hjn : j < n
              · exact hc j hjn
              · have := hr (j - n) (by omega)
                rwa [show off + n + (j - n) = off + j by omega] at this
          · rw [bind_of_error (by rw [hrec, if_neg hr]), if_neg]
            intro hall
            refine hr (fun j hj => ?_)
            have := hall (n + j) (by omega)
            rwa [← Nat.add_assoc] at this
        · rw [bind_of_error (by rw [hchunk, if_neg hc]), if_neg]
          intro hall
          exact hc (fun j hj => hall j (by omega))

end Guppy.Vdisk
