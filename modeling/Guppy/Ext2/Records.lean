import Guppy.Ext2.Ops

set_option autoImplicit false

/-! # Directory blocks as lists of records

A block that is tiled by records (`Tiles`) is read by every walk in the same way: as the list
of its records. Looking a name up, adding a record and removing one are then functions on
lists of records, and the lemmas of this module say so for the bytes.
-/

namespace Guppy.Ext2

open Vfs

/-- A directory record. -/
structure DirRec where
  ino : Nat
  recLen : Nat
  fileType : Nat
  name : Text
deriving DecidableEq

namespace DirRec

/-- The least length of the record. -/
def minLen (r : DirRec) : Nat := direntMinRecLen r.name.length

/-- The length is a multiple of 4 and holds the name. -/
structure Ok (r : DirRec) : Prop where
  mult : r.recLen % 4 = 0
  min : r.minLen ≤ r.recLen

/-- `de->inode && de->name_len == want && memcmp(de->name, name, want) == 0` -/
def isNamed (r : DirRec) (name : Text) : Bool := r.ino ≠ 0 ∧ r.name = name

end DirRec

/-- The record at position `pos`. -/
def recAt (blk : Mem) (pos : Nat) : DirRec :=
  ⟨deInode blk pos, deRecLen blk pos, deFileType blk pos, deName blk pos⟩

/-- The records from position `pos` up to `stop` are those of the list. -/
def Tiles (blk : Mem) : Nat → List DirRec → Nat → Prop
  | pos, [], stop => pos = stop
  | pos, r :: rs, stop => recAt blk pos = r ∧ r.Ok ∧ Tiles blk (pos + r.recLen) rs stop

/-- Where the records of a list start when the first one starts at `pos`. -/
def starts : Nat → List DirRec → List Nat
  | _, [] => []
  | pos, r :: rs => pos :: starts (pos + r.recLen) rs

def totalLen (rs : List DirRec) : Nat := (rs.map DirRec.recLen).sum

/-! ## Tilings -/

section Tiles

variable {blk blk' : Mem} {pos stop : Nat} {r : DirRec} {rs : List DirRec}

theorem minLen_eq (r : DirRec) : r.minLen = (r.name.length + 11) / 4 * 4 := rfl

theorem DirRec.Ok.name_le (h : r.Ok) : 8 + r.name.length ≤ r.recLen := by
  have := h.min
  rw [minLen_eq] at this
  omega

@[simp] theorem recAt_name_length (blk : Mem) (pos : Nat) :
    (recAt blk pos).name.length = deNameLen blk pos := Mem.length_toList ..

theorem recAt_congr (h : ∀ i, i < 8 + deNameLen blk pos → blk' (pos + i) = blk (pos + i)) :
    recAt blk' pos = recAt blk pos := by
  have hlen : deNameLen blk' pos = deNameLen blk pos := by
    unfold deNameLen
    rw [h 6 (by omega)]
  unfold recAt deInode deRecLen deFileType deName
  rw [hlen, DirRec.mk.injEq]
  refine ⟨?_, ?_, ?_, ?_⟩
  · exact Mem.rd32_congr (fun i hi => h i (by omega))
  · refine Mem.rd16_congr (fun i hi => ?_)
    rw [Nat.add_assoc]
    exact h (4 + i) (by omega)
  · rw [h 7 (by omega)]
  · refine Mem.toList_congr (fun i hi => ?_)
    rw [Nat.add_assoc]
    exact h (8 + i) (by omega)

theorem Tiles.le (h : Tiles blk pos rs stop) : pos + totalLen rs = stop := by
  induction rs generalizing pos with
  | nil => exact h
  | cons r rs ih =>
      have := ih h.2.2
      unfold totalLen at this ⊢
      rw [List.map_cons, List.sum_cons]
      omega

/-- A tiling only depends on the bytes it covers. -/
theorem Tiles.congr (h : Tiles blk pos rs stop)
    (heq : ∀ i, pos ≤ i → i < stop → blk' i = blk i) : Tiles blk' pos rs stop := by
  induction rs generalizing pos with
  | nil => exact h
  | cons r rs ih =>
      obtain ⟨hrec, hok, hrest⟩ := h
      have hle := hrest.le
      have hname := hok.name_le
      refine ⟨?_, hok, ih hrest (fun i h₁ h₂ => heq i (by omega) h₂)⟩
      rw [← hrec]
      rw [← hrec, recAt_name_length] at hname
      refine recAt_congr (fun i hi => heq _ (by omega) ?_)
      rw [← hrec] at hle
      omega

theorem tiles_append {l : List DirRec} :
    Tiles blk pos (l ++ rs) stop ↔
      Tiles blk pos l (pos + totalLen l) ∧ Tiles blk (pos + totalLen l) rs stop := by
  induction l generalizing pos with
  | nil => exact ⟨fun h => ⟨rfl, h⟩, fun h => h.2⟩
  | cons r l ih =>
      have hlen : pos + totalLen (r :: l) = pos + r.recLen + totalLen l := by
        unfold totalLen
        rw [List.map_cons, List.sum_cons]
        omega
      rw [List.cons_append, hlen]
      constructor
      · rintro ⟨hrec, hok, hrest⟩
        exact ⟨⟨hrec, hok, (ih.mp hrest).1⟩, (ih.mp hrest).2⟩
      · rintro ⟨⟨hrec, hok, h₁⟩, h₂⟩
        exact ⟨hrec, hok, ih.mpr ⟨h₁, h₂⟩⟩

theorem length_le_totalLen (h : Tiles blk pos rs stop) : rs.length * 8 ≤ totalLen rs := by
  induction rs generalizing pos with
  | nil => exact Nat.le_refl _
  | cons r rs ih =>
      have hok := h.2.1.name_le
      have := ih h.2.2
      unfold totalLen at this ⊢
      rw [List.map_cons, List.sum_cons, List.length_cons]
      omega

/-- The walk over a tiled block visits the starts of its records. -/
theorem positionsFrom_of_tiles {bs fuel : Nat} (h : Tiles blk pos rs bs) (hfuel : rs.length < fuel) :
    positionsFrom bs blk fuel pos = starts pos rs := by
  induction rs generalizing pos fuel with
  | nil =>
      obtain ⟨k, rfl⟩ := Nat.exists_eq_succ_of_ne_zero (by omega : fuel ≠ 0)
      have hpos : pos = bs := h
      rw [positionsFrom, if_neg (by omega)]
      rfl
  | cons r rs ih =>
      obtain ⟨k, rfl⟩ := Nat.exists_eq_succ_of_ne_zero (by omega : fuel ≠ 0)
      obtain ⟨hrec, hok, hrest⟩ := h
      have hle := hrest.le
      have hname := hok.name_le
      have hlen : deRecLen blk pos = r.recLen := congrArg DirRec.recLen hrec
      rw [positionsFrom, hlen, if_pos (by omega), ih hrest (by rw [List.length_cons] at hfuel; omega)]
      rfl

theorem positions_of_tiles {bs : Nat} (h : Tiles blk 0 rs bs) (hbs : 0 < bs) :
    positions bs blk = starts 0 rs := by
  refine positionsFrom_of_tiles h ?_
  have h₁ := length_le_totalLen h
  have h₂ := h.le
  omega

end Tiles

/-! ## Looking a name up -/

/-- The entry of that name in a list of records: inode and type of the first record. -/
def lookup (rs : List DirRec) (name : Text) : Option (Nat × Nat) :=
  (rs.find? (DirRec.isNamed · name)).map (fun r => (r.ino, r.fileType))

section Lookup

variable {blk : Mem} {pos stop : Nat} {rs : List DirRec} {name : Text}

theorem deMatches_eq (blk : Mem) (pos : Nat) (name : Text) :
    deMatches name blk pos = (recAt blk pos).isNamed name := by
  unfold deMatches DirRec.isNamed recAt
  refine decide_eq_decide.mpr ⟨fun h => ⟨h.1, h.2.2⟩, fun h => ⟨h.1, ?_, h.2⟩⟩
  have := congrArg List.length h.2
  rw [← this]
  exact (Mem.length_toList ..).symm

/-- A search among the positions is a search among the records. -/
theorem find_starts (h : Tiles blk pos rs stop) (p : DirRec → Bool) :
    ((starts pos rs).find? (fun i => p (recAt blk i))).map (recAt blk) = rs.find? p := by
  induction rs generalizing pos with
  | nil => rfl
  | cons r rs ih =>
      obtain ⟨hrec, -, hrest⟩ := h
      rw [starts, List.find?_cons, List.find?_cons, hrec]
      cases p r with
      | true => exact congrArg some hrec
      | false => exact ih hrest

theorem find_matches_of_tiles {bs : Nat} (h : Tiles blk 0 rs bs) (hbs : 0 < bs) (name : Text) :
    ((positions bs blk).find? (deMatches name blk)).map (fun i => (deInode blk i, deFileType blk i))
      = lookup rs name := by
  rw [positions_of_tiles h hbs]
  unfold lookup
  rw [← find_starts h, Option.map_map]
  have hp : deMatches name blk = fun i => (recAt blk i).isNamed name :=
    funext (fun i => deMatches_eq blk i name)
  rw [hp]
  rfl

theorem lookup_append (l rs : List DirRec) (name : Text) :
    lookup (l ++ rs) name = (lookup l name).or (lookup rs name) := by
  unfold lookup
  rw [List.find?_append]
  cases l.find? (DirRec.isNamed · name) with
  | none => rfl
  | some r => rfl

theorem lookup_cons (r : DirRec) (rs : List DirRec) (name : Text) :
    lookup (r :: rs) name = if r.isNamed name then some (r.ino, r.fileType) else lookup rs name := by
  unfold lookup
  rw [List.find?_cons]
  cases r.isNamed name with
  | true => rfl
  | false => rfl

end Lookup

/-! ## Writing records -/

section Write

variable {blk : Mem} {pos stop ino recLen fileType : Nat} {name : Text}

theorem putDirent_out {i : Nat} (h : i < pos ∨ pos + 8 + name.length ≤ i) :
    putDirent blk pos ino recLen fileType name i = blk i := by
  unfold putDirent Mem.wr32 Mem.wr16 Mem.wr8
  rw [Mem.write_out (by omega), Mem.write_out (by omega), Mem.write_out (by omega),
    Mem.write_out (by omega), Mem.write_out (by omega)]

theorem le_one (v : Nat) : (Mem.le v 0).toNat = v % 256 := by
  rw [Mem.le_toNat, Nat.pow_zero, Nat.div_one]

theorem recAt_putDirent (hname : name.length < 256) :
    recAt (putDirent blk pos ino recLen fileType name) pos
      = ⟨ino % uint32, recLen % 65536, fileType % 256, name⟩ := by
  have hlen : deNameLen (putDirent blk pos ino recLen fileType name) pos = name.length := by
    unfold deNameLen putDirent Mem.wr8
    rw [Mem.write_out (by omega), Mem.write_out (by omega), Mem.write_in (by omega) (by omega),
      Nat.sub_self, le_one, Nat.mod_eq_of_lt hname]
  unfold recAt deName
  rw [hlen, DirRec.mk.injEq]
  refine ⟨?_, ?_, ?_, ?_⟩
  · unfold deInode putDirent Mem.wr32 Mem.wr16 Mem.wr8 uint32
    simp (disch := omega) only [Mem.rd32_write_out, Mem.rd32_write_in, Nat.sub_self, Mem.rd32_le]
  · unfold deRecLen putDirent Mem.wr32 Mem.wr16 Mem.wr8
    simp (disch := omega) only [Mem.rd16_write_out, Mem.rd16_write_in, Nat.sub_self, Mem.rd16_le]
  · unfold deFileType putDirent Mem.wr8
    rw [Mem.write_out (by omega), Mem.write_in (by omega) (by omega), Nat.sub_self, le_one]
  · have hbytes : ∀ i, i < name.length →
        putDirent blk pos ino recLen fileType name (pos + 8 + i) = Mem.ofList name (0 + i) := by
      intro i hi
      unfold putDirent
      rw [Mem.write_in (by omega) (by omega)]
      congr 1
      omega
    rw [Mem.toList_congr hbytes, Mem.toList_ofList]

/-- Changing the length of a record changes nothing else of it. -/
theorem recAt_wr16 {v : Nat} (hv : v < 65536) :
    recAt (blk.wr16 (pos + 4) v) pos = { recAt blk pos with recLen := v } := by
  have hlen : deNameLen (blk.wr16 (pos + 4) v) pos = deNameLen blk pos := by
    unfold deNameLen Mem.wr16
    rw [Mem.write_out (by omega)]
  unfold recAt deName
  rw [hlen, DirRec.mk.injEq]
  refine ⟨?_, ?_, ?_, ?_⟩
  · exact Mem.rd32_write_out (by omega)
  · unfold deRecLen
    rw [Mem.rd16_wr16_self, Nat.mod_eq_of_lt hv]
  · unfold deFileType Mem.wr16
    rw [Mem.write_out (by omega)]
  · exact Mem.toList_congr (fun i _ => Mem.write_out (by omega))

/-- Clearing the inode of a record changes nothing else of it. -/
theorem recAt_wr32 : recAt (blk.wr32 pos 0) pos = { recAt blk pos with ino := 0 } := by
  have hlen : deNameLen (blk.wr32 pos 0) pos = deNameLen blk pos := by
    unfold deNameLen Mem.wr32
    rw [Mem.write_out (by omega)]
  unfold recAt deName
  rw [hlen, DirRec.mk.injEq]
  refine ⟨?_, ?_, ?_, ?_⟩
  · unfold deInode
    rw [Mem.rd32_wr32_self]
  · exact Mem.rd16_write_out (by omega)
  · unfold deFileType Mem.wr32
    rw [Mem.write_out (by omega)]
  · exact Mem.toList_congr (fun i _ => Mem.write_out (by omega))

theorem minLen_bounds (nameLen : Nat) :
    direntMinRecLen nameLen % 4 = 0 ∧ 8 + nameLen ≤ direntMinRecLen nameLen ∧
      direntMinRecLen nameLen ≤ nameLen + 11 := by
  unfold direntMinRecLen
  omega

/-- The block of a new directory. -/
theorem tiles_newDirBlock (parentIno : Nat) (hino : ino < uint32) (hparent : parentIno < uint32) :
    Tiles (newDirBlock 4096 ino parentIno) 0
      [⟨ino, 12, 2, [dot]⟩, ⟨parentIno, 4084, 2, dotdot⟩] 4096 := by
  have hfirst : recAt (newDirBlock 4096 ino parentIno) 0 = ⟨ino, 12, 2, [dot]⟩ := by
    have hrec := @recAt_putDirent Mem.zero 0 ino 12 2 [dot] (by decide)
    rw [Nat.mod_eq_of_lt hino] at hrec
    refine (recAt_congr (fun i hi => ?_)).trans hrec
    have hlen : deNameLen (putDirent Mem.zero 0 ino 12 2 [dot]) 0 = 1 := by
      rw [← recAt_name_length, hrec]
      rfl
    exact putDirent_out (by omega)
  have hsecond : recAt (newDirBlock 4096 ino parentIno) 12 = ⟨parentIno, 4084, 2, dotdot⟩ := by
    have hrec := @recAt_putDirent (putDirent Mem.zero 0 ino 12 2 [dot]) 12 parentIno (4096 - 12) 2
      dotdot (by decide)
    rw [Nat.mod_eq_of_lt hparent] at hrec
    exact hrec
  have hok : DirRec.Ok ⟨ino, 12, 2, [dot]⟩ := by
    refine ⟨?_, ?_⟩
    · simp
    · simp [DirRec.minLen, direntMinRecLen]
  have hok' : DirRec.Ok ⟨parentIno, 4084, 2, dotdot⟩ := by
    refine ⟨?_, ?_⟩
    · simp
    · simp [DirRec.minLen, direntMinRecLen, dotdot]
  exact ⟨hfirst, hok, hsecond, hok', rfl⟩

end Write

/-! ## Adding and removing records -/

section Change

variable {blk : Mem} {stop ino fileType : Nat} {name : Text} {l rs : List DirRec} {p r : DirRec}

/-- The record that a search finds, among those before and after it. -/
theorem find_starts_some {q : DirRec → Bool} {pos i : Nat} (h : Tiles blk pos rs stop)
    (hfind : (starts pos rs).find? (fun i => q (recAt blk i)) = some i) :
    ∃ l r rs', rs = l ++ r :: rs' ∧ q r = true ∧ (∀ x ∈ l, q x = false) ∧ i = pos + totalLen l := by
  induction rs generalizing pos with
  | nil => cases hfind
  | cons r rs ih =>
      obtain ⟨hrec, -, hrest⟩ := h
      rw [starts, List.find?_cons, hrec] at hfind
      cases hq : q r with
      | true =>
          rw [hq] at hfind
          cases hfind
          exact ⟨[], r, rs, rfl, hq, fun x hx => absurd hx List.not_mem_nil, rfl⟩
      | false =>
          rw [hq] at hfind
          obtain ⟨l, r', rs', rfl, hr', hl, rfl⟩ := ih hrest hfind
          refine ⟨r :: l, r', rs', rfl, hr', fun x hx => ?_, ?_⟩
          · rcases List.mem_cons.mp hx with rfl | hx
            · exact hq
            · exact hl x hx
          · unfold totalLen
            rw [List.map_cons, List.sum_cons]
            omega

/-- The same for a search that also remembers the record before. -/
theorem findWithPrev_some {q : DirRec → Bool} {pos : Nat} {prev prev' : Option Nat} {i : Nat}
    (h : Tiles blk pos rs stop)
    (hfind : findWithPrev (fun i => q (recAt blk i)) prev (starts pos rs) = some (prev', i)) :
    ∃ l r rs', rs = l ++ r :: rs' ∧ q r = true ∧ (∀ x ∈ l, q x = false) ∧ i = pos + totalLen l ∧
      (l = [] ∧ prev' = prev ∨ ∃ l' p, l = l' ++ [p] ∧ prev' = some (pos + totalLen l')) := by
  induction rs generalizing pos prev with
  | nil => cases hfind
  | cons r rs ih =>
      obtain ⟨hrec, -, hrest⟩ := h
      rw [starts, findWithPrev, hrec] at hfind
      cases hq : q r with
      | true =>
          rw [hq, if_pos rfl] at hfind
          cases hfind
          exact ⟨[], r, rs, rfl, hq, fun x hx => absurd hx List.not_mem_nil, rfl, Or.inl ⟨rfl, rfl⟩⟩
      | false =>
          rw [hq, if_neg (by simp)] at hfind
          obtain ⟨l, r', rs', rfl, hr', hl, rfl, hprev⟩ := ih hrest hfind
          have hlen : ∀ k, pos + totalLen (r :: k) = pos + r.recLen + totalLen k := by
            intro k
            unfold totalLen
            rw [List.map_cons, List.sum_cons]
            omega
          refine ⟨r :: l, r', rs', rfl, hr', fun x hx => ?_, (hlen l).symm, Or.inr ?_⟩
          · rcases List.mem_cons.mp hx with rfl | hx
            · exact hq
            · exact hl x hx
          · rcases hprev with ⟨rfl, rfl⟩ | ⟨l', p, rfl, rfl⟩
            · exact ⟨[], r, rfl, rfl⟩
            · exact ⟨r :: l', p, rfl, by rw [hlen]⟩

theorem totalLen_append (l rs : List DirRec) : totalLen (l ++ rs) = totalLen l + totalLen rs := by
  unfold totalLen
  rw [List.map_append, List.sum_append]

/-- `splitDirent` cuts a record to its least length and puts the new record behind it. -/
theorem tiles_split (h : Tiles blk 0 (l ++ r :: rs) stop) (hstop : stop < 65536)
    (hslack : r.minLen + direntMinRecLen name.length ≤ r.recLen) (hname : name.length < 256)
    (hino : ino < uint32) (htype : fileType < 256) :
    Tiles (splitDirent blk (totalLen l) ino fileType name) 0
      (l ++ { r with recLen := r.minLen } :: ⟨ino, r.recLen - r.minLen, fileType, name⟩ :: rs) stop := by
  obtain ⟨hl, hrec, hok, hrs⟩ := tiles_append.mp h
  rw [Nat.zero_add] at hl hrec hrs
  have hend := hrs.le
  have hmin := hok.min
  have hnb := minLen_bounds name.length
  have hrb := minLen_bounds r.name.length
  have hlen : deRecLen blk (totalLen l) = r.recLen := congrArg DirRec.recLen hrec
  have hmineq : direntMinRecLen (deNameLen blk (totalLen l)) = r.minLen := by
    rw [← recAt_name_length, hrec]
    rfl
  have hname_le : 8 + r.name.length ≤ r.minLen := hrb.2.1
  -- the bytes that change lie in the record that is split, behind its fixed part and name
  have hout : ∀ i, (i < totalLen l + 4 ∨ totalLen l + 6 ≤ i ∧ i < totalLen l + r.minLen ∨
      totalLen l + r.recLen ≤ i) → splitDirent blk (totalLen l) ino fileType name i = blk i := by
    intro i hi
    unfold splitDirent
    rw [hlen, hmineq, putDirent_out (by omega)]
    unfold Mem.wr16
    rw [Mem.write_out (by omega), Mem.write_out (by omega)]
  have hlenOut : ∀ i, i < 8 + r.name.length →
      splitDirent blk (totalLen l) ino fileType name (totalLen l + i)
        = blk.wr16 (totalLen l + 4) r.minLen (totalLen l + i) := by
    intro i hi
    unfold splitDirent
    rw [hlen, hmineq, putDirent_out (by omega), Mem.write_out (by omega)]
  refine tiles_append.mpr ⟨?_, ?_⟩
  · rw [Nat.zero_add]
    exact hl.congr (fun i _ hi => hout i (by omega))
  rw [Nat.zero_add]
  refine ⟨?_, ⟨hrb.1, Nat.le_refl _⟩, ?_, ⟨?_, ?_⟩, ?_⟩
  · have hcut := @recAt_wr16 blk (totalLen l) r.minLen (by omega)
    rw [hrec] at hcut
    rw [← hcut]
    refine recAt_congr (fun i hi => hlenOut i ?_)
    rw [← recAt_name_length, hcut] at hi
    exact hi
  · show recAt (splitDirent blk (totalLen l) ino fileType name) (totalLen l + r.minLen) = _
    unfold splitDirent
    rw [hlen, hmineq, recAt_putDirent hname, Nat.mod_eq_of_lt hino, Nat.mod_eq_of_lt (by omega),
      Nat.mod_eq_of_lt htype]
  · have h₁ := hok.mult
    have h₂ : r.minLen % 4 = 0 := hrb.1
    show (r.recLen - r.minLen) % 4 = 0
    omega
  · show direntMinRecLen name.length ≤ r.recLen - r.minLen
    omega
  · show Tiles _ (totalLen l + r.minLen + (r.recLen - r.minLen)) rs stop
    rw [show totalLen l + r.minLen + (r.recLen - r.minLen) = totalLen l + r.recLen by omega]
    exact hrs.congr (fun i hi _ => hout i (by omega))

/-- `removeDirent` of a record with one before it: that one grows over it. -/
theorem tiles_merge (h : Tiles blk 0 (l ++ p :: r :: rs) stop) (hstop : stop < 65536) :
    Tiles (removeDirent blk (some (totalLen l)) (totalLen l + p.recLen)) 0
      (l ++ { p with recLen := p.recLen + r.recLen } :: rs) stop := by
  obtain ⟨hl, hp, hpok, hr, hrok, hrs⟩ := tiles_append.mp h
  rw [Nat.zero_add] at hl hp hr hrs
  have hend := hrs.le
  have hname := hpok.name_le
  have hplen : deRecLen blk (totalLen l) = p.recLen := congrArg DirRec.recLen hp
  have hrlen : deRecLen blk (totalLen l + p.recLen) = r.recLen := congrArg DirRec.recLen hr
  show Tiles (blk.wr16 (totalLen l + 4)
    (deRecLen blk (totalLen l) + deRecLen blk (totalLen l + p.recLen))) 0 _ stop
  rw [hplen, hrlen]
  refine tiles_append.mpr ⟨?_, ?_⟩
  · rw [Nat.zero_add]
    exact hl.congr (fun i _ hi => Mem.write_out (by omega))
  rw [Nat.zero_add]
  refine ⟨?_, ⟨?_, ?_⟩, ?_⟩
  · rw [recAt_wr16 (by omega), hp]
  · have h₁ := hpok.mult
    have h₂ := hrok.mult
    show (p.recLen + r.recLen) % 4 = 0
    omega
  · exact Nat.le_trans hpok.min (Nat.le_add_right _ _)
  · show Tiles _ (totalLen l + (p.recLen + r.recLen)) rs stop
    rw [← Nat.add_assoc]
    exact hrs.congr (fun i hi _ => Mem.write_out (by omega))

/-- `removeDirent` of the first record of a block. -/
theorem tiles_clear (h : Tiles blk 0 (r :: rs) stop) :
    Tiles (removeDirent blk none 0) 0 ({ r with ino := 0 } :: rs) stop := by
  obtain ⟨hrec, hok, hrs⟩ := h
  have hname := hok.name_le
  refine ⟨?_, ⟨hok.mult, hok.min⟩, hrs.congr (fun i hi _ => Mem.write_out (by omega))⟩
  unfold removeDirent
  rw [recAt_wr32, hrec]

end Change

/-! ## Directories -/

/-- The blocks of a directory can be read and are tiled by these records. -/
def BlocksTiled (d : Vblk) (bs : Nat) (blocks : List Nat) (rss : List (List DirRec)) : Prop :=
  List.Forall₂ (fun b rs => ∃ blk, preadBlock d bs b bs = .ok blk ∧ Tiles blk 0 rs bs) blocks rss

section Directory

variable {d : Vblk} {bs : Nat} {blocks : List Nat} {rss : List (List DirRec)} {name : Text}

theorem findBlock_of_tiled (h : BlocksTiled d bs blocks rss) (hbs : 0 < bs) (code : Int) :
    ∃ found, findBlock d bs code (fun blk => (positions bs blk).find? (deMatches name blk)) blocks
        = .ok found ∧
      found.map (fun f => (deInode f.2.1 f.2.2, deFileType f.2.1 f.2.2)) = lookup rss.flatten name := by
  induction h with
  | nil => exact ⟨none, rfl, rfl⟩
  | @cons b rs blocks rss hb _ ih =>
      obtain ⟨blk, hread, htiles⟩ := hb
      have hfind := find_matches_of_tiles htiles hbs name
      rw [List.flatten_cons, lookup_append, ← hfind, findBlock,
        Prog.except_bind_of_ok (Prog.orCode_of_ok hread)]
      cases (positions bs blk).find? (deMatches name blk) with
      | some i => exact ⟨some (b, blk, i), rfl, rfl⟩
      | none => exact ih

/-- In a tiled directory `ext2_find_entry_at` is the lookup among its records. -/
theorem ext2FindEntryAt_of_tiled {m : Ext2Meta} {dirIno : Nat} {dir : Inode}
    (hdir : ext2ReadInodeAt d m dirIno = .ok dir) (hmode : ifmt dir.iMode = sIfdir)
    (hbs : 0 < m.blockSize) (hbs' : m.blockSize ≤ 4096)
    (h : BlocksTiled d m.blockSize (dirBlocks dir) rss) (hname : name ≠ [])
    (hlen : name.length ≤ 255) : ext2FindEntryAt d m dirIno name = .ok (lookup rss.flatten name) := by
  obtain ⟨found, hfound, hmap⟩ := @findBlock_of_tiled _ _ _ _ name h hbs (-6)
  unfold ext2FindEntryAt
  rw [Prog.except_bind_of_ok (Prog.check_of_not hname),
    Prog.except_bind_of_ok (Prog.orCode_of_ok hdir),
    Prog.except_bind_of_ok (Prog.check_of_not (not_not.mpr hmode)),
    Prog.except_bind_of_ok (Prog.check_of_not (by omega)),
    Prog.except_bind_of_ok (Prog.check_of_not (by omega)), Prog.except_bind_of_ok hfound, hmap]

end Directory

end Guppy.Ext2
