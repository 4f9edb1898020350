import Guppy.Iso.Links
import Guppy.Iso.Names
import Guppy.Iso.Walk
import Guppy.Lib.Traced

set_option autoImplicit false

/-! # What the directory loops read of a sector

`iso_walk_component` and `iso_dir_getdents64` read a directory sector into a buffer of 2048 bytes and decode
records in it. Here the two functions are written out with the positions in the buffer that they read. Where
C stops reading in the middle of a condition, or copies only a part of an entry, the whole of it counts, if
it lies inside the record.

The fixed fields are read before the length of the record has been checked against them.
`component_reads_iff` and `getdents_reads_iff` say for which records this goes beyond the buffer.
-/

namespace Guppy.Iso

open Vfs

/-! ## Reading -/

abbrev SectorReads := Traced Nat

abbrev readByte (s : List UInt8) (i : Nat) : SectorReads Nat := ⟨byteAt s i, [i]⟩

abbrev readBytes (s : List UInt8) (i n : Nat) : SectorReads (List UInt8) := ⟨(s.drop i).take n, List.range' i n⟩

/-- `u32le` -/
abbrev read32 (s : List UInt8) (i : Nat) : SectorReads Nat := ⟨u32At s i, List.range' i 4⟩

/-- Only bytes of the buffer are read. -/
def InSector {α : Type} (t : SectorReads α) : Prop := t.Every (· < sectorSize)

/-! ## The code -/

/-- Whether the identifier is that of the directory itself or of its parent. -/
def specialReads (s : List UInt8) (off idLen : Nat) : SectorReads Bool :=
  if idLen = 1 then do
    let c ← readByte s (off + 33)
    pure (c = 0 ∨ c = 1)
  else pure false

/-- The loop of `iso_dir_record_name` over the system use entries. -/
def rrNameReads (s : List UInt8) (off len : Nat) : Nat → Nat → Option Text → SectorReads (Option Text)
  | 0, _, acc => pure acc
  | fuel + 1, pos, acc =>
      if len < pos + 4 then pure acc
      else do
        let slen ← readByte s (off + pos + 2)
        if slen < 4 ∨ len < pos + slen then pure acc
        else do
          let n ← readByte s (off + pos)
          let m ← readByte s (off + pos + 1)
          if n = 78 ∧ m = 77 ∧ 5 ≤ slen then do
            let flags ← readByte s (off + pos + 4)
            if flags.testBit 1 = true then pure (some [46])
            else if flags.testBit 2 = true then pure (some [46, 46])
            else do
              let part ← readBytes s (off + pos + 5) (slen - 5)
              let acc := (acc.getD [] ++ part).take 255
              if flags.testBit 0 = true then rrNameReads s off len fuel (pos + slen) (some acc) else pure (some acc)
          else rrNameReads s off len fuel (pos + slen) acc

/-- `iso_sua_offset` -/
def suaOffset (idLen : Nat) : Nat := 33 + idLen + (if idLen % 2 = 0 then 1 else 0)

/-- `iso_dir_record_name` on the record at a position, with a buffer of 256 bytes. -/
def recordNameReads (iso : Image) (s : List UInt8) (off : Nat) : SectorReads (Option (Text × Bool)) := do
  let len ← readByte s off
  if len < 34 then pure none
  else do
    let idLen ← readByte s (off + 32)
    if len < 33 + idLen then pure none
    else do
      let special ← specialReads s off idLen
      if special = true then do
        let c ← readByte s (off + 33)
        pure (some (if c = 0 then [46] else [46, 46], false))
      else do
        let pos := suaOffset idLen + iso.suspSkip
        let nm ← Traced.orPure (iso.suspEnabled = true ∧ suaOffset idLen ≤ len ∧ pos ≤ len)
          (rrNameReads s off len len pos none) none
        match nm with
        | some name => pure (some (cText name, true))
        | none => do
            let id ← readBytes s (off + 33) idLen
            let name := cText (isoNormalizeName id)
            pure (if name = [] then none else some (name, false))

section

variable {σ : Type}

/-- `rr_walk_su_area` on the area of a record that ends at `stop`. The continuation areas are in buffers of
their own. -/
def suAreaReads (iso : Image) (visit : Visit σ) (s : List UInt8) (stop : Nat) : Nat → Nat → Nat → σ → SectorReads σ
  | 0, _, _, ctx => pure ctx
  | fuel + 1, pos, budget, ctx =>
      if stop < pos + 4 then pure ctx
      else do
        let slen ← readByte s (pos + 2)
        if slen < 4 ∨ stop < pos + slen then pure ctx
        else do
          let su ← readBytes s pos slen
          let v := visit ctx su
          if v.1 = false then pure v.2
          else
            let w := nestedWalk iso visit 0 budget su v.2
            if w.ok = false ∨ isSt su = true then pure w.ctx
            else suAreaReads iso visit s stop fuel (pos + slen) w.budget w.ctx

/-- `rr_walk_record_su` on the record at a position. -/
def recordSuReads (iso : Image) (visit : Visit σ) (s : List UInt8) (off : Nat) (ctx : σ) : SectorReads σ :=
  if iso.suspEnabled = false then pure ctx
  else do
    let len ← readByte s off
    if len < 34 then pure ctx
    else do
      let idLen ← readByte s (off + 32)
      let pos := suaOffset idLen + iso.suspSkip
      if len < suaOffset idLen ∨ len < pos then pure ctx
      else suAreaReads iso visit s (off + len) len (off + pos) ceMaxBytes ctx

end

/-- `rr_tf_visit`: it decodes a copy of the entry. -/
def rrTfVisit : Visit (Option (List UInt8)) := fun tf su =>
  if byteAt su 0 = 84 ∧ byteAt su 1 = 70 ∧ byteAt su 3 = 1 ∧ 5 ≤ su.length ∧ 34 + su.length ≤ 255 then (false, some su)
  else (true, tf)

/-- Which results the caller of `iso_walk_component` asks for. -/
structure Wanted where
  mtime : Bool
  px : Bool
  tf : Bool
  slCap : Nat

/-- What `iso_walk_component` reads of the record that it has found. -/
def foundReads (iso : Image) (w : Wanted) (s : List UInt8) (off : Nat) : SectorReads Unit := do
  let _ ← Traced.orPure (w.mtime = true) (readBytes s (off + 18) 6) []
  let _ ← Traced.orPure (w.px = true) (recordSuReads iso rrPxVisit s off none) none
  let _ ← Traced.orPure (w.tf = true) (recordSuReads iso rrTfVisit s off none) none
  let _ ← Traced.orPure (w.slCap ≠ 0) (recordSuReads iso (rrSlVisit w.slCap) s off ⟨[], false, false⟩) ⟨[], false, false⟩
  pure ()

/-- The loop of `iso_walk_component` over the records of a sector. The debugging line prints the identifier. -/
def walkSectorReads (iso : Image) (want : Text) (w : Wanted) (s : List UInt8) : Nat → Nat → Nat → SectorReads SectorWalk
  | 0, _, left => pure (.next left)
  | fuel + 1, off, left =>
      if off < sectorSize ∧ 0 < left then do
        let len ← readByte s off
        if len = 0 then pure (.next left)
        else if sectorSize < off + len then pure (.done .failed)
        else do
          let lba ← read32 s (off + 2)
          let size ← read32 s (off + 10)
          let flags ← readByte s (off + 25)
          let idLen ← readByte s (off + 32)
          if off + len < 33 + idLen then pure (.done .failed)
          else do
            let special ← specialReads s off idLen
            let name ← recordNameReads iso s off
            match name with
            | none => pure (.done .failed)
            | some name => do
                let _ ← readBytes s (off + 33) idLen
                if special = false ∧ nameMatch want name = true then do
                  foundReads iso w s off
                  pure (.done (.found ⟨lba, size, flags⟩))
                else walkSectorReads iso want w s fuel (off + len) (left - len)
      else pure (.next left)

/-- The loop over the sectors. -/
def walkSectorsReads (iso : Image) (want : Text) (w : Wanted) : Nat → UInt32 → Nat → SectorReads WalkResult
  | 0, _, _ => pure .running
  | fuel + 1, lba, left =>
      if left = 0 then pure .absent
      else
        match iso.read lba with
        | none => pure .failed
        | some s => do
            let walked ← walkSectorReads iso want w s (sectorSize + 1) 0 left
            match walked with
            | .done r => pure r
            | .next left => walkSectorsReads iso want w fuel (lba + 1) left

/-- The entry that the listing makes of the fields of a record. -/
def direntFor (ino next flags : Nat) (name : Text × Bool) (special : Bool) : Dirent :=
  let text := if name.2 = false ∧ special = false then name.1.map toUpperAscii else name.1
  ⟨ino, next, (19 + text.length + 1 + 7) / 8 * 8, if flags.testBit 1 = true then 4 else 8, text⟩

/-- The loop of `iso_dir_getdents64`. -/
def getdentsReads (iso : Image) (base : UInt32) (dsz bytes start : Nat) : Nat → Nat → Nat → List Dirent → SectorReads Listed
  | 0, pos, written, out => pure ⟨written, out, pos⟩
  | fuel + 1, pos, written, out =>
      if pos < dsz then
        match iso.read (base + UInt32.ofNat (pos / sectorSize)) with
        | none => pure (if 0 < written then ⟨written, out, start⟩ else ⟨-5, [], start⟩)
        | some s => do
            let so := pos % sectorSize
            let len ← readByte s so
            if len = 0 ∨ sectorSize < so + len then
              getdentsReads iso base dsz bytes start fuel (sectorSize * (pos / sectorSize + 1)) written out
            else do
              let idLen ← readByte s (so + 32)
              let ino ← read32 s (so + 2)
              let _ ← read32 s (so + 10)
              let flags ← readByte s (so + 25)
              let name ← recordNameReads iso s so
              match name with
              | none => getdentsReads iso base dsz bytes start fuel (pos + len) written out
              | some name => do
                  let special ← Traced.orPure (name.2 = false) (specialReads s so idLen) false
                  let de := direntFor ino (pos + len) flags name special
                  if bytes < written + de.reclen then pure ⟨written, out, pos⟩
                  else getdentsReads iso base dsz bytes start fuel (pos + len) (written + de.reclen) (out ++ [de])
      else pure ⟨written, out, pos⟩

/-! ## The results are those of the plain functions -/

theorem recLen_drop (s : List UInt8) (off : Nat) : recLen (s.drop off) = byteAt s off := byteAt_drop s off 0

theorem u32At_drop (s : List UInt8) (off i : Nat) : u32At (s.drop off) i = u32At s (off + i) := by
  simp [u32At, byteAt_drop, Nat.add_assoc]

theorem specialReads_value (s : List UInt8) (off : Nat) :
    (specialReads s off (byteAt s (off + 32))).value = isSpecial (s.drop off) := by
  unfold specialReads isSpecial
  rw [byteAt_drop, byteAt_drop]
  by_cases h : byteAt s (off + 32) = 1
  · rw [if_pos h, Traced.value_bind, Traced.value_pure]
    exact decide_eq_decide.mpr ⟨fun hc => ⟨h, hc⟩, fun hc => hc.2⟩
  · rw [if_neg h, Traced.value_pure]
    exact (decide_eq_false fun hc => h hc.1).symm

theorem rrNameReads_value (s : List UInt8) (off : Nat) (fuel : Nat) : ∀ {pos : Nat} {acc : Option Text},
    (rrNameReads s off (byteAt s off) fuel pos acc).value = rrName (s.drop off) fuel pos acc := by
  induction fuel with
  | zero => exact fun {_ _} => rfl
  | succ fuel ih =>
      intro pos acc
      unfold rrNameReads rrName
      simp only [recLen_drop, byteAt_drop, List.drop_drop, ← Nat.add_assoc]
      simp only [Traced.value_bind, Traced.value_ite, Traced.value_orPure, Traced.value_pure]
      simp only [ih]

theorem recordNameReads_value (iso : Image) (s : List UInt8) (off : Nat) :
    (recordNameReads iso s off).value = isoDirRecordName iso (s.drop off) := by
  have hspecial := specialReads_value s off
  have hnm : ∀ len pos, len = byteAt s off → (rrNameReads s off len len pos none).value =
      rrName (s.drop off) len pos none := by
    rintro len pos rfl
    exact rrNameReads_value s off _
  have hsua : suaOffset (byteAt s (off + 32)) = isoSuaOffset (s.drop off) := by
    unfold suaOffset isoSuaOffset
    rw [byteAt_drop]
  unfold recordNameReads isoDirRecordName rockRidgeName
  simp only [recLen_drop, byteAt_drop, List.drop_drop]
  simp only [Traced.value_bind, Traced.value_ite, Traced.value_orPure, Traced.value_pure]
  simp only [hsua, hspecial, hnm]
  by_cases hlen : byteAt s off < 34
  · rw [if_pos hlen, if_pos (Or.inl hlen)]
  rw [if_neg hlen]
  by_cases hid : byteAt s off < 33 + byteAt s (off + 32)
  · rw [if_pos hid, if_pos (Or.inr hid)]
  rw [if_neg hid, if_neg (not_or.mpr ⟨hlen, hid⟩)]
  cases hdots : isSpecial (s.drop off) with
  | true =>
      obtain ⟨hone, hbyte⟩ := of_decide_eq_true hdots
      rw [byteAt_drop] at hone hbyte
      rw [if_pos rfl]
      by_cases hzero : byteAt s (off + 33) = 0
      · rw [if_pos hzero, if_pos ⟨hone, hzero⟩]
      · rw [if_neg hzero, if_neg fun h => hzero h.2, if_pos ⟨hone, hbyte.resolve_left hzero⟩]
  | false =>
      have hplain := of_decide_eq_false hdots
      rw [byteAt_drop, byteAt_drop] at hplain
      have hdot : ¬ (byteAt s (off + 32) = 1 ∧ byteAt s (off + 33) = 0) := fun h => hplain ⟨h.1, Or.inl h.2⟩
      have hdotdot : ¬ (byteAt s (off + 32) = 1 ∧ byteAt s (off + 33) = 1) := fun h => hplain ⟨h.1, Or.inr h.2⟩
      rw [if_neg Bool.noConfusion, if_neg hdot, if_neg hdotdot]
      by_cases hnames : iso.suspEnabled = true ∧ isoSuaOffset (s.drop off) ≤ byteAt s off ∧
          isoSuaOffset (s.drop off) + iso.suspSkip ≤ byteAt s off
      · rw [if_pos hnames]
        cases rrName (s.drop off) (byteAt s off) (isoSuaOffset (s.drop off) + iso.suspSkip) none with
        | none => rfl
        | some name => rfl
      · rw [if_neg hnames]
        rfl

theorem walkSectorReads_value (iso : Image) (want : Text) (w : Wanted) (s : List UInt8) (fuel : Nat) : ∀ {off left : Nat},
    (walkSectorReads iso want w s fuel off left).value = walkSector iso want s fuel off left := by
  induction fuel with
  | zero => exact fun {_ _} => rfl
  | succ fuel ih =>
      intro off left
      have hspecial := specialReads_value s off
      have hname := recordNameReads_value iso s off
      unfold walkSectorReads walkSector childOf
      simp only [recLen_drop, byteAt_drop, u32At_drop]
      simp only [Traced.value_bind, Traced.value_ite, Traced.value_orPure, Traced.value_pure]
      simp only [hspecial, hname]
      cases hdec : isoDirRecordName iso (s.drop off) with
      | none => rfl
      | some name =>
          simp only [Traced.value_bind, Traced.value_ite, Traced.value_pure, ih]

theorem walkSectorsReads_value (iso : Image) (want : Text) (w : Wanted) (fuel : Nat) : ∀ {lba : UInt32} {left : Nat},
    (walkSectorsReads iso want w fuel lba left).value = walkSectors iso want fuel lba left := by
  induction fuel with
  | zero => exact fun {_ _} => rfl
  | succ fuel ih =>
      intro lba left
      unfold walkSectorsReads walkSectors
      rw [Traced.value_ite]
      congr 1
      cases iso.read lba with
      | none => rfl
      | some s =>
          dsimp only []
          rw [Traced.value_bind, walkSectorReads_value]
          cases walkSector iso want s (sectorSize + 1) 0 left with
          | done r => rfl
          | next left => exact ih

/-- The entry from the fields in the sector. -/
theorem direntOf_drop (iso : Image) (pos : Nat) (s : List UInt8) (off : Nat) : direntOf iso pos (s.drop off) =
    (isoDirRecordName iso (s.drop off)).map fun name => direntFor (u32At s (off + 2)) (pos + byteAt s off)
      (byteAt s (off + 25)) name (if name.2 = false then isSpecial (s.drop off) else false) := by
  unfold direntOf direntFor
  rw [u32At_drop, recLen_drop, byteAt_drop]
  congr 1
  funext name
  obtain ⟨text, rockRidge⟩ := name
  cases rockRidge with
  | false => rfl
  | true => rfl

theorem getdentsReads_value (iso : Image) (base : UInt32) (dsz bytes start : Nat) (fuel : Nat) :
    ∀ {pos written : Nat} {out : List Dirent}, (getdentsReads iso base dsz bytes start fuel pos written out).value =
      getdentsLoop iso base dsz bytes start fuel pos written out := by
  induction fuel with
  | zero => exact fun {_ _ _} => rfl
  | succ fuel ih =>
      intro pos written out
      unfold getdentsReads getdentsLoop
      rw [Traced.value_ite]
      congr 1
      cases hread : iso.read (base + UInt32.ofNat (pos / sectorSize)) with
      | none => rfl
      | some s =>
          have hspecial := specialReads_value s (pos % sectorSize)
          have hname := recordNameReads_value iso s (pos % sectorSize)
          dsimp only []
          rw [direntOf_drop]
          simp only [recLen_drop]
          simp only [Traced.value_bind, Traced.value_ite, Traced.value_pure]
          simp only [hname, ih]
          cases hdec : isoDirRecordName iso (s.drop (pos % sectorSize)) with
          | none => simp only [Option.map_none, ih]
          | some name =>
              simp only [Option.map_some]
              simp only [Traced.value_bind, Traced.value_ite, Traced.value_orPure, Traced.value_pure]
              simp only [hspecial, ih]

/-- `iso_walk_component` -/
def isoWalkComponentReads (iso : Image) (w : Wanted) (fuel : Nat) (dirLba dirSize : UInt32) (want : Text) :
    SectorReads WalkResult := walkSectorsReads iso want w fuel dirLba dirSize.toNat

/-- `iso_dir_getdents64` -/
def isoDirGetdents64Reads (iso : Image) (base dsz : UInt32) (bytes pos : Nat) : SectorReads Listed :=
  if bytes < 21 then pure ⟨-22, [], pos⟩
  else getdentsReads iso base dsz.toNat bytes pos (dsz.toNat + 1) pos 0 []

/-- The functions with their reads return what the plain ones return. -/
theorem reads_value (iso : Image) (base size : UInt32) :
    (∀ fuel want w, (isoWalkComponentReads iso w fuel base size want).value = isoWalkComponent iso fuel base size want) ∧
    ∀ bytes pos, (isoDirGetdents64Reads iso base size bytes pos).value = isoDirGetdents64 iso base size bytes pos := by
  constructor
  · intro fuel want w
    exact walkSectorsReads_value iso want w fuel
  · intro bytes pos
    unfold isoDirGetdents64Reads isoDirGetdents64
    rw [Traced.value_ite, getdentsReads_value]
    rfl

/-! ## Reads inside a record -/

@[simp] theorem inSector_pure {α : Type} (a : α) : InSector (pure a : SectorReads α) := Traced.every_pure a

@[simp] theorem inSector_bind {α β : Type} (t : SectorReads α) (f : α → SectorReads β) :
    InSector (t >>= f) ↔ InSector t ∧ InSector (f t.value) := Traced.every_bind t f

/-- Reading a byte and going on with it. -/
theorem inSector_byte {α : Type} (s : List UInt8) (i : Nat) (f : Nat → SectorReads α) :
    InSector (readByte s i >>= f) ↔ i < sectorSize ∧ InSector (f (byteAt s i)) := by
  rw [inSector_bind]
  apply and_congr_left'
  simp [InSector, Traced.Every]

theorem readBytes_inSector {s : List UInt8} {i n : Nat} (h : n = 0 ∨ i + n ≤ sectorSize) : InSector (readBytes s i n) := by
  intro e he
  have hmem : i ≤ e ∧ e < i + n := List.mem_range'_1.mp he
  show e < sectorSize
  omega

theorem inSector_bytes {α : Type} (s : List UInt8) (i n : Nat) (f : List UInt8 → SectorReads α) :
    InSector (readBytes s i n >>= f) ↔ (n = 0 ∨ i + n ≤ sectorSize) ∧ InSector (f ((s.drop i).take n)) := by
  rw [inSector_bind]
  apply and_congr_left'
  constructor
  · intro h
    cases n with
    | zero => exact Or.inl rfl
    | succ n =>
        have hlast : i + n < sectorSize := h (i + n) (List.mem_range'_1.mpr ⟨Nat.le_add_right _ _, by omega⟩)
        exact Or.inr hlast
  · exact readBytes_inSector

theorem inSector_32 {α : Type} (s : List UInt8) (i : Nat) (f : Nat → SectorReads α) :
    InSector (read32 s i >>= f) ↔ i + 4 ≤ sectorSize ∧ InSector (f (u32At s i)) := by
  have h := inSector_bytes s i 4 fun _ => f (u32At s i)
  rw [show (4 = 0 ∨ i + 4 ≤ sectorSize) = (i + 4 ≤ sectorSize) by simp] at h
  exact h

theorem specialReads_inSector {s : List UInt8} {off idLen : Nat} :
    InSector (specialReads s off idLen) ↔ (idLen = 1 → off + 33 < sectorSize) := by
  unfold specialReads
  split
  · rename_i h
    rw [inSector_byte]
    exact ⟨fun hc _ => hc.1, fun hc => ⟨hc h, inSector_pure _⟩⟩
  · rename_i h
    exact iff_of_true (inSector_pure _) fun hone => absurd hone h

theorem rrNameReads_inSector {s : List UInt8} {off len : Nat} (h : off + len ≤ sectorSize) (fuel : Nat) :
    ∀ {pos : Nat} {acc : Option Text}, InSector (rrNameReads s off len fuel pos acc) := by
  induction fuel with
  | zero => exact fun {_ _} => inSector_pure _
  | succ fuel ih =>
      intro pos acc
      unfold rrNameReads
      split
      · exact inSector_pure _
      · rw [inSector_byte]
        refine ⟨by omega, ?_⟩
        split
        · exact inSector_pure _
        · rename_i hslen
          rw [inSector_byte, inSector_byte]
          refine ⟨by omega, by omega, ?_⟩
          split
          · rename_i hnm
            rw [inSector_byte]
            refine ⟨by omega, ?_⟩
            split
            · exact inSector_pure _
            · split
              · exact inSector_pure _
              · rw [inSector_bytes]
                refine ⟨by omega, ?_⟩
                dsimp only []
                split
                · exact ih
                · exact inSector_pure _
          · exact ih

/-- Once the length has been read, the name is decoded inside the record. -/
theorem recordNameReads_inSector {iso : Image} {s : List UInt8} {off : Nat} (hoff : off < sectorSize)
    (h : off + byteAt s off ≤ sectorSize) : InSector (recordNameReads iso s off) := by
  unfold recordNameReads
  rw [inSector_byte]
  refine ⟨hoff, ?_⟩
  split
  · exact inSector_pure _
  · rename_i hlen
    rw [inSector_byte]
    refine ⟨by omega, ?_⟩
    split
    · exact inSector_pure _
    · rename_i hid
      rw [inSector_bind, specialReads_inSector]
      refine ⟨fun _ => by omega, ?_⟩
      split
      · rw [inSector_byte]
        exact ⟨by omega, inSector_pure _⟩
      · dsimp only []
        rw [inSector_bind]
        constructor
        · exact Traced.every_orPure _ fun _ => rrNameReads_inSector h _
        · split
          · exact inSector_pure _
          · rw [inSector_bytes]
            exact ⟨Or.inr (by omega), inSector_pure _⟩

theorem suAreaReads_inSector {σ : Type} {iso : Image} {visit : Visit σ} {s : List UInt8} {stop : Nat} (h : stop ≤ sectorSize)
    (fuel : Nat) : ∀ {pos budget : Nat} {ctx : σ}, InSector (suAreaReads iso visit s stop fuel pos budget ctx) := by
  induction fuel with
  | zero => exact fun {_ _ _} => inSector_pure _
  | succ fuel ih =>
      intro pos budget ctx
      unfold suAreaReads
      split
      · exact inSector_pure _
      · rw [inSector_byte]
        refine ⟨by omega, ?_⟩
        split
        · exact inSector_pure _
        · rename_i hslen
          rw [inSector_bytes]
          refine ⟨Or.inr (by omega), ?_⟩
          dsimp only []
          split
          · exact inSector_pure _
          · split
            · exact inSector_pure _
            · exact ih

theorem recordSuReads_inSector {σ : Type} {iso : Image} {visit : Visit σ} {s : List UInt8} {off : Nat} {ctx : σ}
    (hoff : off < sectorSize) (h : off + byteAt s off ≤ sectorSize) : InSector (recordSuReads iso visit s off ctx) := by
  unfold recordSuReads
  split
  · exact inSector_pure _
  · rw [inSector_byte]
    refine ⟨hoff, ?_⟩
    split
    · exact inSector_pure _
    · rename_i hlen
      rw [inSector_byte]
      refine ⟨by omega, ?_⟩
      dsimp only []
      split
      · exact inSector_pure _
      · exact suAreaReads_inSector h _

theorem foundReads_inSector {iso : Image} {w : Wanted} {s : List UInt8} {off : Nat} (hlen : 34 ≤ byteAt s off)
    (h : off + byteAt s off ≤ sectorSize) : InSector (foundReads iso w s off) := by
  have hoff : off < sectorSize := by omega
  unfold foundReads
  simp only [inSector_bind]
  refine ⟨?_, ?_, ?_, ?_, inSector_pure _⟩
  · exact Traced.every_orPure _ fun _ => readBytes_inSector (Or.inr (by omega))
  · exact Traced.every_orPure _ fun _ => recordSuReads_inSector hoff h
  · exact Traced.every_orPure _ fun _ => recordSuReads_inSector hoff h
  · exact Traced.every_orPure _ fun _ => recordSuReads_inSector hoff h

/-! ## The records that the loops come to -/

/-- What both loops ask of a record before they read its fields: it is not empty, and it ends in the sector. -/
def IsRecord (s : List UInt8) (off : Nat) : Prop := byteAt s off ≠ 0 ∧ off + byteAt s off ≤ sectorSize

/-- From a position on, with so many bytes of the directory left, the lookup comes to the record at `p`. -/
inductive WalkComes (iso : Image) (want : Text) (s : List UInt8) : Nat → Nat → Nat → Prop
  | here {off left : Nat} (hoff : off < sectorSize) (hleft : 0 < left) (h : IsRecord s off) : WalkComes iso want s off left off
  | past {off left p : Nat} {name : Text × Bool} (hoff : off < sectorSize) (hleft : 0 < left) (h : IsRecord s off)
      (hid : 33 + byteAt s (off + 32) ≤ off + byteAt s off) (hname : isoDirRecordName iso (s.drop off) = some name)
      (hno : ¬ (isSpecial (s.drop off) = false ∧ nameMatch want name = true))
      (hto : WalkComes iso want s (off + byteAt s off) (left - byteAt s off) p) : WalkComes iso want s off left p

/-- From a sector on, the lookup comes to the record at `off` of a sector with the content `s`. -/
inductive WalkVisits (iso : Image) (want : Text) : UInt32 → Nat → List UInt8 → Nat → Prop
  | here {lba : UInt32} {left off : Nat} {s : List UInt8} (hleft : left ≠ 0) (hs : iso.read lba = some s)
      (h : WalkComes iso want s 0 left off) : WalkVisits iso want lba left s off
  | later {lba : UInt32} {left rest off : Nat} {s s' : List UInt8} (hleft : left ≠ 0) (hs : iso.read lba = some s')
      (hnext : walkSector iso want s' (sectorSize + 1) 0 left = .next rest) (h : WalkVisits iso want (lba + 1) rest s off) :
      WalkVisits iso want lba left s off

/-- From a position on, with so many bytes in the buffer, the listing comes to the record at `off` of a sector
with the content `s`. -/
inductive ListComes (iso : Image) (base : UInt32) (dsz bytes : Nat) : Nat → Nat → List UInt8 → Nat → Prop
  | here {pos written : Nat} {s : List UInt8} (hpos : pos < dsz) (hs : sectorAt iso base pos = some s)
      (h : IsRecord s (pos % sectorSize)) : ListComes iso base dsz bytes pos written s (pos % sectorSize)
  | skip {pos written off : Nat} {s s' : List UInt8} (hpos : pos < dsz) (hs : sectorAt iso base pos = some s')
      (hno : ¬ IsRecord s' (pos % sectorSize)) (h : ListComes iso base dsz bytes (nextSector pos) written s off) :
      ListComes iso base dsz bytes pos written s off
  | nameless {pos written off : Nat} {s s' : List UInt8} (hpos : pos < dsz) (hs : sectorAt iso base pos = some s')
      (hrec : IsRecord s' (pos % sectorSize)) (hname : direntOf iso pos (s'.drop (pos % sectorSize)) = none)
      (h : ListComes iso base dsz bytes (pos + byteAt s' (pos % sectorSize)) written s off) :
      ListComes iso base dsz bytes pos written s off
  | listed {pos written off : Nat} {s s' : List UInt8} {de : Dirent} (hpos : pos < dsz)
      (hs : sectorAt iso base pos = some s') (hrec : IsRecord s' (pos % sectorSize))
      (hname : direntOf iso pos (s'.drop (pos % sectorSize)) = some de) (hfit : written + de.reclen ≤ bytes)
      (h : ListComes iso base dsz bytes (pos + byteAt s' (pos % sectorSize)) (written + de.reclen) s off) :
      ListComes iso base dsz bytes pos written s off

/-- The fields up to the length of the identifier lie in the sector, and so does an identifier of one byte. -/
def WalkFits (s : List UInt8) (off : Nat) : Prop :=
  off + 33 ≤ sectorSize ∧ (byteAt s (off + 32) = 1 → off + 34 ≤ sectorSize)

theorem isRecord_iff {s : List UInt8} {off : Nat} :
    ¬ (byteAt s off = 0 ∨ sectorSize < off + byteAt s off) ↔ IsRecord s off := by
  unfold IsRecord
  omega

theorem WalkComes.isRecord {iso : Image} {want : Text} {s : List UInt8} {off left p : Nat}
    (h : WalkComes iso want s off left p) : off < sectorSize ∧ 0 < left ∧ IsRecord s off := by
  cases h with
  | here hoff hleft h => exact ⟨hoff, hleft, h⟩
  | past hoff hleft h => exact ⟨hoff, hleft, h⟩

/-- The lookup in a sector reads inside it, if all records that it comes to have their fields inside it. -/
theorem walkSectorReads_iff {iso : Image} {want : Text} {w : Wanted} {s : List UInt8} (fuel : Nat) : ∀ {off left : Nat},
    sectorSize < fuel + off → (InSector (walkSectorReads iso want w s fuel off left) ↔
      ∀ p, WalkComes iso want s off left p → WalkFits s p) := by
  induction fuel with
  | zero =>
      intro off left hfuel
      refine iff_of_true (inSector_pure _) fun p h => ?_
      have := h.isRecord.1
      omega
  | succ fuel ih =>
      intro off left hfuel
      unfold walkSectorReads
      have hsize : sectorSize = 2048 := rfl
      by_cases hlive : off < sectorSize ∧ 0 < left
      · rw [if_pos hlive, inSector_byte]
        by_cases hrec : IsRecord s off
        · have hne := hrec.1
          have hend := hrec.2
          rw [if_neg hne, if_neg (Nat.not_lt.mpr hend), inSector_32, inSector_32, inSector_byte, inSector_byte]
          have hhere : WalkComes iso want s off left off := .here hlive.1 hlive.2 hrec
          by_cases hid : off + byteAt s off < 33 + byteAt s (off + 32)
          · -- the lookup ends with this record
            rw [if_pos hid]
            constructor
            · rintro ⟨-, -, -, -, hbyte, -⟩ p hto
              cases hto with
              | here => exact ⟨by omega, fun hone => by omega⟩
              | past _ _ _ hid' => omega
            · intro h
              obtain ⟨hfit, -⟩ := h off hhere
              exact ⟨hlive.1, by omega, by omega, by omega, by omega, inSector_pure _⟩
          · rw [if_neg hid, inSector_bind, inSector_bind, specialReads_inSector, specialReads_value,
              recordNameReads_value]
            have hname := @recordNameReads_inSector iso s off hlive.1 hend
            cases hdec : isoDirRecordName iso (s.drop off) with
            | none =>
                constructor
                · rintro ⟨-, -, -, -, hbyte, hone, -⟩ p hto
                  cases hto with
                  | here => exact ⟨by omega, fun h => by have := hone h; omega⟩
                  | past _ _ _ _ hsome =>
                      rw [hdec] at hsome
                      cases hsome
                · intro h
                  obtain ⟨hfit, hone⟩ := h off hhere
                  exact ⟨hlive.1, by omega, by omega, by omega, by omega, fun hid => by have := hone hid; omega, hname,
                    inSector_pure _⟩
            | some name =>
                have hdecodable : Decodable iso (s.drop off) := by
                  unfold Decodable
                  rw [hdec]
                  exact Option.some_ne_none name
                obtain ⟨hlong, hidLen⟩ := hdecodable.idLen_le
                rw [recLen_drop] at hlong hidLen
                rw [byteAt_drop] at hidLen
                dsimp only []
                rw [inSector_bytes]
                -- a record with a name has its fields in the sector
                have hfits : WalkFits s off := ⟨by omega, fun _ => by omega⟩
                by_cases hmatch : isSpecial (s.drop off) = false ∧ nameMatch want name = true
                · rw [if_pos hmatch, inSector_bind]
                  refine iff_of_true ⟨hlive.1, by omega, by omega, by omega, by omega, fun _ => by omega, hname,
                    Or.inr (by omega), foundReads_inSector hlong hend, inSector_pure _⟩ fun p hto => ?_
                  cases hto with
                  | here => exact hfits
                  | past _ _ _ _ hsome hno =>
                      rw [hdec] at hsome
                      obtain rfl := Option.some.inj hsome
                      exact absurd hmatch hno
                · rw [if_neg hmatch, ih (by omega)]
                  constructor
                  · rintro ⟨-, -, -, -, -, -, -, -, hrest⟩ p hto
                    cases hto with
                    | here => exact hfits
                    | past _ _ _ _ _ _ hto => exact hrest p hto
                  · intro h
                    exact ⟨hlive.1, by omega, by omega, by omega, by omega, fun _ => by omega, hname, Or.inr (by omega),
                      fun p hto => h p (.past hlive.1 hlive.2 hrec (by omega) hdec hmatch hto)⟩
        · -- the loop ends
          refine iff_of_true ⟨hlive.1, ?_⟩ fun p hp => absurd hp.isRecord.2.2 hrec
          by_cases hzero : byteAt s off = 0
          · rw [if_pos hzero]
            exact inSector_pure _
          · rw [if_neg hzero, if_pos (by unfold IsRecord at hrec; omega)]
            exact inSector_pure _
      · rw [if_neg hlive]
        refine iff_of_true (inSector_pure _) fun p h => ?_
        exact absurd ⟨h.isRecord.1, h.isRecord.2.1⟩ hlive

/-- The lookup reads inside the sectors, if all records that it comes to have their fields inside their sector. -/
theorem component_reads_iff {iso : Image} {want : Text} {w : Wanted} {dirLba dirSize : UInt32} :
    (∀ fuel, InSector (isoWalkComponentReads iso w fuel dirLba dirSize want)) ↔
      ∀ s off, WalkVisits iso want dirLba dirSize.toNat s off → WalkFits s off := by
  unfold isoWalkComponentReads
  generalize dirSize.toNat = left
  generalize dirLba = lba
  have hsector : ∀ {s : List UInt8} {left : Nat}, InSector (walkSectorReads iso want w s (sectorSize + 1) 0 left) ↔
      ∀ p, WalkComes iso want s 0 left p → WalkFits s p := walkSectorReads_iff (sectorSize + 1) (by omega)
  constructor
  · intro h s off hvisit
    induction hvisit with
    | here hleft hs hcomes =>
        have hone := h 1
        unfold walkSectorsReads at hone
        rw [if_neg hleft, hs] at hone
        dsimp only [] at hone
        rw [inSector_bind, hsector] at hone
        exact hone.1 _ hcomes
    | @later lba left rest off s s' hleft hs hnext hvisit ih =>
        apply ih
        intro fuel
        have hmore := h (fuel + 1)
        unfold walkSectorsReads at hmore
        rw [if_neg hleft, hs] at hmore
        dsimp only [] at hmore
        rw [inSector_bind, walkSectorReads_value, hnext] at hmore
        exact hmore.2
  · intro h fuel
    induction fuel generalizing lba left with
    | zero => exact inSector_pure _
    | succ fuel ih =>
        unfold walkSectorsReads
        by_cases hleft : left = 0
        · rw [if_pos hleft]
          exact inSector_pure _
        · rw [if_neg hleft]
          cases hs : iso.read lba with
          | none => exact inSector_pure _
          | some s =>
              dsimp only []
              rw [inSector_bind, hsector, walkSectorReads_value]
              refine ⟨fun p hp => h s p (.here hleft hs hp), ?_⟩
              cases hnext : walkSector iso want s (sectorSize + 1) 0 left with
              | done r => exact inSector_pure _
              | next rest => exact ih _ _ fun s' off hvisit => h s' off (.later hleft hs hnext hvisit)

section

variable {iso : Image} {base : UInt32} {dsz bytes pos written off : Nat} {s t : List UInt8} (hpos : pos < dsz)
  (hs : sectorAt iso base pos = some s)

include hpos hs

theorem listComes_skip (hno : ¬ IsRecord s (pos % sectorSize)) :
    ListComes iso base dsz bytes pos written t off ↔ ListComes iso base dsz bytes (nextSector pos) written t off := by
  have hsame : ∀ {u}, sectorAt iso base pos = some u → u = s := fun h => Option.some.inj (h.symm.trans hs)
  constructor
  · intro h
    cases h with
    | here _ hs' hrec => exact absurd (hsame hs' ▸ hrec) hno
    | skip _ _ _ h => exact h
    | nameless _ hs' hrec => exact absurd (hsame hs' ▸ hrec) hno
    | listed _ hs' hrec => exact absurd (hsame hs' ▸ hrec) hno
  · exact ListComes.skip hpos hs hno

theorem listComes_nameless (hrec : IsRecord s (pos % sectorSize))
    (hname : direntOf iso pos (s.drop (pos % sectorSize)) = none) : ListComes iso base dsz bytes pos written t off ↔
      (t = s ∧ off = pos % sectorSize) ∨
        ListComes iso base dsz bytes (pos + byteAt s (pos % sectorSize)) written t off := by
  have hsame : ∀ {u}, sectorAt iso base pos = some u → u = s := fun h => Option.some.inj (h.symm.trans hs)
  constructor
  · intro h
    cases h with
    | here _ hs' => exact Or.inl ⟨hsame hs', rfl⟩
    | skip _ hs' hno => exact absurd hrec (hsame hs' ▸ hno)
    | nameless _ hs' _ _ h => exact Or.inr (hsame hs' ▸ h)
    | listed _ hs' _ hsome =>
        rw [hsame hs', hname] at hsome
        cases hsome
  · rintro (⟨rfl, rfl⟩ | h)
    · exact .here hpos hs hrec
    · exact .nameless hpos hs hrec hname h

theorem listComes_listed {de : Dirent} (hrec : IsRecord s (pos % sectorSize))
    (hname : direntOf iso pos (s.drop (pos % sectorSize)) = some de) : ListComes iso base dsz bytes pos written t off ↔
      (t = s ∧ off = pos % sectorSize) ∨ (written + de.reclen ≤ bytes ∧
        ListComes iso base dsz bytes (pos + byteAt s (pos % sectorSize)) (written + de.reclen) t off) := by
  have hsame : ∀ {u}, sectorAt iso base pos = some u → u = s := fun h => Option.some.inj (h.symm.trans hs)
  constructor
  · intro h
    cases h with
    | here _ hs' => exact Or.inl ⟨hsame hs', rfl⟩
    | skip _ hs' hno => exact absurd hrec (hsame hs' ▸ hno)
    | nameless _ hs' _ hnone =>
        rw [hsame hs', hname] at hnone
        cases hnone
    | listed _ hs' _ hsome hfit h =>
        obtain rfl := hsame hs'
        obtain rfl := Option.some.inj (hname.symm.trans hsome)
        exact Or.inr ⟨hfit, h⟩
  · rintro (⟨rfl, rfl⟩ | ⟨hfit, h⟩)
    · exact .here hpos hs hrec
    · exact .listed hpos hs hrec hname hfit h

end

theorem ListComes.inside {iso : Image} {base : UInt32} {dsz bytes pos written off : Nat} {s : List UInt8}
    (h : ListComes iso base dsz bytes pos written s off) : pos < dsz ∧ ∃ t, sectorAt iso base pos = some t := by
  cases h with
  | here hpos hs => exact ⟨hpos, _, hs⟩
  | skip hpos hs => exact ⟨hpos, _, hs⟩
  | nameless hpos hs => exact ⟨hpos, _, hs⟩
  | listed hpos hs => exact ⟨hpos, _, hs⟩

/-- The listing reads inside the sectors, if all records that it comes to have their fields inside their sector. -/
theorem getdentsReads_iff {iso : Image} {base : UInt32} {dsz bytes start : Nat} (fuel : Nat) :
    ∀ {pos written : Nat} {out : List Dirent}, dsz < fuel + pos →
      (InSector (getdentsReads iso base dsz bytes start fuel pos written out) ↔
        ∀ t off, ListComes iso base dsz bytes pos written t off → off + 33 ≤ sectorSize) := by
  induction fuel with
  | zero =>
      intro pos written out hfuel
      refine iff_of_true (inSector_pure _) fun t off h => ?_
      have := h.inside.1
      omega
  | succ fuel ih =>
      intro pos written out hfuel
      unfold getdentsReads
      by_cases hpos : pos < dsz
      · rw [if_pos hpos]
        cases hs : iso.read (base + UInt32.ofNat (pos / sectorSize)) with
        | none =>
            refine iff_of_true (inSector_pure _) fun t off h => ?_
            obtain ⟨-, u, hu⟩ := h.inside
            cases hs.symm.trans hu
        | some s =>
            have hat : sectorAt iso base pos = some s := hs
            have hso : pos % sectorSize < sectorSize := Nat.mod_lt _ (by decide)
            have hname := recordNameReads_value iso s (pos % sectorSize)
            have hdirent := direntOf_drop iso pos s (pos % sectorSize)
            have hnext := lt_nextSector pos
            dsimp only []
            rw [inSector_byte]
            by_cases hrec : IsRecord s (pos % sectorSize)
            · have hin := @recordNameReads_inSector iso s (pos % sectorSize) hso hrec.2
              have hlen := hrec.1
              rw [if_neg (isRecord_iff.mpr hrec), inSector_byte, inSector_32, inSector_32, inSector_byte, inSector_bind, hname]
              cases hdec : isoDirRecordName iso (s.drop (pos % sectorSize)) with
              | none =>
                  rw [hdec, Option.map_none] at hdirent
                  dsimp only []
                  rw [ih (by omega)]
                  simp only [listComes_nameless hpos hat hrec hdirent]
                  constructor
                  · rintro ⟨-, hbyte, -, -, -, -, hrest⟩ t off (⟨-, rfl⟩ | hcomes)
                    · omega
                    · exact hrest t off hcomes
                  · intro h
                    have := h s _ (Or.inl ⟨rfl, rfl⟩)
                    exact ⟨hso, by omega, by omega, by omega, by omega, hin, fun t off hcomes => h t off (Or.inr hcomes)⟩
              | some name =>
                  have hdecodable : Decodable iso (s.drop (pos % sectorSize)) := by
                    unfold Decodable
                    rw [hdec]
                    exact Option.some_ne_none name
                  have hlong := hdecodable.idLen_le.1
                  have hend := hrec.2
                  rw [recLen_drop] at hlong
                  rw [hdec, Option.map_some] at hdirent
                  dsimp only []
                  have hspecial : InSector (Traced.orPure (name.2 = false)
                      (specialReads s (pos % sectorSize) (byteAt s (pos % sectorSize + 32))) false) :=
                    Traced.every_orPure _ fun _ => specialReads_inSector.mpr fun _ => by omega
                  rw [inSector_bind, Traced.value_orPure, specialReads_value]
                  simp only [listComes_listed hpos hat hrec hdirent]
                  generalize direntFor (u32At s (pos % sectorSize + 2)) (pos + byteAt s (pos % sectorSize))
                    (byteAt s (pos % sectorSize + 25)) name
                    (if name.2 = false then isSpecial (s.drop (pos % sectorSize)) else false) = de
                  by_cases hfull : bytes < written + de.reclen
                  · rw [if_pos hfull]
                    refine iff_of_true ⟨hso, by omega, by omega, by omega, by omega, hin, hspecial, inSector_pure _⟩ ?_
                    rintro t off (⟨-, rfl⟩ | ⟨hfit, -⟩)
                    · omega
                    · omega
                  · rw [if_neg hfull, ih (by omega)]
                    constructor
                    · rintro ⟨-, -, -, -, -, -, -, hrest⟩ t off (⟨-, rfl⟩ | ⟨-, hcomes⟩)
                      · omega
                      · exact hrest t off hcomes
                    · intro h
                      exact ⟨hso, by omega, by omega, by omega, by omega, hin, hspecial,
                        fun t off hcomes => h t off (Or.inr ⟨by omega, hcomes⟩)⟩
            · have hskip : byteAt s (pos % sectorSize) = 0 ∨ sectorSize < pos % sectorSize + byteAt s (pos % sectorSize) := by
                by_contra hc
                exact hrec (isRecord_iff.mp hc)
              simp only [listComes_skip hpos hat hrec]
              rw [if_pos hskip]
              have hrest := @ih (nextSector pos) written out (by omega)
              exact ⟨fun h => hrest.mp h.2, fun h => ⟨hso, hrest.mpr h⟩⟩
      · rw [if_neg hpos]
        exact iff_of_true (inSector_pure _) fun t off h => absurd h.inside.1 hpos

theorem getdents_reads_iff {iso : Image} {base dsz : UInt32} {bytes pos : Nat} :
    InSector (isoDirGetdents64Reads iso base dsz bytes pos) ↔
      ∀ s off, 21 ≤ bytes → ListComes iso base dsz.toNat bytes pos 0 s off → off + 33 ≤ sectorSize := by
  unfold isoDirGetdents64Reads
  by_cases hbytes : bytes < 21
  · rw [if_pos hbytes]
    exact iff_of_true (inSector_pure _) fun s off h => by omega
  · rw [if_neg hbytes, getdentsReads_iff _ (by omega)]
    exact ⟨fun h s off _ hcomes => h s off hcomes, fun h s off hcomes => h s off (by omega) hcomes⟩

/-- Which records make the lookup or the listing read beyond the buffer. -/
theorem record_reads_iff (iso : Image) :
    (∀ (dirLba dirSize : UInt32) (want : Text) (w : Wanted),
      (∀ fuel, InSector (isoWalkComponentReads iso w fuel dirLba dirSize want)) ↔
        ∀ s off, WalkVisits iso want dirLba dirSize.toNat s off →
          off + 33 ≤ sectorSize ∧ (byteAt s (off + 32) = 1 → off + 34 ≤ sectorSize)) ∧
    ∀ (base dsz : UInt32) (bytes pos : Nat), InSector (isoDirGetdents64Reads iso base dsz bytes pos) ↔
      ∀ s off, 21 ≤ bytes → ListComes iso base dsz.toNat bytes pos 0 s off → off + 33 ≤ sectorSize :=
  ⟨fun _ _ _ _ => component_reads_iff, fun _ _ _ _ => getdents_reads_iff⟩

/-! ## A sector of short records -/

/-- All bytes are ones, and so are the lengths of the records. -/
def onesIso : Image where
  read := fun _ => some (List.replicate sectorSize 1)
  suspEnabled := false
  suspSkip := 0
  size := by
    intro lba s hs
    cases hs
    rw [List.length_replicate]

theorem ones_comes {n : Nat} (h : n < sectorSize) : ListComes onesIso 0 2048 64 (sectorSize - 1 - n) 0
    (List.replicate sectorSize 1) (sectorSize - 1) := by
  have hsize : sectorSize = 2048 := rfl
  have hbyte : ∀ {i : Nat}, i < sectorSize → byteAt (List.replicate sectorSize 1) i = 1 := by
    intro i hi
    unfold byteAt
    rw [List.getD_eq_getElem?_getD, List.getElem?_replicate, if_pos hi]
    rfl
  have hrec : ∀ {i : Nat}, i < sectorSize → IsRecord (List.replicate sectorSize 1) i := by
    intro i hi
    unfold IsRecord
    rw [hbyte hi]
    omega
  induction n with
  | zero =>
      have hmod : (sectorSize - 1 - 0) % sectorSize = sectorSize - 1 := rfl
      have hhere : ListComes onesIso 0 2048 64 (sectorSize - 1 - 0) 0 (List.replicate sectorSize 1)
          ((sectorSize - 1 - 0) % sectorSize) := .here (by omega) rfl (hrec (by omega))
      rw [hmod] at hhere
      exact hhere
  | succ n ih =>
      have hmod : (sectorSize - 1 - (n + 1)) % sectorSize = sectorSize - 1 - (n + 1) := Nat.mod_eq_of_lt (by omega)
      have hnone : direntOf onesIso (sectorSize - 1 - (n + 1))
          ((List.replicate sectorSize 1).drop ((sectorSize - 1 - (n + 1)) % sectorSize)) = none := by
        unfold direntOf isoDirRecordName
        rw [recLen_drop, hbyte (by omega), if_pos (Or.inl (by decide))]
        rfl
      apply ListComes.nameless (by omega) rfl (hrec (by omega)) hnone
      rw [hbyte (by omega), show sectorSize - 1 - (n + 1) + 1 = sectorSize - 1 - n by omega]
      exact ih (by omega)

/-- The listing reads the length of an identifier behind the end of the buffer. -/
theorem short_record_read : ¬ InSector (isoDirGetdents64Reads onesIso 0 2048 64 0) := by
  intro h
  have hcomes := @ones_comes (sectorSize - 1) (by decide)
  rw [Nat.sub_self] at hcomes
  exact absurd (getdents_reads_iff.mp h _ _ (by decide) hcomes) (by decide)

end Guppy.Iso
