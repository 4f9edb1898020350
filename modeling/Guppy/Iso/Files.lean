import Guppy.Iso.Direct
import Guppy.Lib.Chunks

set_option autoImplicit false

/-! # Reading files of an ISO 9660 image

`iso_file_read` of `src/vfs_iso.c` copies from the extent of a file, sector by sector, and moves the position
of the handle only when it has copied everything. The commands read a file in a loop, with one buffer, until
nothing comes. They have the bytes of the extent when every sector of it can be read. Otherwise the loop ends only
when the buffer ends where the first sector that cannot be read begins; else the same bytes come again and again
(`file_loop_ends_iff`).
-/

namespace Guppy.Iso

open Vfs Chunks

/-! ## The code -/

/-- The loop of `iso_file_read`: whether all sectors could be read, and what has been copied. -/
def copySectors (iso : Image) : Nat → UInt32 → Nat → Nat → List UInt8 → Bool × List UInt8
  | 0, _, _, _, out => (true, out)
  | fuel + 1, lba, inSector, left, out =>
      if left = 0 then (true, out)
      else
        match iso.read lba with
        | none => (false, out)
        | some sec =>
            let take := min (sectorSize - inSector) left
            copySectors iso fuel (lba + 1) 0 (left - take) (out ++ (sec.drop inSector).take take)

/-- `iso_file_read` of `n` bytes: the bytes, none for `-EIO`, and the position of the handle. -/
def isoFileRead (iso : Image) (e : Extent) (pos n : Nat) : Option (List UInt8) × Nat :=
  if e.size.toNat ≤ pos then (some [], pos)
  else
    let n := min n (e.size.toNat - pos)
    let r := copySectors iso n (e.lba + UInt32.ofNat (pos / sectorSize)) (pos % sectorSize) n []
    -- after a sector that cannot be read the position is not stored
    if r.1 = true then (some r.2, pos + n) else if r.2 = [] then (none, pos) else (some r.2, pos)

/-! ## What can be read -/

/-- The sectors before the first one that cannot be read, of a number of them. -/
def goodSectors (iso : Image) : Nat → UInt32 → List UInt8
  | 0, _ => []
  | m + 1, lba =>
      match iso.read lba with
      | none => []
      | some sec => sec ++ goodSectors iso m (lba + 1)

/-- The bytes of an extent before the first sector that cannot be read. -/
def goodBytes (iso : Image) (e : Extent) : List UInt8 :=
  (goodSectors iso ((e.size.toNat + (sectorSize - 1)) / sectorSize) e.lba).take e.size.toNat

variable {iso : Image}

theorem length_goodSectors (m : Nat) : ∀ lba, (goodSectors iso m lba).length ≤ sectorSize * m := by
  induction m with
  | zero => exact fun _ => Nat.zero_le _
  | succ m ih =>
      intro lba
      rw [goodSectors, Nat.mul_succ]
      cases hread : iso.read lba with
      | none => exact Nat.zero_le _
      | some sec =>
          have hlen := iso.size hread
          have hrest := ih (lba + 1)
          dsimp only
          rw [List.length_append]
          omega

/-- All sectors of a number can be read if their bytes are there. -/
theorem sectorsFrom_eq_some_iff (m : Nat) : ∀ {lba : UInt32} {bytes : List UInt8}, sectorsFrom iso m lba = some bytes ↔
    goodSectors iso m lba = bytes ∧ bytes.length = sectorSize * m := by
  induction m with
  | zero =>
      intro lba bytes
      constructor
      · intro h
        cases h
        exact ⟨rfl, rfl⟩
      · rintro ⟨rfl, -⟩
        rfl
  | succ m ih =>
      intro lba bytes
      rw [sectorsFrom, goodSectors, Nat.mul_succ]
      cases hread : iso.read lba with
      | none =>
          refine iff_of_false (fun h => Option.some_ne_none bytes h.symm) ?_
          rintro ⟨rfl, hlen⟩
          exact absurd hlen (by unfold sectorSize; exact (Nat.succ_ne_zero _).symm)
      | some sec =>
          have hsec := iso.size hread
          rw [Option.bind_some, Option.map_eq_some_iff]
          dsimp only
          constructor
          · rintro ⟨rest, hrest, rfl⟩
            obtain ⟨hgood, hlen⟩ := ih.mp hrest
            refine ⟨by rw [hgood], ?_⟩
            rw [List.length_append]
            omega
          · rintro ⟨rfl, hlen⟩
            rw [List.length_append] at hlen
            exact ⟨_, ih.mpr ⟨rfl, by omega⟩, rfl⟩

/-- Behind sectors that can be read the others follow. -/
theorem goodSectors_drop (k : Nat) : ∀ {m : Nat} {lba : UInt32}, sectorSize * k ≤ (goodSectors iso m lba).length →
    goodSectors iso (m - k) (lba + UInt32.ofNat k) = (goodSectors iso m lba).drop (sectorSize * k) := by
  induction k with
  | zero =>
      intro m lba _
      rw [show (UInt32.ofNat 0) = 0 from rfl, UInt32.add_zero]
      rfl
  | succ k ih =>
      intro m lba hlen
      have hmax := @length_goodSectors iso m lba
      cases m with
      | zero =>
          have hpos : 0 < sectorSize := by decide
          rw [Nat.mul_succ] at hlen
          omega
      | succ m =>
          rw [goodSectors] at hlen ⊢
          cases hread : iso.read lba with
          | none =>
              rw [hread] at hlen
              exact absurd hlen (by unfold sectorSize; exact Nat.not_succ_le_zero _)
          | some sec =>
              rw [hread] at hlen
              have hsec := iso.size hread
              dsimp only at hlen ⊢
              rw [List.length_append, Nat.mul_succ] at hlen
              have hnext : lba + UInt32.ofNat (k + 1) = lba + 1 + UInt32.ofNat k := by
                rw [UInt32.add_assoc, Nat.add_comm k 1, UInt32.ofNat_add]
                rfl
              rw [Nat.succ_sub_succ, hnext, ih (by omega), Nat.mul_succ, Nat.add_comm, ← List.drop_drop,
                ← hsec, List.drop_left]

/-! ## The loop over the sectors -/

theorem copySectors_eq (fuel : Nat) : ∀ {m : Nat} {lba : UInt32} {inSector left : Nat} {out : List UInt8},
    left ≤ fuel → inSector < sectorSize → inSector + left ≤ sectorSize * m →
      copySectors iso fuel lba inSector left out =
        if inSector + left ≤ (goodSectors iso m lba).length ∨ left = 0 then
          (true, out ++ ((goodSectors iso m lba).drop inSector).take left)
        else (false, out ++ (goodSectors iso m lba).drop inSector) := by
  induction fuel with
  | zero =>
      intro m lba inSector left out hleft _ _
      obtain rfl : left = 0 := by omega
      rw [if_pos (Or.inr rfl), copySectors, List.take_zero, List.append_nil]
  | succ fuel ih =>
      intro m lba inSector left out hleft hin hfits
      rw [copySectors]
      by_cases hz : left = 0
      · rw [if_pos hz, if_pos (Or.inr hz), hz, List.take_zero, List.append_nil]
      · rw [if_neg hz]
        cases m with
        | zero => omega
        | succ m =>
            rw [goodSectors]
            rw [Nat.mul_succ] at hfits
            cases hread : iso.read lba with
            | none =>
                dsimp only
                rw [if_neg (by simp only [List.length_nil]; omega), List.drop_nil, List.append_nil]
            | some sec =>
                have hsec := iso.size hread
                dsimp only
                generalize hgood : goodSectors iso m (lba + 1) = good
                have hlen : (sec ++ good).length = sectorSize + good.length := by rw [List.length_append, hsec]
                have hdrop : (sec ++ good).drop inSector = sec.drop inSector ++ good := by
                  rw [List.drop_append, show inSector - sec.length = 0 by omega, List.drop_zero]
                have hpart : (sec.drop inSector).length = sectorSize - inSector := by rw [List.length_drop, hsec]
                rw [hlen, hdrop, @ih m _ 0 _ _ (by omega) (by decide) (by omega), hgood, Nat.zero_add, List.drop_zero,
                  List.append_assoc, List.append_assoc]
                by_cases hlast : left ≤ sectorSize - inSector
                · -- what is left ends in this sector
                  rw [Nat.min_eq_right hlast, Nat.sub_self, if_pos (Or.inr rfl), if_pos (by omega), List.take_zero,
                    List.append_nil, List.take_append_of_le_length (by omega)]
                · rw [Nat.min_eq_left (by omega), List.take_of_length_le (le_of_eq hpart)]
                  by_cases hmore : left - (sectorSize - inSector) ≤ good.length
                  · rw [if_pos (Or.inl hmore), if_pos (by omega), List.take_append,
                      List.take_of_length_le (show (sec.drop inSector).length ≤ left by omega), hpart]
                  · rw [if_neg (by omega), if_neg (by omega)]

/-- A handle gives the bytes that can be read. -/
theorem isoFileRead_serves (e : Extent) : Serves (isoFileRead iso e) (goodBytes iso e) e.size.toNat := by
  have hcount : e.size.toNat ≤ sectorSize * ((e.size.toNat + (sectorSize - 1)) / sectorSize) := by
    unfold sectorSize
    omega
  refine ⟨(List.length_take_le ..), fun pos n hpos => ?_⟩
  unfold goodBytes at hpos ⊢
  generalize hm : (e.size.toNat + (sectorSize - 1)) / sectorSize = m at *
  generalize hgood : goodSectors iso m e.lba = good at *
  rw [List.length_take] at hpos ⊢
  unfold isoFileRead
  by_cases hend : e.size.toNat ≤ pos
  · -- the end of the file
    rw [if_pos hend, if_pos (by omega), show e.size.toNat - pos = 0 by omega, Nat.min_zero, Nat.add_zero,
      List.drop_of_length_le (by rw [List.length_take]; omega), List.take_nil]
  · rw [if_neg hend]
    dsimp only
    have hsector : sectorSize * (pos / sectorSize) + pos % sectorSize = pos := Nat.div_add_mod ..
    have hrest := @goodSectors_drop iso (pos / sectorSize) m e.lba (by rw [hgood]; omega)
    rw [hgood] at hrest
    have hmod : pos % sectorSize < sectorSize := Nat.mod_lt _ (by decide)
    have hroom : pos % sectorSize + min n (e.size.toNat - pos) ≤ sectorSize * (m - pos / sectorSize) := by
      rw [Nat.mul_sub]
      omega
    rw [copySectors_eq _ le_rfl hmod hroom, hrest, List.length_drop, List.drop_drop, hsector, List.nil_append,
      List.nil_append]
    have htake : ∀ k, k ≤ e.size.toNat - pos → (good.drop pos).take k = ((good.take e.size.toNat).drop pos).take k := by
      intro k hk
      rw [List.drop_take, List.take_take, Nat.min_eq_left hk]
    have hall : (good.drop pos).take (min n (e.size.toNat - pos)) = ((good.take e.size.toNat).drop pos).take n := by
      rw [htake _ (Nat.min_le_right ..)]
      have hlen : ((good.take e.size.toNat).drop pos).length ≤ e.size.toNat - pos := by
        rw [List.length_drop, List.length_take]
        omega
      by_cases hn : n ≤ e.size.toNat - pos
      · rw [Nat.min_eq_left hn]
      · rw [Nat.min_eq_right (by omega), List.take_of_length_le hlen,
          List.take_of_length_le (hlen.trans (show e.size.toNat - pos ≤ n by omega))]
    rw [hall]
    by_cases hfits : pos + min n (e.size.toNat - pos) ≤ good.length
    · rw [if_pos (Or.inl (by omega)), if_pos rfl, if_pos (by omega)]
    · -- the sector that cannot be read comes before the end of the file
      have hshort : good.take e.size.toNat = good := List.take_of_length_le (by omega)
      have hno : ¬ (pos % sectorSize + min n (e.size.toNat - pos) ≤ good.length - sectorSize * (pos / sectorSize) ∨
          min n (e.size.toNat - pos) = 0) := by omega
      have hover : ¬ pos + min n (e.size.toNat - pos) ≤ min e.size.toNat good.length := by omega
      rw [if_neg hno, if_neg hover, hshort]
      dsimp only
      rw [if_neg Bool.false_ne_true]
      by_cases hsome : pos < good.length
      · have hne : good.drop pos ≠ [] := fun hnil => absurd (List.drop_eq_nil_iff.mp hnil) (Nat.not_le.mpr hsome)
        rw [if_neg hne, if_pos (show pos < min e.size.toNat good.length by omega)]
      · rw [if_pos (List.drop_eq_nil_iff.mpr (Nat.not_lt.mp hsome)),
          if_neg (show ¬ pos < min e.size.toNat good.length by omega)]

/-! ## Reading a file -/

theorem dvd_length_goodSectors (m : Nat) : ∀ lba, sectorSize ∣ (goodSectors iso m lba).length := by
  induction m with
  | zero => exact fun _ => Nat.dvd_zero _
  | succ m ih =>
      intro lba
      rw [goodSectors]
      cases hread : iso.read lba with
      | none => exact Nat.dvd_zero _
      | some sec =>
          dsimp only
          rw [List.length_append, iso.size hread]
          exact Nat.dvd_add (Nat.dvd_refl _) (ih _)

/-- An extent can be read if its bytes are there. -/
theorem extentBytes_eq_some_iff {e : Extent} {bytes : List UInt8} : extentBytes iso e.lba e.size.toNat = some bytes ↔
    goodBytes iso e = bytes ∧ bytes.length = e.size.toNat := by
  unfold extentBytes goodBytes
  generalize hm : (e.size.toNat + (sectorSize - 1)) / sectorSize = m
  have hsectors : e.size.toNat ≤ m * sectorSize ∧ m * sectorSize < e.size.toNat + sectorSize := by
    unfold sectorSize at hm ⊢
    omega
  rw [Option.map_eq_some_iff]
  constructor
  · rintro ⟨all, hall, rfl⟩
    obtain ⟨rfl, hlen⟩ := (sectorsFrom_eq_some_iff m).mp hall
    refine ⟨rfl, ?_⟩
    rw [List.length_take, hlen]
    exact Nat.min_eq_left (by rw [Nat.mul_comm]; exact hsectors.1)
  · rintro ⟨rfl, hlen⟩
    refine ⟨_, (sectorsFrom_eq_some_iff m).mpr ⟨rfl, ?_⟩, rfl⟩
    -- the number of bytes that can be read is one of whole sectors
    obtain ⟨k, hk⟩ := @dvd_length_goodSectors iso m e.lba
    have hmax := @length_goodSectors iso m e.lba
    rw [List.length_take] at hlen
    rw [hk] at hlen hmax ⊢
    have hle : k ≤ m := Nat.le_of_mul_le_mul_left hmax (by decide)
    have hge : m ≤ k := by
      by_contra hlt
      have hstep : sectorSize * (k + 1) ≤ sectorSize * m := Nat.mul_le_mul_left _ (by omega)
      rw [Nat.mul_succ, Nat.mul_comm sectorSize m] at hstep
      omega
    rw [le_antisymm hle hge]

theorem isSome_extentBytes_iff {e : Extent} : (extentBytes iso e.lba e.size.toNat).isSome ↔
    (goodBytes iso e).length = e.size.toNat := by
  rw [Option.isSome_iff_exists]
  constructor
  · rintro ⟨bytes, hbytes⟩
    obtain ⟨rfl, hlen⟩ := extentBytes_eq_some_iff.mp hbytes
    exact hlen
  · exact fun hlen => ⟨_, extentBytes_eq_some_iff.mpr ⟨rfl, hlen⟩⟩

/-- The loop over a file with any buffer, and calls of any sizes. -/
theorem file_loop_ends_iff (iso : Image) (e : Extent) :
    (∀ n, 0 < n → ∀ r, (∃ fuel, copyLoop (isoFileRead iso e) n fuel 0 [] = some r) ↔
      ((extentBytes iso e.lba e.size.toNat).isSome ∨ n ∣ (goodBytes iso e).length) ∧
        r = ((extentBytes iso e.lba e.size.toNat).isSome, goodBytes iso e)) ∧
    ∀ bytes, extentBytes iso e.lba e.size.toNat = some bytes →
      ∀ ns, reads (isoFileRead iso e) 0 ns = (cut ns bytes).map some := by
  have hserves := @isoFileRead_serves iso e
  refine ⟨fun n hn r => ?_, fun bytes hbytes ns => ?_⟩
  · have hwhole : decide ((goodBytes iso e).length = e.size.toNat) = (extentBytes iso e.lba e.size.toNat).isSome :=
      Bool.eq_iff_iff.mpr (decide_eq_true_iff.trans isSome_extentBytes_iff.symm)
    rw [copyLoop_ends_iff hserves hn r, hwhole, isSome_extentBytes_iff]
  · obtain ⟨rfl, hlen⟩ := extentBytes_eq_some_iff.mp hbytes
    exact reads_eq_cut hserves hlen ns (Nat.zero_le _)

/-- A file of two sectors of which the second cannot be read, and a buffer of 64 KiB: the loop does not end. -/
theorem file_loop_ends_iff_short :
    ∀ fuel r, copyLoop (isoFileRead nestedImage ⟨20, 4096⟩) 65536 fuel 0 [] ≠ some r := by
  intro fuel r h
  have hnone : extentBytes nestedImage (⟨20, 4096⟩ : Extent).lba (⟨20, 4096⟩ : Extent).size.toNat = none := by
    decide +kernel
  have hlen : (goodBytes nestedImage ⟨20, 4096⟩).length = 2048 := by decide +kernel
  have hends := (((file_loop_ends_iff nestedImage ⟨20, 4096⟩).1 65536 (by decide) r).mp ⟨fuel, h⟩).1
  rw [hnone, hlen] at hends
  rcases hends with hends | hends
  · cases hends
  · exact absurd (Nat.le_of_dvd (by decide) hends) (by decide)

/-- What `iso_read_file_by_path` reads is what the commands read of the file, with any buffer. -/
theorem path_read_iff_loop {root : Extent} {dir last : Text} (habs : dir = [] ∨ dir.head? = some slash)
    (h : slash ∉ last) {cap : Nat} {bytes : List UInt8} :
    Reads iso root (dir ++ slash :: last) cap bytes ↔ last ≠ [] ∧ ∃ c, Finds iso root last c ∧
      c.isDir = false ∧ c.extent.size.toNat ≤ cap ∧
        ∀ n, 0 < n → ∃ fuel, copyLoop (isoFileRead iso c.extent) n fuel 0 [] = some (true, bytes) := by
  have hloop : ∀ c : Child, extentBytes iso c.extent.lba c.extent.size.toNat = some bytes ↔
      ∀ n, 0 < n → ∃ fuel, copyLoop (isoFileRead iso c.extent) n fuel 0 [] = some (true, bytes) := by
    intro c
    have hserves := @isoFileRead_serves iso c.extent
    rw [extentBytes_eq_some_iff]
    constructor
    · rintro ⟨rfl, hlen⟩ n hn
      refine (copyLoop_ends_iff hserves hn _).mpr ⟨Or.inl hlen, ?_⟩
      rw [decide_eq_true hlen]
    · intro hall
      obtain ⟨-, hr⟩ := (copyLoop_ends_iff hserves Nat.one_pos _).mp (hall 1 Nat.one_pos)
      obtain ⟨hwhole, rfl⟩ := Prod.mk.inj hr
      exact ⟨rfl, of_decide_eq_true hwhole.symm⟩
  rw [reads_iff habs h]
  exact and_congr_right (fun _ => exists_congr (fun c => and_congr_right (fun _ => and_congr_right (fun _ =>
    and_congr_right (fun _ => hloop c)))))

end Guppy.Iso
