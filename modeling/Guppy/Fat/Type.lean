import Guppy.Fat.Mkfs

set_option autoImplicit false

/-! # The type of a FAT volume

A reader derives the type of a FAT volume from its number of clusters. `mkfs_fat_format` takes the type from
the size in bytes, with clusters of 4 or 8 sectors. `type_matches_iff` says for which sizes the two agree;
`countFits_512` gives these sizes for sectors of 512 bytes.
-/

namespace Guppy.Fat

/-- The numbers of clusters of each type. -/
def InTypeRange (t : FatType) (clusters : Int) : Prop :=
  match t with
  | .fat12 => clusters < 4085
  | .fat16 => 4085 ≤ clusters ∧ clusters < 65525
  | .fat32 => 65525 ≤ clusters

/-- Beside `n` sectors there is room for two FATs with the estimated number of clusters. -/
def RoomBeside (t : FatType) (s spc bps n : Nat) : Prop :=
  n ≤ usable t s bps ∧ entryBytes t (guess t s spc bps) ≤ bps * ((usable t s bps - n) / 2)

/-- The sizes for which the estimated FATs leave a number of clusters that fits the type: less than 4085 clusters
of 4 sectors, at least 4085 and less than 65525 of them, at least 65525 clusters of 8 sectors. -/
def CountFits (bytes bps : Nat) : Prop :=
  let s := bytes / bps % 2 ^ 32
  if bytes < 16 * 1024 * 1024 then ¬ RoomBeside .fat12 s 4 bps (4085 * 4)
  else if bytes < 512 * 1024 * 1024 then RoomBeside .fat16 s 4 bps (4085 * 4) ∧ ¬ RoomBeside .fat16 s 4 bps (65525 * 4)
  else RoomBeside .fat32 s 8 bps (65525 * 8)

/-! ## Room for clusters -/

/-- A FAT that is not cut to 16 bits. -/
theorem room_iff {t : FatType} {s spc bps n f : Nat} (hb : 0 < bps) (hg : 0 < entryBytes t (guess t s spc bps)) (hn : 0 < n)
    (hf : f = max 1 (sectorsFor t (guess t s spc bps) bps)) :
    reserved t + rootSecs t bps + 2 * f + n ≤ s ↔ RoomBeside t s spc bps n := by
  have hroom : reserved t + rootSecs t bps + 2 * f + n ≤ s ↔ n ≤ usable t s bps ∧ f ≤ (usable t s bps - n) / 2 := by
    unfold usable
    omega
  unfold RoomBeside
  rw [hroom, hf]
  unfold sectorsFor
  rw [fat_le_iff hb hg]

theorem rootSecs_mul_le {t : FatType} {bps : Nat} : rootSecs t bps * bps ≤ 512 * 32 + bps := by
  unfold rootSecs
  split
  · omega
  · have := Nat.div_mul_le_self (512 * 32 + bps - 1) bps
    omega

/-- A FAT of more than 65535 sectors needs so many entries. -/
theorem lt_entryBytes {t : FatType} {n bps : Nat} (hb : 0 < bps) (h : 65536 ≤ sectorsFor t n bps) :
    bps * 65535 < entryBytes t n := by
  by_contra hle
  have : sectorsFor t n bps ≤ 65535 := (ceil_le_iff hb).mpr (by omega)
  omega

/-- The size in the boot sector of FAT12 and FAT16 is cut to 16 bits. -/
theorem fatLength16 {t : FatType} {s bps : Nat} (ht : t ≠ .fat32) (hb : 0 < bps) (hb' : bps < 65536)
    (hroot : 1 + rootSecs t bps ≤ s) (hs : s < 2 ^ 30) :
    fatLength t s 4 bps = max 1 (sectorsFor t (guess t s 4 bps) bps % 65536) := by
  have hbytes : entryBytes t ((s - 1 - rootSecs t bps) / 4) ≤ s := by
    cases t with
    | fat12 =>
        show ((s - 1 - rootSecs .fat12 bps) / 4 * 3 + 1) / 2 ≤ s
        omega
    | fat16 =>
        show (s - 1 - rootSecs .fat16 bps) / 4 * 2 ≤ s
        omega
    | fat32 => exact absurd rfl ht
  unfold fatLength
  rw [if_neg ht, guess_fat16 ht]
  exact fatSize16_value ht hroot (by omega) hb (fun _ => by omega) (by omega)

theorem usable_eq {t : FatType} {s bps n f : Nat} (hn : 0 < n) : reserved t + rootSecs t bps + 2 * f + n ≤ s ↔
    n ≤ usable t s bps ∧ 2 * f ≤ usable t s bps - n := by
  unfold usable
  omega

/-- The FAT12 volumes with at least 4085 clusters. -/
theorem fat12_count {s bps : Nat} (hb : 0 < bps) (hb' : bps < 65536) (hs : s < 16 * 1024 * 1024) :
    reserved .fat12 + rootSecs .fat12 bps + 2 * fatLength .fat12 s 4 bps + 4085 * 4 ≤ s ↔
      RoomBeside .fat12 s 4 bps (4085 * 4) := by
  by_cases hmin : 4085 * 4 ≤ usable .fat12 s bps
  · have hroot : 1 + rootSecs .fat12 bps ≤ s := by
      unfold usable at hmin
      rw [show reserved .fat12 = 1 from rfl] at hmin
      omega
    have hlen := fatLength16 (show FatType.fat12 ≠ .fat32 by decide) hb hb' hroot (by omega)
    have hguess : guess .fat12 s 4 bps = usable .fat12 s bps / 4 := rfl
    have hentry : entryBytes .fat12 (guess .fat12 s 4 bps) = (usable .fat12 s bps / 4 * 3 + 1) / 2 := rfl
    by_cases hcut : sectorsFor .fat12 (guess .fat12 s 4 bps) bps < 65536
    · rw [Nat.mod_eq_of_lt hcut] at hlen
      exact room_iff hb (by rw [hentry]; omega) (by decide) hlen
    · -- a FAT that is cut is that of far more clusters
      have hmany := lt_entryBytes hb (Nat.not_lt.mp hcut)
      have hge : 1 * 65535 ≤ bps * 65535 := Nat.mul_le_mul_right _ hb
      have hroom : 1 * ((usable .fat12 s bps - 4085 * 4) / 2) ≤ bps * ((usable .fat12 s bps - 4085 * 4) / 2) :=
        Nat.mul_le_mul_right _ hb
      rw [hentry] at hmany
      refine iff_of_true ?_ ⟨hmin, ?_⟩
      · rw [usable_eq (by decide), hlen]
        omega
      · rw [hentry]
        omega
  · refine iff_of_false (fun h => ?_) fun h => hmin h.1
    rw [usable_eq (by decide)] at h
    exact hmin h.1

theorem one_byte_sectors {u : Nat} (h : 8000000 ≤ u) : ¬ u / 4 * 2 ≤ 1 * ((u - 16340) / 2) := by
  omega

theorem two_byte_sectors {u : Nat} (h : 8000000 ≤ u) : u / 4 * 2 ≤ 2 * ((u - 262100) / 2) := by
  omega

theorem larger_sectors {u : Nat} (h : 393170 ≤ u) : u / 4 * 2 ≤ 3 * ((u - 262100) / 2) := by
  omega

/-- With so many sectors the estimated FATs leave more clusters than FAT16 has. -/
theorem too_many {u bps : Nat} (hb : 0 < bps) (hbig : 393170 ≤ u) (htiny : bps < 3 → 8000000 ≤ u)
    (hlow : u / 4 * 2 ≤ bps * ((u - 16340) / 2)) : u / 4 * 2 ≤ bps * ((u - 262100) / 2) := by
  by_cases hthree : 3 ≤ bps
  · exact le_trans (larger_sectors hbig) (Nat.mul_le_mul_right _ hthree)
  · have hcases : bps = 1 ∨ bps = 2 := by omega
    rcases hcases with rfl | rfl
    · exact absurd hlow (one_byte_sectors (htiny (by decide)))
    · exact two_byte_sectors (htiny (by decide))

/-- The FAT16 volumes with at least 4085 and less than 65525 clusters. -/
theorem fat16_count {bytes bps : Nat} (hb : 0 < bps) (hb' : bps < 65536) (hmin : 16 * 1024 * 1024 ≤ bytes)
    (hmax : bytes < 512 * 1024 * 1024) :
    (reserved .fat16 + rootSecs .fat16 bps + 2 * fatLength .fat16 (bytes / bps) 4 bps + 4085 * 4 ≤ bytes / bps ∧
      ¬ reserved .fat16 + rootSecs .fat16 bps + 2 * fatLength .fat16 (bytes / bps) 4 bps + 65525 * 4 ≤ bytes / bps) ↔
    RoomBeside .fat16 (bytes / bps) 4 bps (4085 * 4) ∧ ¬ RoomBeside .fat16 (bytes / bps) 4 bps (65525 * 4) := by
  have hsmall : bytes / bps ≤ bytes := Nat.div_le_self _ _
  have hrootBytes := @rootSecs_mul_le .fat16 bps
  have hroot : 1 + rootSecs .fat16 bps + 4 ≤ bytes / bps := by
    rw [Nat.le_div_iff_mul_le hb, Nat.add_mul, Nat.add_mul]
    omega
  have hlen := fatLength16 (show FatType.fat16 ≠ .fat32 by decide) hb hb' (show 1 + rootSecs .fat16 bps ≤ bytes / bps by omega)
    (by omega)
  have hguess : guess .fat16 (bytes / bps) 4 bps = usable .fat16 (bytes / bps) bps / 4 := rfl
  have hentry : entryBytes .fat16 (guess .fat16 (bytes / bps) 4 bps) = usable .fat16 (bytes / bps) bps / 4 * 2 := rfl
  have husable : usable .fat16 (bytes / bps) bps = bytes / bps - 1 - rootSecs .fat16 bps := rfl
  by_cases hcut : sectorsFor .fat16 (guess .fat16 (bytes / bps) 4 bps) bps < 65536
  · rw [Nat.mod_eq_of_lt hcut] at hlen
    rw [room_iff hb (by rw [hentry]; omega) (by decide) hlen, room_iff hb (by rw [hentry]; omega) (by decide) hlen]
  · have hmany := lt_entryBytes hb (Nat.not_lt.mp hcut)
    rw [hentry] at hmany
    have hlenLe : fatLength .fat16 (bytes / bps) 4 bps ≤ 65535 := by omega
    have hrootLe : rootSecs .fat16 bps ≤ rootSecs .fat16 bps * bps := Nat.le_mul_of_pos_right _ hb
    have htiny : bps < 3 → 8000000 ≤ usable .fat16 (bytes / bps) bps := by
      intro hlt
      have : 16 * 1024 * 1024 / 2 ≤ bytes / bps := Nat.div_le_div hmin (by omega) (by omega)
      omega
    -- there are too many clusters, whatever the size of a sector
    have hbig : 65525 * 4 + 2 * 65535 ≤ usable .fat16 (bytes / bps) bps := by
      by_cases hthree : 3 ≤ bps
      · have : 3 * 65535 ≤ bps * 65535 := Nat.mul_le_mul_right _ hthree
        omega
      · have := htiny (by omega)
        omega
    refine iff_of_false (fun h => h.2 ?_) fun h => ?_
    · rw [usable_eq (by decide)]
      omega
    · obtain ⟨⟨-, hlow⟩, hhigh⟩ := h
      rw [hentry] at hlow
      refine hhigh ⟨by omega, ?_⟩
      rw [hentry]
      exact too_many hb hbig htiny hlow

theorem fat32_count {s bps : Nat} (hb : 0 < bps) (hb' : bps < 65536) (hs : s < 2 ^ 32) :
    reserved .fat32 + rootSecs .fat32 bps + 2 * fatLength .fat32 s 8 bps + 65525 * 8 ≤ s ↔
      RoomBeside .fat32 s 8 bps (65525 * 8) := by
  have husable : usable .fat32 s bps = s - 32 := rfl
  by_cases hmin : 65525 * 8 ≤ usable .fat32 s bps
  · have hentry : entryBytes .fat32 (guess .fat32 s 8 bps) = (s - 33) / 8 * 4 := by
      rw [guess_fat32]
      rfl
    have hlen : fatLength .fat32 s 8 bps = max 1 (sectorsFor .fat32 (guess .fat32 s 8 bps) bps) := by
      unfold fatLength
      rw [if_pos rfl, guess_fat32]
      exact fatSize32_value (by omega) hs hb (by omega)
    exact room_iff hb (by rw [hentry]; omega) (by decide) hlen
  · refine iff_of_false (fun h => ?_) fun h => hmin h.1
    rw [usable_eq (by decide)] at h
    exact hmin h.1

/-! ## The chosen type -/

section

variable {o : MkfsFatOpts} {bytes : Nat}

theorem chosenType_auto (hauto : o.fatType ≠ 12 ∧ o.fatType ≠ 16 ∧ o.fatType ≠ 32) : chosenType o bytes =
    if bytes < 16 * 1024 * 1024 then .fat12 else if bytes < 512 * 1024 * 1024 then .fat16 else .fat32 := by
  unfold chosenType
  rw [if_neg hauto.1, if_neg hauto.2.1, if_neg hauto.2.2]

theorem clusterSectors_default (t : FatType) (h : o.secPerClus = 0) : clusterSectors o t = if t = .fat32 then 8 else 4 :=
  if_pos h

end

/-- The type of a boot sector, by the sectors that it leaves for clusters. -/
theorem inTypeRange_bootSector {t : FatType} {lba s spc bps fatsz : Nat} (hb : 0 < bps) (hspc : 0 < spc) (hf : 0 < fatsz) :
    InTypeRange t (bootSector t lba s spc bps fatsz).clusters ↔
      match t with
      | .fat12 => ¬ reserved .fat12 + rootSecs .fat12 bps + 2 * fatsz + 4085 * spc ≤ s
      | .fat16 => reserved .fat16 + rootSecs .fat16 bps + 2 * fatsz + 4085 * spc ≤ s ∧
          ¬ reserved .fat16 + rootSecs .fat16 bps + 2 * fatsz + 65525 * spc ≤ s
      | .fat32 => reserved .fat32 + rootSecs .fat32 bps + 2 * fatsz + 65525 * spc ≤ s := by
  have hclus : ∀ n : Nat, (n : Int) ≤ (bootSector t lba s spc bps fatsz).clusters ↔
      reserved t + rootSecs t bps + 2 * fatsz + n * spc ≤ s := by
    intro n
    rw [bootSector_clusters hb hf]
    exact le_clusters_iff hspc
  cases t with
  | fat12 => exact not_le.symm.trans (not_congr (hclus 4085))
  | fat16 => exact and_congr (hclus 4085) (not_le.symm.trans (not_congr (hclus 65525)))
  | fat32 => exact hclus 65525

/-- The type of an automatically chosen volume is that of its number of clusters for these sizes only. -/
theorem type_matches_iff {o : MkfsFatOpts} {backing : UInt64} {b : Bpb}
    (hauto : o.fatType ≠ 12 ∧ o.fatType ≠ 16 ∧ o.fatType ≠ 32) (hspc : o.secPerClus = 0)
    (h : (mkfsFatFormat o backing).value = some b) :
    InTypeRange b.fstype b.clusters ↔ CountFits (volumeBytes o backing) (sectorBytes o) := by
  obtain ⟨hb, hb'⟩ := sectorBytes_bounds o
  obtain ⟨-, rfl⟩ := mkfsFatFormat_value h
  rw [show (bootSector (chosenType o (volumeBytes o backing)) o.lbaOffset.toNat (volumeBytes o backing / sectorBytes o % 2 ^ 32)
      (clusterSectors o (chosenType o (volumeBytes o backing))) (sectorBytes o) _).fstype =
      chosenType o (volumeBytes o backing) from rfl,
    inTypeRange_bootSector hb (clusterSectors_bounds _ _).1 (fatLength_pos _ _ _ _), clusterSectors_default _ hspc,
    chosenType_auto hauto]
  generalize hbytes : volumeBytes o backing = bytes
  have hsmall : bytes / sectorBytes o ≤ bytes := Nat.div_le_self _ _
  unfold CountFits
  dsimp only []
  by_cases h12 : bytes < 16 * 1024 * 1024
  · rw [if_pos h12, if_pos h12, Nat.mod_eq_of_lt (by omega)]
    exact not_congr (fat12_count hb hb' (by omega))
  · by_cases h16 : bytes < 512 * 1024 * 1024
    · rw [if_neg h12, if_neg h12, if_pos h16, if_pos h16, Nat.mod_eq_of_lt (by omega)]
      exact fat16_count hb hb' (Nat.not_lt.mp h12) h16
    · rw [if_neg h12, if_neg h12, if_neg h16, if_neg h16]
      exact fat32_count hb hb' (Nat.mod_lt _ (by decide))

/-! ## Sectors of 512 bytes -/

theorem roomBeside_fat12_512 {s : Nat} : RoomBeside .fat12 s 4 512 (4085 * 4) ↔ 16397 ≤ s := by
  show 16340 ≤ s - 1 - 32 ∧ ((s - 1 - 32 - 0) / 4 * 3 + 1) / 2 ≤ 512 * ((s - 1 - 32 - 16340) / 2) ↔ _
  omega

theorem roomBeside_fat16_low_512 {s : Nat} : RoomBeside .fat16 s 4 512 (4085 * 4) ↔ 16405 ≤ s := by
  show 16340 ≤ s - 1 - 32 ∧ (s - 1 - 32 - 0) / 4 * 2 ≤ 512 * ((s - 1 - 32 - 16340) / 2) ↔ _
  omega

theorem roomBeside_fat16_high_512 {s : Nat} : RoomBeside .fat16 s 4 512 (65525 * 4) ↔ 262647 ≤ s := by
  show 262100 ≤ s - 1 - 32 ∧ (s - 1 - 32 - 0) / 4 * 2 ≤ 512 * ((s - 1 - 32 - 262100) / 2) ↔ _
  omega

theorem roomBeside_fat32_512 {s : Nat} : RoomBeside .fat32 s 8 512 (65525 * 8) ↔ 525258 ≤ s := by
  show 524200 ≤ s - 32 - 0 ∧ (s - 32 - 0 - 1) / 8 * 4 ≤ 512 * ((s - 32 - 0 - 524200) / 2) ↔ _
  omega

/-- The types are right up to 16396 sectors, from 16 MiB up to 262646 sectors, and from 512 MiB on while the count
of sectors does not wrap. -/
theorem countFits_512 {bytes : Nat} : CountFits bytes 512 ↔
    if bytes < 16 * 1024 * 1024 then bytes / 512 < 16397
    else if bytes < 512 * 1024 * 1024 then bytes / 512 < 262647
    else 525258 ≤ bytes / 512 % 2 ^ 32 := by
  unfold CountFits
  dsimp only []
  rw [roomBeside_fat12_512, roomBeside_fat16_low_512, roomBeside_fat16_high_512, roomBeside_fat32_512]
  split
  · omega
  · split
    · omega
    · rfl

/-- A floppy disk. -/
theorem type_matches_floppy : InTypeRange (bootSector .fat12 0 2880 4 512 3).fstype (bootSector .fat12 0 2880 4 512 3).clusters :=
  (@type_matches_iff (defaultOpts 1474560) 0 _ (by decide) rfl
    (show (mkfsFatFormat (defaultOpts 1474560) 0).value = some (bootSector .fat12 0 2880 4 512 3) by decide +kernel)).mpr
    (countFits_512.mpr (by decide))

/-- A volume of 8395264 bytes is labelled FAT12 and has 4085 clusters. -/
theorem type_differs : ¬ ∀ (o : MkfsFatOpts) (backing : UInt64) (b : Bpb), o.fatType ≠ 12 ∧ o.fatType ≠ 16 ∧ o.fatType ≠ 32 →
    o.secPerClus = 0 → (mkfsFatFormat o backing).value = some b → InTypeRange b.fstype b.clusters := by
  intro h
  have hrange : (bootSector .fat12 0 16397 4 512 12).clusters < 4085 :=
    h (defaultOpts 8395264) 0 (bootSector .fat12 0 16397 4 512 12) (by decide) rfl (by decide +kernel)
  exact absurd hrange (by decide +kernel)

end Guppy.Fat
