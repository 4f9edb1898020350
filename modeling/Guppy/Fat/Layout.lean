import Guppy.Fat.Mkfs

set_option autoImplicit false

/-! # The layout of a FAT volume

What a sound layout is (`Sound`), and the sizes for which `mkfs_fat_format` makes one (`Fits`, `sound_iff`).

The function does not test any of these conditions. It takes the FATs from an estimate of the clusters that
forgets the FATs themselves, and so they mostly have more entries than needed; but the two entries before that
of the first cluster are forgotten, too.
-/

namespace Guppy.Fat

/-- An arithmetic result that is not reduced. -/
def Step.Exact : Step → Prop
  | .arith bits x => 0 ≤ x ∧ x < 2 ^ bits
  | .write _ _ => True

/-- A write within the volume of `len` bytes at `start`. -/
def Step.Within (start len : Nat) : Step → Prop
  | .arith _ _ => True
  | .write off n => start ≤ off ∧ off + n ≤ start + len

/-- The width of an entry of a FAT. -/
def FatType.bits : FatType → Nat
  | .fat12 => 12
  | .fat16 => 16
  | .fat32 => 32

/-- A sound layout. -/
structure Sound (o : MkfsFatOpts) (backing : UInt64) (b : Bpb) : Prop where
  exact : (mkfsFatFormat o backing).Every Step.Exact
  entries : (b.fstype.bits : Int) * (b.clusters + 2) ≤ 8 * (b.fatSectors * b.bps : Nat)
  inside : b.rsvd + b.nfats * b.fatSectors + b.rootSectors + b.spc ≤ volumeBytes o backing / sectorBytes o
  written : (mkfsFatFormat o backing).Every (Step.Within (o.lbaOffset.toNat * sectorBytes o) (volumeBytes o backing))

/-- The longest FAT for which all addresses have 32 bits: FAT32 adds one FAT to an address, the others add two. -/
def addressRoom (t : FatType) (lba : Nat) : Nat := if t = .fat32 then 2 ^ 32 - 33 - lba else (2 ^ 32 - 2 - lba) / 2

/-- FATs of `m` and of `n` entries end in the same sector. -/
def SameSector (t : FatType) (bps m n : Nat) : Prop := (entryBytes t m - 1) / bps = (entryBytes t n - 1) / bps

/-- The FATs take away two of the estimated clusters, or one and the last sector of a FAT holds one more entry, or that
sector holds two more. -/
def Spare (t : FatType) (s spc bps : Nat) : Prop :=
  let g := guess t s spc bps
  let rest := usable t s bps - g * spc
  bps * ((rest + spc) / 2) < entryBytes t g ∨
    (bps * (rest / 2) < entryBytes t g ∧ SameSector t bps g (g + 1)) ∨ SameSector t bps g (g + 2)

/-- The sizes of a sound layout: a volume of `s` sectors at sector `lba`. -/
structure Fits (t : FatType) (lba s spc bps : Nat) : Prop where
  sectors : s < 2 ^ 32
  cluster : spc + 2 ≤ usable t s bps
  fats : entryBytes t (guess t s spc bps) ≤ bps * ((usable t s bps - spc) / 2)
  thrice : t = .fat12 → guess t s spc bps * 3 + 1 < 2 ^ 32
  length : if t = .fat32 then entryBytes t (guess t s spc bps) + bps < 2 ^ 32
    else entryBytes t (guess t s spc bps) ≤ bps * 65535
  addresses : entryBytes t (guess t s spc bps) ≤ bps * addressRoom t lba
  spare : Spare t s spc bps

/-! ## Exact sizes -/

theorem wrap_exact {bits n : Nat} : (wrap bits n).Every Step.Exact ↔ n < 2 ^ bits := by
  have hpow : ((2 ^ bits : Nat) : Int) = 2 ^ bits := by
    push_cast
    rfl
  rw [every_wrap]
  show 0 ≤ (n : Int) ∧ (n : Int) < 2 ^ bits ↔ _
  rw [← hpow]
  omega

theorem wrap_sub_exact {a b : Nat} (ha : a < 2 ^ 32) : (wrap 32 ((a : Int) - b)).Every Step.Exact ↔ b ≤ a := by
  rw [every_wrap]
  show 0 ≤ (a : Int) - b ∧ (a : Int) - b < 2 ^ 32 ↔ _
  omega

theorem ceilDiv_exact {a b : Nat} (hb : 0 < b) : (ceilDiv a b).Every Step.Exact ↔ a + b < 2 ^ 32 := by
  unfold ceilDiv
  rw [Traced.every_bind, ← Int.natCast_add, wrap_exact]
  constructor
  · exact fun h => h.1
  · intro h
    rw [wrap_value h, Traced.every_bind]
    exact ⟨h, (@wrap_sub_exact (a + b) 1 h).mpr (by omega), Traced.every_pure _⟩

theorem fatBytes16_exact {t : FatType} {n : Nat} (ht : t ≠ .fat32) : (fatBytes16 t n).Every Step.Exact ↔
    (t = .fat12 → n * 3 + 1 < 2 ^ 32) ∧ (t = .fat16 → n * 2 < 2 ^ 32) := by
  unfold fatBytes16
  cases t with
  | fat12 =>
      rw [if_pos rfl, Traced.every_bind, wrap_exact]
      constructor
      · rintro ⟨hthree, hmore⟩
        rw [wrap_value hthree, Traced.every_bind, wrap_exact] at hmore
        exact ⟨fun _ => hmore.1, fun h => absurd h (by decide)⟩
      · rintro ⟨h, -⟩
        have hmore := h rfl
        rw [wrap_value (by omega), Traced.every_bind, wrap_exact]
        exact ⟨by omega, hmore, Traced.every_pure _⟩
  | fat16 =>
      rw [if_neg (by decide), wrap_exact]
      exact ⟨fun h => ⟨fun h' => absurd h' (by decide), fun _ => h⟩, fun h => h.2 rfl⟩
  | fat32 => exact absurd rfl ht

theorem fatSize32_exact {s spc bps : Nat} (hs : s < 2 ^ 32) (hb : 0 < bps) : (fatSize32 s spc bps).Every Step.Exact ↔
    33 ≤ s ∧ (s - 33) / spc * 4 + bps < 2 ^ 32 := by
  have hleftExact : (wrap 32 ((s : Int) - 32)).Every Step.Exact ↔ 32 ≤ s := @wrap_sub_exact s 32 hs
  have hguessExact : (wrap 32 (((s - 32 : Nat) : Int) - 1)).Every Step.Exact ↔ 1 ≤ s - 32 :=
    @wrap_sub_exact (s - 32) 1 (by omega)
  by_cases hmin : 33 ≤ s
  · have hleft : (wrap 32 ((s : Int) - 32)).value = s - 32 := @wrap_value_sub 32 s 32 (by omega) hs
    have hguess : (wrap 32 (((s - 32 : Nat) : Int) - 1)).value = s - 33 := by
      rw [show s - 33 = s - 32 - 1 by omega]
      exact @wrap_value_sub 32 (s - 32) 1 (by omega) (by omega)
    unfold fatSize32
    rw [Traced.every_bind, hleftExact, hleft, Traced.every_bind, hguessExact, hguess, Traced.every_bind, wrap_exact]
    constructor
    · rintro ⟨-, -, hfour, hceil⟩
      rw [wrap_value hfour, Traced.every_bind, ceilDiv_exact hb] at hceil
      exact ⟨hmin, hceil.1⟩
    · rintro ⟨-, hceil⟩
      rw [wrap_value (by omega), Traced.every_bind, ceilDiv_exact hb]
      exact ⟨by omega, by omega, by omega, hceil, Traced.every_pure _⟩
  · -- with at most 32 sectors the second subtraction wraps, if not the first
    refine iff_of_false (fun h => ?_) fun h => hmin h.1
    unfold fatSize32 at h
    rw [Traced.every_bind, hleftExact] at h
    obtain ⟨hge, hless⟩ := h
    have hleft : (wrap 32 ((s : Int) - 32)).value = s - 32 := @wrap_value_sub 32 s 32 hge hs
    rw [hleft, Traced.every_bind, hguessExact] at hless
    have := hless.1
    omega

/-- A FAT of FAT12 or FAT16 has a size of 16 bits. -/
theorem fatSize16_exact {t : FatType} {s spc bps root : Nat} (ht : t ≠ .fat32) (hs : s < 2 ^ 32) (hb : 0 < bps)
    (hb' : bps < 65536) : (fatSize16 t s spc bps root).Every Step.Exact ↔
      1 + root ≤ s ∧ (t = .fat12 → (s - 1 - root) / spc * 3 + 1 < 2 ^ 32) ∧
        entryBytes t ((s - 1 - root) / spc) ≤ bps * 65535 := by
  have hleftExact : (wrap 32 ((s : Int) - 1)).Every Step.Exact ↔ 1 ≤ s := @wrap_sub_exact s 1 hs
  have hdataExact : (wrap 32 (((s - 1 : Nat) : Int) - root)).Every Step.Exact ↔ root ≤ s - 1 :=
    @wrap_sub_exact (s - 1) root (by omega)
  have hbps : bps * 65535 + bps < 2 ^ 32 := by
    have : bps * 65535 ≤ 65535 * 65535 := Nat.mul_le_mul_right _ (by omega)
    omega
  by_cases hmin : 1 + root ≤ s
  · have hleft : (wrap 32 ((s : Int) - 1)).value = s - 1 := @wrap_value_sub 32 s 1 (by omega) hs
    have hdata : (wrap 32 (((s - 1 : Nat) : Int) - root)).value = s - 1 - root :=
      @wrap_value_sub 32 (s - 1) root (by omega) (by omega)
    unfold fatSize16
    rw [Traced.every_bind, hleftExact, hleft, Traced.every_bind, hdataExact, hdata, Traced.every_bind, fatBytes16_exact ht]
    generalize (s - 1 - root) / spc = g
    constructor
    · rintro ⟨-, -, ⟨hthrice, htwice⟩, hrest⟩
      have hfew : entryBytes t g < 2 ^ 32 := by
        cases t with
        | fat12 =>
            have := hthrice rfl
            show (g * 3 + 1) / 2 < 2 ^ 32
            omega
        | fat16 => exact htwice rfl
        | fat32 => exact absurd rfl ht
      rw [fatBytes16_value ht hthrice hfew, Traced.every_bind, ceilDiv_exact hb] at hrest
      obtain ⟨hceil, hrest⟩ := hrest
      rw [ceilDiv_value hb hceil, Traced.every_bind, wrap_exact] at hrest
      exact ⟨hmin, hthrice, (ceil_le_iff hb).mp (by omega)⟩
    · rintro ⟨-, hthrice, hlen⟩
      have htwice : t = .fat16 → g * 2 < 2 ^ 32 := by
        rintro rfl
        have hlen' : g * 2 ≤ bps * 65535 := hlen
        clear hlen hthrice
        omega
      have hcut : (entryBytes t g + bps - 1) / bps ≤ 65535 := (ceil_le_iff hb).mpr hlen
      rw [fatBytes16_value ht hthrice (by omega), Traced.every_bind, ceilDiv_exact hb, ceilDiv_value hb (by omega),
        Traced.every_bind, wrap_exact]
      exact ⟨by omega, by omega, ⟨hthrice, htwice⟩, by omega, lt_of_le_of_lt hcut (by norm_num), Traced.every_pure _⟩
  · refine iff_of_false (fun h => ?_) fun h => hmin h.1
    unfold fatSize16 at h
    rw [Traced.every_bind, hleftExact] at h
    obtain ⟨hge, hless⟩ := h
    have hleft : (wrap 32 ((s : Int) - 1)).value = s - 1 := @wrap_value_sub 32 s 1 hge hs
    rw [hleft, Traced.every_bind, hdataExact] at hless
    have := hless.1
    omega

/-! ## Exact addresses -/

/-- The addresses of the FATs and of the root directory are exact. -/
theorem addresses_of_exact32 {lba bps fatsz : Nat} (h : (writeFat32 lba bps fatsz).Every Step.Exact) :
    lba + 32 + fatsz < 2 ^ 32 := by
  unfold writeFat32 at h
  simp only [Traced.every_bind, wrap_exact] at h
  obtain ⟨-, -, -, -, -, hfirst, hsecond, -⟩ := h
  rw [wrap_value hfirst] at hsecond
  exact hsecond

theorem addresses_of_exact16 {t : FatType} {lba bps fatsz rootSecs : Nat}
    (h : (writeFat16 t lba bps fatsz rootSecs).Every Step.Exact) : lba + 1 + 2 * fatsz < 2 ^ 32 := by
  unfold writeFat16 at h
  simp only [Traced.every_bind, wrap_exact] at h
  obtain ⟨-, hfirst, hsecond, hroot, -⟩ := h
  rw [wrap_value hfirst] at hsecond hroot
  rw [wrap_value hsecond] at hroot
  omega

section

variable {P : Step → Prop} {t : FatType} {lba bps fatsz rootSecs s : Nat}

theorem sectors_le {a n : Nat} (h : a + n ≤ s) : a * bps + n * bps ≤ s * bps := by
  rw [← Nat.add_mul]
  exact Nat.mul_le_mul_right _ h

/-- The steps of a FAT32 volume with exact addresses, and with its writes within `s` sectors. -/
theorem every_writeFat32 (haddr : lba + 32 + fatsz < 2 ^ 32) (hin : 32 + 2 * fatsz ≤ s)
    (hhead : (32 + fatsz) * bps + 12 ≤ s * bps) (harith : ∀ n : Nat, n < 2 ^ 32 → P (.arith 32 n))
    (hwrite : ∀ a len, a * bps + len ≤ s * bps → P (.write ((lba + a) * bps) len)) : (writeFat32 lba bps fatsz).Every P := by
  have hsector : ∀ a, a + 1 ≤ s → P (.write ((lba + a) * bps) bps) := by
    intro a ha
    have := @sectors_le bps s a 1 ha
    exact hwrite a bps (by omega)
  have hheads : (0 + 32) * bps + 12 ≤ (32 + fatsz) * bps + 12 := Nat.add_le_add_right (Nat.mul_le_mul_right _ (by omega)) _
  unfold writeFat32 putSector write
  simp only [Traced.every_bind, Traced.every_tell, every_wrap]
  rw [wrap_value (show lba + 1 < 2 ^ 32 by omega), wrap_value (show lba + 6 < 2 ^ 32 by omega),
    wrap_value (show lba + 32 < 2 ^ 32 by omega), wrap_value haddr, Nat.add_assoc lba 32 fatsz]
  refine ⟨hsector 0 (by omega), harith _ (by omega), hsector 1 (by omega), harith _ (by omega), hsector 6 (by omega),
    harith _ (by omega), harith _ (by omega), ?_, ?_, ?_, ?_⟩
  · exact hwrite 32 _ (sectors_le (by omega))
  · exact hwrite (32 + fatsz) _ (sectors_le (by omega))
  · exact hwrite 32 12 (by omega)
  · exact hwrite (32 + fatsz) 12 hhead

/-- The steps of a FAT12 or FAT16 volume with exact addresses, and with its writes within `s` sectors. -/
theorem every_writeFat16 (haddr : lba + 1 + 2 * fatsz < 2 ^ 32) (hin : 1 + 2 * fatsz + rootSecs ≤ s)
    (hhead : 4 ≤ rootSecs * bps) (harith : ∀ n : Nat, n < 2 ^ 32 → P (.arith 32 n))
    (hwrite : ∀ a len, a * bps + len ≤ s * bps → P (.write ((lba + a) * bps) len)) :
    (writeFat16 t lba bps fatsz rootSecs).Every P := by
  have hbound : ∀ a, a ≤ 1 + 2 * fatsz → a * bps + 4 ≤ s * bps := by
    intro a ha
    exact le_trans (Nat.add_le_add_left hhead _) (sectors_le (by omega))
  have hheads : ∀ a, a ≤ 1 + 2 * fatsz → P (.write ((lba + a) * bps) (if t = .fat12 then 3 else 4)) := by
    intro a ha
    apply hwrite
    have := hbound a ha
    split <;> omega
  unfold writeFat16 putSector write
  simp only [Traced.every_bind, Traced.every_tell, every_wrap]
  rw [wrap_value (show lba + 1 < 2 ^ 32 by omega), wrap_value (show lba + 1 + fatsz < 2 ^ 32 by omega),
    wrap_value (show lba + 1 + fatsz + fatsz < 2 ^ 32 by omega), Nat.add_assoc (lba + 1), Nat.add_assoc lba 1, Nat.add_assoc lba 1]
  refine ⟨?_, harith _ (by omega), harith _ (by omega), harith _ (by omega), ?_, ?_, ?_, ?_, ?_⟩
  · have := @sectors_le bps s 0 1 (by omega)
    exact hwrite 0 bps (by omega)
  · exact hwrite 1 _ (sectors_le (by omega))
  · exact hwrite (1 + fatsz) _ (sectors_le (by omega))
  · exact hwrite (1 + (fatsz + fatsz)) _ (sectors_le (by omega))
  · exact hheads 1 (by omega)
  · exact hheads (1 + fatsz) (by omega)

end

/-! ## The size of a FAT -/

section

variable {t : FatType} {lba s spc bps f : Nat}

theorem entryBytes_pos {n : Nat} (h : 0 < n) : 0 < entryBytes t n := by
  cases t with
  | fat12 =>
      show 0 < (n * 3 + 1) / 2
      omega
  | fat16 => exact Nat.mul_pos h (by decide)
  | fat32 => exact Nat.mul_pos h (by decide)

theorem entryBytes_mono {m n : Nat} (h : m ≤ n) : entryBytes t m ≤ entryBytes t n := by
  cases t with
  | fat12 => exact Nat.div_le_div_right (by omega)
  | fat16 => exact Nat.mul_le_mul_right _ h
  | fat32 => exact Nat.mul_le_mul_right _ h

theorem guess_pos (hspc : 0 < spc) (hcl : spc + 2 ≤ usable t s bps) : 0 < guess t s spc bps := by
  unfold guess
  apply Nat.div_pos _ hspc
  split <;> omega

/-- The estimate divides the sectors, all but one for FAT32. -/
theorem guess_bounds (hspc : 0 < spc) : guess t s spc bps * spc ≤ usable t s bps ∧
    usable t s bps < guess t s spc bps * spc + spc + 1 := by
  unfold guess
  generalize hless : (if t = FatType.fat32 then 1 else 0) = less
  have hle : less ≤ 1 := by
    rw [← hless]
    split <;> decide
  have hdiv := Nat.div_mul_le_self (usable t s bps - less) spc
  have hmod : usable t s bps - less < (usable t s bps - less) / spc * spc + spc := Nat.lt_div_mul_add hspc
  omega

/-- The size of a FAT that is not cut. -/
theorem fatLength_value (hb : 0 < bps) (hb' : bps < 65536) (hs : s < 2 ^ 32) (hcl : spc + 2 ≤ usable t s bps)
    (hthrice : t = .fat12 → guess t s spc bps * 3 + 1 < 2 ^ 32)
    (hlen : if t = .fat32 then entryBytes t (guess t s spc bps) + bps < 2 ^ 32
      else entryBytes t (guess t s spc bps) ≤ bps * 65535) :
    fatLength t s spc bps = max 1 (sectorsFor t (guess t s spc bps) bps) := by
  unfold fatLength
  by_cases ht : t = .fat32
  · subst ht
    have husable : usable .fat32 s bps = s - 32 := rfl
    rw [if_pos rfl] at hlen ⊢
    rw [guess_fat32] at hlen ⊢
    exact fatSize32_value (by omega) hs hb hlen
  · have husable := @usable_fat16 t s bps ht
    have hbps : bps * 65535 + bps < 2 ^ 32 := by
      have : bps * 65535 ≤ 65535 * 65535 := Nat.mul_le_mul_right _ (by omega)
      omega
    rw [if_neg ht] at hlen ⊢
    have hcut : sectorsFor t (guess t s spc bps) bps < 65536 := Nat.lt_succ_of_le ((ceil_le_iff hb).mpr hlen)
    rw [guess_fat16 ht] at hlen hthrice hcut ⊢
    rw [fatSize16_value ht (by omega) hs hb hthrice (by omega), Nat.mod_eq_of_lt hcut]

/-- The addresses are exact if the FATs are not too long. -/
theorem addresses_iff (hb : 0 < bps) {n : Nat} (hn : 0 < n) (hlba : lba < 2 ^ 32) (hf : f = max 1 (sectorsFor t n bps)) :
    (if t = .fat32 then lba + 32 + f < 2 ^ 32 else lba + 1 + 2 * f < 2 ^ 32) ↔ entryBytes t n ≤ bps * addressRoom t lba := by
  rw [← fat_le_iff hb (entryBytes_pos hn)]
  unfold sectorsFor at hf
  rw [← hf]
  unfold addressRoom
  split <;> omega

/-- The arithmetic is exact for these sizes. -/
theorem formatSectors_exact (hb : 0 < bps) (hb' : bps < 65536) (hs : s < 2 ^ 32) (hspc : 0 < spc) (hlba : lba < 2 ^ 32)
    (hcl : spc + 2 ≤ usable t s bps) : (formatSectors t lba s spc bps).Every Step.Exact ↔
      (t = .fat12 → guess t s spc bps * 3 + 1 < 2 ^ 32) ∧
      (if t = .fat32 then entryBytes t (guess t s spc bps) + bps < 2 ^ 32
        else entryBytes t (guess t s spc bps) ≤ bps * 65535) ∧
      entryBytes t (guess t s spc bps) ≤ bps * addressRoom t lba := by
  have hg := guess_pos hspc hcl
  unfold formatSectors
  by_cases ht : t = .fat32
  · subst ht
    have husable : usable .fat32 s bps = s - 32 := rfl
    have hthrice : FatType.fat32 = .fat12 → guess .fat32 s spc bps * 3 + 1 < 2 ^ 32 := fun h => absurd h (by decide)
    have hsize : fatLength .fat32 s spc bps = (fatSize32 s spc bps).value := if_pos rfl
    rw [if_pos rfl, if_pos rfl, Traced.every_bind, fatSize32_exact hs hb, Traced.every_bind, ← hsize, ← guess_fat32 s spc bps]
    constructor
    · rintro ⟨⟨-, hlen⟩, hwrite, -⟩
      have hf := fatLength_value hb hb' hs hcl hthrice (by rw [if_pos rfl]; exact hlen)
      refine ⟨hthrice, hlen, (addresses_iff hb hg hlba hf).mp ?_⟩
      rw [if_pos rfl]
      exact addresses_of_exact32 hwrite
    · rintro ⟨-, hlen, haddr⟩
      have hf := fatLength_value hb hb' hs hcl hthrice (by rw [if_pos rfl]; exact hlen)
      have haddr' := (addresses_iff hb hg hlba hf).mpr haddr
      rw [if_pos rfl] at haddr'
      have hhead : (32 + fatLength .fat32 s spc bps) * bps + 12 * 1 ≤
          (32 + fatLength .fat32 s spc bps) * bps + (fatLength .fat32 s spc bps + 12) * bps :=
        Nat.add_le_add_left (Nat.mul_le_mul (by omega) hb) _
      rw [← Nat.add_mul] at hhead
      -- where the writes end does not matter here
      have hwrites : (writeFat32 lba bps (fatLength .fat32 s spc bps)).Every Step.Exact :=
        every_writeFat32 haddr' (by omega) hhead (fun n hn => ⟨by omega, by exact_mod_cast hn⟩) fun _ _ _ => trivial
      exact ⟨⟨by omega, hlen⟩, hwrites, Traced.every_pure _⟩
  · have husable := @usable_fat16 t s bps ht
    have hroot := rootSecs_bytes ht hb
    have hsize : fatLength t s spc bps = (fatSize16 t s spc bps (rootSecs t bps)).value := if_neg ht
    rw [if_neg ht, if_neg ht, Traced.every_bind, ceilDiv_exact hb, rootSecs_value ht hb hb', Traced.every_bind,
      fatSize16_exact ht hs hb hb', Traced.every_bind, ← hsize, ← guess_fat16 ht]
    constructor
    · rintro ⟨-, ⟨-, hthrice, hlen⟩, hwrite, -⟩
      have hf := fatLength_value hb hb' hs hcl hthrice (by rw [if_neg ht]; exact hlen)
      refine ⟨hthrice, hlen, (addresses_iff hb hg hlba hf).mp ?_⟩
      rw [if_neg ht]
      exact addresses_of_exact16 hwrite
    · rintro ⟨hthrice, hlen, haddr⟩
      have hf := fatLength_value hb hb' hs hcl hthrice (by rw [if_neg ht]; exact hlen)
      have haddr' := (addresses_iff hb hg hlba hf).mpr haddr
      rw [if_neg ht] at haddr'
      have hwrites : (writeFat16 t lba bps (fatLength t s spc bps) (rootSecs t bps)).Every Step.Exact :=
        every_writeFat16 haddr' (le_refl _) (by rw [Nat.mul_comm]; omega) (fun n hn => ⟨by omega, by exact_mod_cast hn⟩)
          fun _ _ _ => trivial
      exact ⟨by omega, ⟨by omega, hthrice, hlen⟩, hwrites, Traced.every_pure _⟩

/-! ## The writes -/

section

variable {start len : Nat}

theorem wrap_within {bits : Nat} {x : Int} : (wrap bits x).Every (Step.Within start len) := (every_wrap bits x).mpr trivial

theorem ceilDiv_within {a b : Nat} : (ceilDiv a b).Every (Step.Within start len) := by
  unfold ceilDiv
  rw [Traced.every_bind, Traced.every_bind]
  exact ⟨wrap_within, wrap_within, Traced.every_pure _⟩

theorem fatSize32_within : (fatSize32 s spc bps).Every (Step.Within start len) := by
  unfold fatSize32
  rw [Traced.every_bind, Traced.every_bind, Traced.every_bind, Traced.every_bind]
  exact ⟨wrap_within, wrap_within, wrap_within, ceilDiv_within, Traced.every_pure _⟩

theorem fatBytes16_within {n : Nat} : (fatBytes16 t n).Every (Step.Within start len) := by
  unfold fatBytes16
  split
  · rw [Traced.every_bind, Traced.every_bind]
    exact ⟨wrap_within, wrap_within, Traced.every_pure _⟩
  · exact wrap_within

theorem fatSize16_within {root : Nat} : (fatSize16 t s spc bps root).Every (Step.Within start len) := by
  unfold fatSize16
  rw [Traced.every_bind, Traced.every_bind, Traced.every_bind, Traced.every_bind, Traced.every_bind]
  exact ⟨wrap_within, wrap_within, fatBytes16_within, ceilDiv_within, wrap_within, Traced.every_pure _⟩

end

/-- The bytes after the first FAT hold the head of the second one. -/
theorem head_le {bytes : Nat} (hb : 0 < bps) (hspc : 0 < spc) (hspc' : spc < 256) (hbytes : 100 * 512 ≤ bytes)
    (hfits : entryBytes .fat32 (guess .fat32 (bytes / bps) spc bps) ≤ bps * f) (hin : 32 + 2 * f + spc ≤ bytes / bps) :
    (32 + f) * bps + 12 ≤ bytes / bps * bps := by
  have hwide : 12 ≤ (f + spc) * bps := by
    by_cases hlarge : 12 ≤ bps
    · exact le_trans hlarge (Nat.le_mul_of_pos_left _ (by omega))
    · -- small sectors are many, and so is the number of entries
      have hmany : 798 ≤ bytes / bps := by
        rw [Nat.le_div_iff_mul_le hb]
        have : 798 * bps ≤ 798 * 11 := Nat.mul_le_mul_left _ (by omega)
        omega
      have hthree : 3 ≤ (bytes / bps - 33) / spc := by
        rw [Nat.le_div_iff_mul_le hspc]
        omega
      rw [guess_fat32] at hfits
      have hentries : 3 * 4 ≤ bps * f := le_trans (Nat.mul_le_mul_right 4 hthree) hfits
      rw [Nat.add_mul, Nat.mul_comm f]
      omega
  have hend := @sectors_le bps (bytes / bps) (32 + f) (f + spc) (by omega)
  omega

/-- The writes lie in a volume that the layout fits in. -/
theorem formatSectors_within {bytes : Nat} (hb : 0 < bps) (hb' : bps < 65536) (hspc : 0 < spc) (hspc' : spc < 256)
    (hbytes : 100 * 512 ≤ bytes) (hs : s = bytes / bps) (hf : f = fatLength t s spc bps)
    (hfits : entryBytes t (guess t s spc bps) ≤ bps * f) (hin : reserved t + 2 * f + rootSecs t bps + spc ≤ s)
    (haddr : if t = .fat32 then lba + 32 + f < 2 ^ 32 else lba + 1 + 2 * f < 2 ^ 32) :
    (formatSectors t lba s spc bps).Every (Step.Within (lba * bps) bytes) := by
  have hvolume : s * bps ≤ bytes := by
    rw [hs]
    exact Nat.div_mul_le_self _ _
  have hwrite : ∀ a len, a * bps + len ≤ s * bps → Step.Within (lba * bps) bytes (.write ((lba + a) * bps) len) := by
    intro a len ha
    show lba * bps ≤ (lba + a) * bps ∧ (lba + a) * bps + len ≤ lba * bps + bytes
    rw [Nat.add_mul]
    omega
  unfold formatSectors
  by_cases ht : t = .fat32
  · subst ht
    rw [if_pos rfl] at haddr
    have hsize : f = (fatSize32 s spc bps).value := hf
    have hroom : 32 + 2 * f + spc ≤ s := le_trans (by show _ ≤ 32 + 2 * f + 0 + spc; omega) hin
    rw [if_pos rfl, Traced.every_bind, Traced.every_bind, ← hsize]
    refine ⟨fatSize32_within, ?_, Traced.every_pure _⟩
    apply every_writeFat32 haddr (by omega) _ (fun _ _ => trivial) hwrite
    rw [hs] at hfits hroom ⊢
    exact head_le hb hspc hspc' hbytes hfits hroom
  · have hroot := rootSecs_bytes ht hb
    have hsize : f = (fatSize16 t s spc bps (rootSecs t bps)).value := by
      rw [hf]
      exact if_neg ht
    have hroom : 1 + 2 * f + rootSecs t bps ≤ s := by
      unfold reserved at hin
      rw [if_neg ht] at hin
      omega
    rw [if_neg ht] at haddr
    rw [if_neg ht, Traced.every_bind, Traced.every_bind, Traced.every_bind, rootSecs_value ht hb hb', ← hsize]
    refine ⟨ceilDiv_within, fatSize16_within, ?_, Traced.every_pure _⟩
    exact every_writeFat16 haddr hroom (by rw [Nat.mul_comm]; omega) (fun _ _ => trivial) hwrite

/-! ## Entries for all clusters -/

theorem entry_bits {n m : Nat} : t.bits * n ≤ 8 * m ↔ entryBytes t n ≤ m := by
  cases t with
  | fat12 =>
      show 12 * n ≤ 8 * m ↔ (n * 3 + 1) / 2 ≤ m
      omega
  | fat16 =>
      show 16 * n ≤ 8 * m ↔ n * 2 ≤ m
      omega
  | fat32 =>
      show 32 * n ≤ 8 * m ↔ n * 4 ≤ m
      omega

/-- The sectors of a FAT, by its last byte. -/
theorem sectorsFor_eq (hb : 0 < bps) {n : Nat} (hn : 0 < n) : sectorsFor t n bps = (entryBytes t n - 1) / bps + 1 := by
  have hpos := @entryBytes_pos t n hn
  unfold sectorsFor
  rw [show entryBytes t n + bps - 1 = entryBytes t n - 1 + bps by omega, Nat.add_div_right _ hb]

theorem sameSector_iff (hb : 0 < bps) {m n : Nat} (hm : 0 < m) (hmn : m ≤ n) :
    SameSector t bps m n ↔ entryBytes t n ≤ bps * sectorsFor t m bps := by
  have hle : (entryBytes t m - 1) / bps ≤ (entryBytes t n - 1) / bps :=
    Nat.div_le_div_right (Nat.sub_le_sub_right (entryBytes_mono hmn) 1)
  rw [← ceil_le_iff hb, show (entryBytes t n + bps - 1) / bps = sectorsFor t n bps from rfl, sectorsFor_eq hb hm,
    sectorsFor_eq hb (show 0 < n by omega)]
  unfold SameSector
  omega

/-- There are entries for all clusters if and only if the estimate forgets enough clusters. -/
theorem entries_iff (hb : 0 < bps) (hspc : 0 < spc) (hf : f = max 1 (sectorsFor t (guess t s spc bps) bps))
    (hroom : spc + 2 * f ≤ usable t s bps) :
    entryBytes t ((usable t s bps - 2 * f) / spc + 2) ≤ bps * f ↔ Spare t s spc bps := by
  have hg := @guess_pos t s spc bps hspc (by omega)
  have hsize : f = sectorsFor t (guess t s spc bps) bps := by
    rw [hf, sectorsFor_eq hb hg]
    exact max_eq_right (Nat.le_add_left 1 _)
  have hfits : entryBytes t (guess t s spc bps) ≤ bps * f := by
    rw [hsize]
    exact (ceil_le_iff hb).mp (le_refl _)
  have hhalf : ∀ n, bps * (n / 2) < entryBytes t (guess t s spc bps) ↔ n < 2 * f := by
    intro n
    rw [← Nat.not_le, ← fat_le_iff hb (entryBytes_pos hg),
      show (entryBytes t (guess t s spc bps) + bps - 1) / bps = sectorsFor t (guess t s spc bps) bps from rfl, ← hf]
    omega
  unfold Spare
  dsimp only []
  rw [hhalf, hhalf, sameSector_iff hb hg (by omega), sameSector_iff hb hg (by omega), ← hsize]
  obtain ⟨hlow, hhigh⟩ := @guess_bounds t s spc bps hspc
  generalize guess t s spc bps = g at *
  generalize usable t s bps = u at *
  have hpred : (g - 1) * spc = g * spc - spc := Nat.sub_one_mul g spc
  have hsucc : (g + 1) * spc = g * spc + spc := Nat.succ_mul g spc
  have hspcLe : spc ≤ g * spc := Nat.le_mul_of_pos_left _ hg
  have hall : (u - 2 * f) / spc < g + 1 := (Nat.div_lt_iff_lt_mul hspc).mpr (by omega)
  have hone : (u - 2 * f) / spc < g ↔ u - g * spc < 2 * f := by
    rw [Nat.div_lt_iff_lt_mul hspc]
    omega
  have htwo : (u - 2 * f) / spc < g - 1 ↔ u - g * spc + spc < 2 * f := by
    rw [Nat.div_lt_iff_lt_mul hspc, hpred]
    omega
  have hmono := @entryBytes_mono t (g + 1) (g + 2) (by omega)
  generalize (u - 2 * f) / spc = c at *
  rw [← hone, ← htwo]
  -- the cases are the number of clusters that the estimate forgets
  rcases (show c < g - 1 ∨ c + 1 = g ∨ c = g by omega) with hfew | hless | rfl
  · have hle := @entryBytes_mono t (c + 2) g (by omega)
    exact iff_of_true (le_trans hle hfits) (Or.inl hfew)
  · rw [show c + 2 = g + 1 by omega]
    constructor
    · exact fun h => Or.inr (Or.inl ⟨by omega, h⟩)
    · rintro (h | h | h)
      · omega
      · exact h.2
      · exact le_trans hmono h
  · constructor
    · exact fun h => Or.inr (Or.inr h)
    · rintro (h | h | h)
      · omega
      · exact absurd h.1 (lt_irrefl _)
      · exact h

/-- The entries that a boot sector asks for. -/
theorem bootSector_entries (hb : 0 < bps) (hf : 0 < f) (hroom : 2 * f ≤ usable t s bps) :
    (t.bits : Int) * ((bootSector t lba s spc bps f).clusters + 2) ≤
        8 * ((bootSector t lba s spc bps f).fatSectors * (bootSector t lba s spc bps f).bps : Nat) ↔
      entryBytes t ((usable t s bps - 2 * f) / spc + 2) ≤ bps * f := by
  have hclus : (bootSector t lba s spc bps f).clusters = (((usable t s bps - 2 * f) / spc : Nat) : Int) := by
    rw [bootSector_clusters hb hf, Int.natCast_ediv]
    unfold usable at hroom ⊢
    congr 1
    omega
  rw [hclus, bootSector_fat hf, show (bootSector t lba s spc bps f).bps = bps from rfl, Nat.mul_comm f bps, ← entry_bits]
  exact_mod_cast Iff.rfl

end

/-! ## Sound layouts -/

theorem bootSector_inside {t : FatType} {lba s spc bps f : Nat} (hb : 0 < bps) (hf : 0 < f) :
    (bootSector t lba s spc bps f).rsvd + (bootSector t lba s spc bps f).nfats * (bootSector t lba s spc bps f).fatSectors +
      (bootSector t lba s spc bps f).rootSectors + (bootSector t lba s spc bps f).spc =
    reserved t + 2 * f + rootSecs t bps + spc := by
  rw [bootSector_fat hf, bootSector_root hb]
  rfl

/-- Two FATs and a cluster fit in. -/
theorem fats_iff {t : FatType} {s spc bps f : Nat} (hb : 0 < bps) (hspc : 0 < spc) (hcl : spc + 2 ≤ usable t s bps)
    (hf : f = max 1 (sectorsFor t (guess t s spc bps) bps)) : reserved t + 2 * f + rootSecs t bps + spc ≤ s ↔
      entryBytes t (guess t s spc bps) ≤ bps * ((usable t s bps - spc) / 2) := by
  rw [← fat_le_iff hb (entryBytes_pos (guess_pos hspc hcl)),
    show (entryBytes t (guess t s spc bps) + bps - 1) / bps = sectorsFor t (guess t s spc bps) bps from rfl, ← hf]
  unfold usable at hcl ⊢
  omega

/-- The layout is sound for these sizes only. -/
theorem sound_iff {o : MkfsFatOpts} {backing : UInt64} {b : Bpb} (h : (mkfsFatFormat o backing).value = some b) :
    let t := chosenType o (volumeBytes o backing)
    Sound o backing b ↔ Fits t o.lbaOffset.toNat (volumeBytes o backing / sectorBytes o) (clusterSectors o t) (sectorBytes o) := by
  intro t
  obtain ⟨hb, hb'⟩ := sectorBytes_bounds o
  obtain ⟨hspc, hspc'⟩ := clusterSectors_bounds o t
  obtain ⟨hbytes, rfl⟩ := mkfsFatFormat_value h
  have hlba : o.lbaOffset.toNat < 2 ^ 32 := UInt32.toNat_lt _
  have hevery := fun P => @mkfsFatFormat_every o backing P hbytes
  dsimp only [] at hevery
  by_cases hs : volumeBytes o backing / sectorBytes o < 2 ^ 32
  · have hf := fatLength_pos t (volumeBytes o backing / sectorBytes o) (clusterSectors o t) (sectorBytes o)
    rw [Nat.mod_eq_of_lt hs] at hevery ⊢
    generalize hlength : fatLength t (volumeBytes o backing / sectorBytes o) (clusterSectors o t) (sectorBytes o) = f at hf ⊢
    have hroom : reserved t + 2 * f + rootSecs t (sectorBytes o) + clusterSectors o t ≤ volumeBytes o backing / sectorBytes o →
        clusterSectors o t + 2 * f ≤ usable t (volumeBytes o backing / sectorBytes o) (sectorBytes o) := by
      unfold usable
      omega
    constructor
    · rintro ⟨hexact, hentries, hinside, -⟩
      rw [bootSector_inside hb hf] at hinside
      have hin := hroom hinside
      have hcl : clusterSectors o t + 2 ≤ usable t (volumeBytes o backing / sectorBytes o) (sectorBytes o) := by omega
      obtain ⟨hthrice, hlen, haddr⟩ := (formatSectors_exact hb hb' hs hspc hlba hcl).mp ((hevery _).mp hexact).2
      have hsize := hlength.symm.trans (fatLength_value hb hb' hs hcl hthrice hlen)
      have hspare := (entries_iff hb hspc hsize hin).mp ((bootSector_entries hb hf (le_trans (Nat.le_add_left _ _) hin)).mp hentries)
      exact ⟨hs, hcl, (fats_iff hb hspc hcl hsize).mp hinside, hthrice, hlen, haddr, hspare⟩
    · rintro ⟨-, hcl, hfats, hthrice, hlen, haddr, hspare⟩
      have hg := guess_pos hspc hcl
      have hsize := hlength.symm.trans (fatLength_value hb hb' hs hcl hthrice hlen)
      have hinside := (fats_iff hb hspc hcl hsize).mpr hfats
      have hin := hroom hinside
      have hexact := (formatSectors_exact hb hb' hs hspc hlba hcl).mpr ⟨hthrice, hlen, haddr⟩
      have hfits := (fat_le_iff hb (entryBytes_pos hg)).mp (le_of_eq hsize.symm)
      have hwithin := formatSectors_within hb hb' hspc hspc' hbytes rfl hlength.symm hfits hinside
        ((addresses_iff hb hg hlba hsize).mpr haddr)
      constructor
      · exact (hevery _).mpr ⟨wrap_exact.mpr hs, hexact⟩
      · exact (bootSector_entries hb hf (le_trans (Nat.le_add_left _ _) hin)).mpr ((entries_iff hb hspc hsize hin).mpr hspare)
      · rw [bootSector_inside hb hf]
        exact hinside
      · exact (hevery _).mpr ⟨wrap_within, hwithin⟩
  · refine iff_of_false (fun hsound => hs ?_) fun hfits => hs hfits.sectors
    exact wrap_exact.mp ((hevery _).mp hsound.exact).1

/-- A floppy disk. -/
theorem sound_floppy : Sound (defaultOpts 1474560) 0 (bootSector .fat12 0 2880 4 512 3) :=
  (@sound_iff (defaultOpts 1474560) 0 (bootSector .fat12 0 2880 4 512 3) (by decide +kernel)).mpr
    { sectors := by decide +kernel
      cluster := by decide +kernel
      fats := by decide +kernel
      thrice := by decide +kernel
      length := by decide +kernel
      addresses := by decide +kernel
      spare := Or.inr (Or.inl ⟨by decide +kernel, show _ = _ by decide +kernel⟩) }

/-- With 1399 sectors a FAT of 512 bytes has 341 clusters, but no bytes for 343 entries. -/
theorem entries_missing : ¬ ∀ (o : MkfsFatOpts) (backing : UInt64) (b : Bpb), (mkfsFatFormat o backing).value = some b →
    Sound o backing b := by
  intro h
  have hentries := (h (defaultOpts 716288) 0 (bootSector .fat12 0 1399 4 512 1) (by decide +kernel)).entries
  exact absurd hentries (by decide +kernel)

end Guppy.Fat
