import Guppy.Ntfs.Records

set_option autoImplicit false

/-! # A formatted NTFS volume

What a sound volume is (`SoundVolume`): the bytes written for each system file lie on clusters of their own, and the
bitmap marks these clusters and no others. The formatter makes a sound volume when the MFT stays behind the two
clusters of $Boot, a cluster holds the attribute definitions, and the clusters cover the volume; the test of the layout
asks for none of these. It also comes too late to leave a rejected image as it was (`mkfsNtfsCore_meets_iff`).
-/

namespace Guppy.Ntfs

/-- Bytes that were written for a part. -/
def Covers (log : List Written) (p : Part) (x : Nat) : Prop := ∃ w ∈ log, w.part = p ∧ w.off ≤ x ∧ x < w.off + w.len

/-- The bytes of a part: those written for it; $Boot has the first two clusters. -/
def InRegion (L : Layout) (log : List Written) (p : Part) (x : Nat) : Prop :=
  Covers log p x ∨ (p = .boot ∧ L.byteOff 0 ≤ x ∧ x < L.byteOff 2)

def InCluster (L : Layout) (c x : Nat) : Prop := L.byteOff c ≤ x ∧ x < L.byteOff (c + 1)

/-- The bitmap on the disk. -/
def bitmapOn (L : Layout) (d : Disk) : Mem :=
  d.image.slice (L.byteOff L.bitmapLcn) (L.bitmapClusters * L.bytesPerCluster)

structure SoundVolume (L : Layout) (d : Disk) : Prop where
  disjoint : ∀ p q x, InRegion L d.log p x → InRegion L d.log q x → p = q
  inside : ∀ p x, InRegion L d.log p x → L.byteOff 0 ≤ x ∧ x < (L.lbaOff + L.totalSectors) * L.bps
  marked : ∀ c, c < 8 * (L.bitmapClusters * L.bytesPerCluster) →
    ((bitmapOn L d).bit c = true ↔ ∃ p x, InRegion L d.log p x ∧ InCluster L c x)

/-- The layout of a run. -/
def volumeLayout (o : MkfsNtfsOpts) (hostBytes : UInt64) : Layout :=
  planLayout o (bytesTotal o hostBytes / sectorBytes o)

/-- An accepted volume is sound, and a rejected layout leaves the image alone. -/
def Meets (o : MkfsNtfsOpts) (hostBytes : UInt64) (image : Mem) : Prop :=
  ((mkfsNtfsCore o hostBytes image).1 = .done →
    SoundVolume (volumeLayout o hostBytes) (mkfsNtfsCore o hostBytes image).2) ∧
  ((mkfsNtfsCore o hostBytes image).1 = .noLayout → ∀ x, (mkfsNtfsCore o hostBytes image).2.image x = image x)

/-- The sizes that get as far as the layout. -/
structure SizesOk (o : MkfsNtfsOpts) (hostBytes : UInt64) : Prop where
  sector : sectorBytes o = 512 ∨ sectorBytes o = 1024 ∨ sectorBytes o = 2048 ∨ sectorBytes o = 4096
  fits : baseBytes o ≤ hostBytes.toNat ∧ bytesTotal o hostBytes ≤ hostBytes.toNat - baseBytes o
  large : sectorBytes o * 100 ≤ bytesTotal o hostBytes

/-- A layout whose regions are apart. -/
structure Apart (L : Layout) : Prop where
  boot : 2 ≤ L.mftLcn
  cluster : 4096 ≤ L.bytesPerCluster
  whole : L.spc ∣ L.totalSectors

/-- The image holds the boot sectors already. -/
def HasBootSectors (L : Layout) (image : Mem) : Prop :=
  ∀ i < 512, image (L.lbaOff * L.bps + i) = bootSector L i ∧
    image ((L.lbaOff + (L.totalSectors - 1)) * L.bps + i) = bootSector L i

/-- The runs that meet the claim: large sectors end without a volume once the layout fits. -/
def Harmless (o : MkfsNtfsOpts) (hostBytes : UInt64) (image : Mem) : Prop :=
  SizesOk o hostBytes → if (volumeLayout o hostBytes).Fits then sectorBytes o ≤ 1024 → Apart (volumeLayout o hostBytes)
    else HasBootSectors (volumeLayout o hostBytes) image

/-! ## Areas and clusters -/

/-- The first byte and the length of the region of a part. -/
def area (L : Layout) : Part → Nat × Nat
  | .boot => (L.byteOff 0, 2 * L.bytesPerCluster)
  | .mft => (L.byteOff L.mftLcn, 16384)
  | .mftMirr => (L.byteOff L.mftmirrLcn, 4096)
  | .bitmap => (L.byteOff L.bitmapLcn, L.bitmapClusters * L.bytesPerCluster)
  | .attrDef => (L.byteOff L.attrdefLcn, 4096)
  | .logFile => (L.byteOff L.logfileLcn, 16 * L.bytesPerCluster)
  | .backup => ((L.lbaOff + (L.totalSectors - 1)) * L.bps, 512)

def InArea (L : Layout) (p : Part) (x : Nat) : Prop := (area L p).1 ≤ x ∧ x < (area L p).1 + (area L p).2

/-- The clusters that the formatter marks for a part: the first one, and the one behind the last. -/
def span (L : Layout) : Part → Nat × Nat
  | .boot => (0, 2)
  | .mft => (L.mftLcn, L.mftLcn + L.mftClusters)
  | .mftMirr => (L.mftmirrLcn, L.mftmirrLcn + L.mirrorClusters)
  | .bitmap => (L.bitmapLcn, L.bitmapLcn + L.bitmapClusters)
  | .attrDef => (L.attrdefLcn, L.attrdefLcn + 1)
  | .logFile => (L.logfileLcn, L.logfileLcn + 16)
  | .backup => (L.totalClusters - 1, L.totalClusters - 1 + 1)

def InSpan (L : Layout) (p : Part) (c : Nat) : Prop := (span L p).1 ≤ c ∧ c < (span L p).2

theorem mem_markedClusters {L : Layout} {c : Nat} : c ∈ markedClusters L ↔ ∃ p, InSpan L p c := by
  simp only [markedClusters, List.mem_append, List.mem_range'_1, List.mem_singleton]
  constructor
  · rintro ((((((h | h) | h) | h) | h) | h) | h)
    · exact ⟨.boot, by simpa [InSpan, span] using h⟩
    · exact ⟨.mft, h⟩
    · exact ⟨.mftMirr, h⟩
    · exact ⟨.bitmap, h⟩
    · exact ⟨.attrDef, h⟩
    · exact ⟨.logFile, h⟩
    · exact ⟨.backup, by simp only [InSpan, span]; omega⟩
  · rintro ⟨p, h⟩
    cases p <;> simp only [InSpan, span] at h <;> omega

section Clusters

variable {L : Layout}

theorem byteOff_le {m n : Nat} (h : m ≤ n) : L.byteOff m ≤ L.byteOff n := by
  have := Nat.mul_le_mul_right L.bytesPerCluster h
  simp only [Layout.byteOff]
  omega

theorem byteOff_lt {m n : Nat} (h : L.byteOff m < L.byteOff n) : m < n := by
  by_contra hle
  have := @byteOff_le L n m (by omega)
  omega

theorem byteOff_add (m n : Nat) : L.byteOff (m + n) = L.byteOff m + n * L.bytesPerCluster := by
  simp only [Layout.byteOff, Nat.add_mul]
  omega

/-- `k` clusters are needed for `len` bytes exactly when `k - 1` are too few. -/
theorem lt_clustersFor {k len : Nat} (hpos : 0 < L.bytesPerCluster) :
    k < clustersFor L len ↔ k * L.bytesPerCluster < len := by
  unfold clustersFor
  rw [Nat.lt_iff_add_one_le, Nat.le_div_iff_mul_le hpos, Nat.add_mul]
  omega

/-- The clusters that bytes from the start of a cluster on lie in. -/
theorem touches_iff {f len c : Nat} (hpos : 0 < L.bytesPerCluster) :
    (∃ x, (L.byteOff f ≤ x ∧ x < L.byteOff f + len) ∧ InCluster L c x) ↔ f ≤ c ∧ c < f + clustersFor L len := by
  constructor
  · rintro ⟨x, ⟨hlow, hhigh⟩, hc⟩
    have hfc : f < c + 1 := @byteOff_lt L f (c + 1) (by have := hc.2; omega)
    have hsplit := @byteOff_add L f (c - f)
    rw [show f + (c - f) = c by omega] at hsplit
    have := (@lt_clustersFor L (c - f) len hpos).mpr (by have := hc.1; omega)
    omega
  · rintro ⟨hfc, hlt⟩
    have hsplit := @byteOff_add L f (c - f)
    rw [show f + (c - f) = c by omega] at hsplit
    have := (@lt_clustersFor L (c - f) len hpos).mp (by omega)
    have := @byteOff_add L c 1
    exact ⟨L.byteOff c, ⟨by omega, by omega⟩, by unfold InCluster; omega⟩

theorem clustersFor_mul (n : Nat) (hpos : 0 < L.bytesPerCluster) : clustersFor L (n * L.bytesPerCluster) = n := by
  apply eq_of_forall_lt_iff
  intro k
  rw [lt_clustersFor hpos, Nat.mul_lt_mul_right hpos]

theorem clustersFor_one {len : Nat} (hlen : 0 < len) (hcluster : len ≤ L.bytesPerCluster) : clustersFor L len = 1 := by
  apply eq_of_forall_lt_iff
  intro k
  rw [lt_clustersFor (by omega)]
  constructor
  · intro h
    have : k = 0 := by
      by_contra hk
      have := Nat.le_mul_of_pos_left L.bytesPerCluster (Nat.pos_of_ne_zero hk)
      omega
    omega
  · intro h
    have : k = 0 := by omega
    subst this
    omega

/-- What `plan_layout` makes sure of. -/
structure Planned (L : Layout) : Prop where
  sector : 512 ≤ L.bps
  spc : 0 < L.spc
  cluster : L.bytesPerCluster = L.bps * L.spc
  record : L.bytesPerMftrec = 1024
  mft : 1 ≤ L.mftLcn

theorem Planned.cluster_pos (h : Planned L) : 512 ≤ L.bytesPerCluster := by
  have := Nat.le_mul_of_pos_right L.bps h.spc
  have := h.sector
  rw [h.cluster]
  omega

/-- A region other than the last sector lies in the clusters that are marked for it, once a cluster holds the attribute
definitions. -/
theorem touches_span {p : Part} {c : Nat} (h : Planned L) (hcluster : 4096 ≤ L.bytesPerCluster) (hp : p ≠ .backup) :
    (∃ x, InArea L p x ∧ InCluster L c x) ↔ InSpan L p c := by
  have hpos : 0 < L.bytesPerCluster := by omega
  cases p with
  | boot =>
      have := @touches_iff L 0 (2 * L.bytesPerCluster) c hpos
      rw [clustersFor_mul 2 hpos] at this
      exact this
  | mft =>
      have := @touches_iff L L.mftLcn 16384 c hpos
      rw [show clustersFor L 16384 = L.mftClusters by rw [Layout.mftClusters, h.record]] at this
      exact this
  | mftMirr =>
      have := @touches_iff L L.mftmirrLcn 4096 c hpos
      rw [show clustersFor L 4096 = L.mirrorClusters by rw [Layout.mirrorClusters, h.record]] at this
      exact this
  | bitmap =>
      have := @touches_iff L L.bitmapLcn (L.bitmapClusters * L.bytesPerCluster) c hpos
      rw [clustersFor_mul _ hpos] at this
      exact this
  | attrDef =>
      have := @touches_iff L L.attrdefLcn 4096 c hpos
      rw [clustersFor_one (by omega) hcluster] at this
      exact this
  | logFile =>
      have := @touches_iff L L.logfileLcn (16 * L.bytesPerCluster) c hpos
      rw [clustersFor_mul 16 hpos] at this
      exact this
  | backup => exact absurd rfl hp

/-- The clusters up to `n`, from the sectors that they have. -/
theorem byteOff_eq (h : Planned L) (n : Nat) : L.byteOff n = (L.lbaOff + n * L.spc) * L.bps := by
  rw [Layout.byteOff, h.cluster, Nat.add_mul, Nat.mul_assoc n, Nat.mul_comm L.spc]

theorem sector_le (h : Planned L) {m n : Nat} : m * L.bps ≤ n * L.bps ↔ m ≤ n :=
  Nat.mul_le_mul_right_iff (by have := h.sector; omega)

/-- The last sector lies in the last cluster when the clusters cover the volume. -/
theorem touches_backup {c : Nat} (h : Planned L) (hwhole : L.spc ∣ L.totalSectors) (htotal : 0 < L.totalClusters) :
    (∃ x, InArea L .backup x ∧ InCluster L c x) ↔ InSpan L .backup c := by
  have hsectors : L.totalClusters * L.spc = L.totalSectors := Nat.div_mul_cancel hwhole
  have hspc := h.spc
  have hsector := h.sector
  have hpos : 0 < L.totalSectors := by
    rw [← hsectors]
    exact Nat.mul_pos htotal hspc
  have hprev : (L.totalClusters - 1) * L.spc + L.spc = L.totalSectors := by
    rw [← hsectors, ← Nat.succ_mul]
    congr 1
    omega
  have hlast := byteOff_eq h (L.totalClusters - 1)
  have hend := byteOff_eq h (L.totalClusters - 1 + 1)
  rw [Nat.sub_add_cancel htotal, hsectors] at hend
  have hstart : (L.lbaOff + (L.totalClusters - 1) * L.spc) * L.bps ≤ (L.lbaOff + (L.totalSectors - 1)) * L.bps :=
    (sector_le h).mpr (by omega)
  have hnext : (L.lbaOff + (L.totalSectors - 1)) * L.bps + L.bps = (L.lbaOff + L.totalSectors) * L.bps := by
    rw [← Nat.succ_mul]
    congr 1
    omega
  simp only [InArea, area, InSpan, span, InCluster]
  constructor
  · rintro ⟨x, ⟨hlow, hhigh⟩, hc⟩
    have hfirst : c < L.totalClusters := @byteOff_lt L c L.totalClusters (by omega)
    have hsecond : L.totalClusters - 1 < c + 1 := @byteOff_lt L (L.totalClusters - 1) (c + 1) (by omega)
    omega
  · rintro ⟨hlow, hhigh⟩
    have hc : c = L.totalClusters - 1 := by omega
    refine ⟨(L.lbaOff + (L.totalSectors - 1)) * L.bps, ⟨by omega, by omega⟩, ?_⟩
    rw [hc, Nat.sub_add_cancel htotal]
    omega

/-- The marked clusters of two parts are apart in a layout that fits, but for those of $Boot. -/
theorem span_unique {p q : Part} {c : Nat} (hfits : L.Fits) (hboot : 2 ≤ L.mftLcn) (hp : InSpan L p c)
    (hq : InSpan L q c) : p = q := by
  obtain ⟨-, hmft, hlog⟩ := hfits
  have hbitmap : L.bitmapLcn = L.mftmirrLcn + L.mirrorClusters := rfl
  have hattr : L.attrdefLcn = L.bitmapLcn + L.bitmapClusters := rfl
  have hlogfile : L.logfileLcn = L.attrdefLcn + 1 := rfl
  cases p <;> cases q <;> simp only [InSpan, span] at hp hq <;> first | rfl | omega

theorem span_le {p : Part} (hfits : L.Fits) (hboot : 2 ≤ L.mftLcn) : (span L p).2 ≤ L.totalClusters := by
  obtain ⟨-, hmft, hlog⟩ := hfits
  have hbitmap : L.bitmapLcn = L.mftmirrLcn + L.mirrorClusters := rfl
  have hattr : L.attrdefLcn = L.bitmapLcn + L.bitmapClusters := rfl
  have hlogfile : L.logfileLcn = L.attrdefLcn + 1 := rfl
  cases p <;> simp only [span] <;> omega

/-- The cluster of a byte of the volume. -/
theorem exists_cluster {x : Nat} (hpos : 0 < L.bytesPerCluster) (hx : L.byteOff 0 ≤ x) : ∃ c, InCluster L c x := by
  refine ⟨(x - L.byteOff 0) / L.bytesPerCluster, ?_⟩
  have hdiv := Nat.div_mul_le_self (x - L.byteOff 0) L.bytesPerCluster
  have hmod := Nat.lt_div_mul_add hpos (a := x - L.byteOff 0)
  have hlow := @byteOff_add L 0 ((x - L.byteOff 0) / L.bytesPerCluster)
  have hhigh := @byteOff_add L ((x - L.byteOff 0) / L.bytesPerCluster) 1
  rw [Nat.zero_add] at hlow
  unfold InCluster
  omega

theorem touches {p : Part} {c : Nat} (h : Planned L) (ha : Apart L) (htotal : 0 < L.totalClusters) :
    (∃ x, InArea L p x ∧ InCluster L c x) ↔ InSpan L p c := by
  by_cases hp : p = .backup
  · subst hp
    exact touches_backup h ha.whole htotal
  · exact touches_span h ha.cluster hp

theorem area_ge {p : Part} {x : Nat} (hx : InArea L p x) : L.byteOff 0 ≤ x := by
  have hle (n : Nat) : L.byteOff 0 ≤ L.byteOff n := byteOff_le (Nat.zero_le n)
  have hsector : L.lbaOff * L.bps ≤ (L.lbaOff + (L.totalSectors - 1)) * L.bps := Nat.mul_le_mul_right _ (by omega)
  have hzero : L.byteOff 0 = L.lbaOff * L.bps := by simp [Layout.byteOff]
  have := hx.1
  cases p <;> simp only [area] at this <;>
    first
      | exact this
      | exact (hle _).trans this
      | omega

/-! ## The regions of a sound layout -/

/-- When the parts lie where the layout says, the volume is sound exactly when the layout keeps them apart. -/
theorem soundVolume_iff {d : Disk} (h : Planned L) (hfits : L.Fits)
    (hregion : ∀ p x, InRegion L d.log p x ↔ InArea L p x)
    (hbits : ∀ c, c < 8 * (L.bitmapClusters * L.bytesPerCluster) →
      ((bitmapOn L d).bit c = true ↔ c ∈ markedClusters L)) : SoundVolume L d ↔ Apart L := by
  have htotal : 0 < L.totalClusters := Nat.pos_of_ne_zero hfits.1
  have hpos : 0 < L.bytesPerCluster := by have := h.cluster_pos; omega
  constructor
  · intro hsound
    have hboot : 2 ≤ L.mftLcn := by
      by_contra hlt
      -- the MFT in the second cluster of $Boot
      have hone : L.mftLcn = 1 := by have := h.mft; omega
      have hadd := @byteOff_add L 0 1
      rw [Nat.zero_add] at hadd
      have := hsound.disjoint .boot .mft (L.byteOff 1) ((hregion _ _).mpr ⟨by simp only [area]; omega, by
        simp only [area]; omega⟩) ((hregion _ _).mpr ⟨by simp only [area, hone]; omega, by simp only [area, hone]; omega⟩)
      exact absurd this (by decide)
    have hcluster : 4096 ≤ L.bytesPerCluster := by
      by_contra hlt
      -- the attribute definitions reach into the log file
      have hadd := @byteOff_add L L.attrdefLcn 1
      have hlog : L.byteOff L.logfileLcn = L.byteOff (L.attrdefLcn + 1) := rfl
      have := hsound.disjoint .attrDef .logFile (L.byteOff L.logfileLcn) ((hregion _ _).mpr ⟨by simp only [area]; omega, by
        simp only [area]; omega⟩) ((hregion _ _).mpr ⟨by simp only [area]; omega, by simp only [area]; omega⟩)
      exact absurd this (by decide)
    refine ⟨hboot, hcluster, ?_⟩
    -- the last cluster is marked for the last sector
    have hroom : L.totalClusters - 1 < 8 * (L.bitmapClusters * L.bytesPerCluster) := by
      have hbytes : L.bitmapBytes ≤ L.bitmapClusters * L.bytesPerCluster := by
        have := (@lt_clustersFor L L.bitmapClusters L.bitmapBytes hpos)
        by_contra hgt
        exact absurd (this.mpr (by omega)) (lt_irrefl _)
      have : L.bitmapBytes = (L.totalClusters + 7) / 8 := rfl
      omega
    obtain ⟨p, x, hp, hx⟩ := (hsound.marked _ hroom).mp ((hbits _ hroom).mpr (mem_markedClusters.mpr
      ⟨.backup, by simp only [InSpan, span]; omega⟩))
    rw [hregion] at hp
    by_cases hback : p = .backup
    · subst hback
      have hlast := byteOff_eq h (L.totalClusters - 1 + 1)
      have hlow := hp.1
      have hhigh := hx.2
      simp only [area] at hlow
      rw [hlast, Nat.sub_add_cancel htotal] at hhigh
      have hlt := Nat.lt_of_mul_lt_mul_right (hlow.trans_lt hhigh)
      have hle := Nat.div_mul_le_self L.totalSectors L.spc
      have hsame : L.totalSectors / L.spc * L.spc = L.totalSectors := by
        have : L.totalClusters * L.spc = L.totalSectors / L.spc * L.spc := rfl
        omega
      exact Dvd.intro_left _ hsame
    · have hspan := (touches_span h hcluster hback).mp ⟨x, hp, hx⟩
      exact absurd (span_unique hfits hboot hspan (q := .backup) (by simp only [InSpan, span]; omega)) hback
  · intro ha
    refine ⟨fun p q x hp hq => ?_, fun p x hp => ?_, fun c hc => ?_⟩
    · rw [hregion] at hp hq
      obtain ⟨c, hc⟩ := exists_cluster hpos (area_ge hp)
      exact span_unique hfits ha.boot ((touches h ha htotal).mp ⟨x, hp, hc⟩) ((touches h ha htotal).mp ⟨x, hq, hc⟩)
    · rw [hregion] at hp
      obtain ⟨c, hc⟩ := exists_cluster hpos (area_ge hp)
      refine ⟨area_ge hp, ?_⟩
      have hspan := (touches h ha htotal).mp ⟨x, hp, hc⟩
      have hle := @span_le L p hfits ha.boot
      have hend := byteOff_eq h L.totalClusters
      rw [show L.totalClusters * L.spc = L.totalSectors from Nat.div_mul_cancel ha.whole] at hend
      have := @byteOff_le L (c + 1) L.totalClusters (by have := hspan.2; omega)
      have := hc.2
      omega
    · rw [hbits c hc, mem_markedClusters]
      constructor
      · rintro ⟨p, hp⟩
        obtain ⟨x, hx, hcx⟩ := (touches h ha htotal).mpr hp
        exact ⟨p, x, (hregion _ _).mpr hx, hcx⟩
      · rintro ⟨p, x, hp, hcx⟩
        exact ⟨p, (touches h ha htotal).mp ⟨x, (hregion _ _).mp hp, hcx⟩⟩

end Clusters

/-! ## What the writes cover -/

section Writes

variable {L : Layout}

theorem covers_put {d : Disk} {part p : Part} {off len x : Nat} {src : Mem} :
    Covers (d.put part off len src).log p x ↔ Covers d.log p x ∨ (part = p ∧ off ≤ x ∧ x < off + len) := by
  simp only [Covers, Disk.put, List.mem_append, List.mem_singleton]
  constructor
  · rintro ⟨w, hw | rfl, h⟩
    · exact Or.inl ⟨w, hw, h⟩
    · exact Or.inr h
  · rintro (⟨w, hw, h⟩ | h)
    · exact ⟨w, Or.inl hw, h⟩
    · exact ⟨_, Or.inr rfl, h⟩

/-- A write to bytes that are covered already. -/
theorem covers_put_within {d : Disk} {part p : Part} {off len x : Nat} {src : Mem}
    (h : ∀ y, off ≤ y → y < off + len → Covers d.log part y) :
    Covers (d.put part off len src).log p x ↔ Covers d.log p x := by
  rw [covers_put]
  constructor
  · rintro (hc | ⟨rfl, hlow, hhigh⟩)
    · exact hc
    · exact h x hlow hhigh
  · exact Or.inl

/-- The records go to an MFT that is cleared already, and to nothing else. -/
theorem writeRecords_spec {off : Nat} (hrec : L.bytesPerMftrec = 1024) (l : List Seed) : ∀ {d : Disk},
    (∀ s ∈ l, (metadataRecord L s).isSome ∧ s.recNo < 16) → (∀ y, off ≤ y → y < off + 16384 → Covers d.log .mft y) →
    ∃ d', writeRecords L off l d = (d', none) ∧ ∀ p x, Covers d'.log p x ↔ Covers d.log p x := by
  induction l with
  | nil => exact fun _ _ => ⟨_, rfl, fun _ _ => Iff.rfl⟩
  | cons s l ih =>
      intro d hl hcov
      obtain ⟨hsome, hno⟩ := hl s (by simp)
      obtain ⟨raw, hraw⟩ := Option.isSome_iff_exists.mp hsome
      have hput (p : Part) (x : Nat) :
          Covers (d.put .mft (off + s.recNo * L.bytesPerMftrec) 1024 raw).log p x ↔ Covers d.log p x := by
        apply covers_put_within
        rw [hrec]
        exact fun y hlow hhigh => hcov y (by omega) (by omega)
      obtain ⟨d', hd', hsame⟩ := @ih (d.put .mft (off + s.recNo * L.bytesPerMftrec) 1024 raw)
        (fun t ht => hl t (by simp [ht])) fun y hlow hhigh => (hput _ _).mpr (hcov y hlow hhigh)
      rw [writeRecords, hraw]
      exact ⟨d', hd', fun p x => (hsame p x).trans (hput p x)⟩

/-- The copies go to a mirror that is cleared already, and to nothing else. -/
theorem copyMirror_spec (hrec : L.bytesPerMftrec = 1024) (n : Nat) : ∀ {rec : Nat} {d : Disk}, rec + n ≤ 4 →
    (∀ y, L.byteOff L.mftmirrLcn ≤ y → y < L.byteOff L.mftmirrLcn + 4096 → Covers d.log .mftMirr y) →
    (∀ p x, Covers (copyMirror L n rec d).log p x ↔ Covers d.log p x) ∧
      ∀ x, (x < L.byteOff L.mftmirrLcn ∨ L.byteOff L.mftmirrLcn + 4096 ≤ x) → (copyMirror L n rec d).image x = d.image x := by
  induction n with
  | zero => exact fun _ _ => ⟨fun _ _ => Iff.rfl, fun _ _ => rfl⟩
  | succ n ih =>
      intro rec d hn hcov
      have hput (p : Part) (x : Nat) : Covers (d.put .mftMirr (L.byteOff L.mftmirrLcn + rec * L.bytesPerMftrec) 1024
          (d.image.slice (L.byteOff L.mftLcn + rec * L.bytesPerMftrec) 1024)).log p x ↔ Covers d.log p x := by
        apply covers_put_within
        rw [hrec]
        exact fun y hlow hhigh => hcov y (by omega) (by omega)
      obtain ⟨hsame, himage⟩ := @ih (rec + 1) (d.put .mftMirr (L.byteOff L.mftmirrLcn + rec * L.bytesPerMftrec) 1024
        (d.image.slice (L.byteOff L.mftLcn + rec * L.bytesPerMftrec) 1024)) (by omega)
        fun y hlow hhigh => (hput _ _).mpr (hcov y hlow hhigh)
      rw [copyMirror]
      refine ⟨fun p x => (hsame p x).trans (hput p x), fun x hx => (himage x hx).trans ?_⟩
      rw [hrec]
      exact Mem.write_out (by omega)

theorem bit_foldl_setBit (l : List Nat) : ∀ {p : Mem} {c : Nat},
    (l.foldl Mem.setBit p).bit c = true ↔ c ∈ l ∨ p.bit c = true := by
  induction l with
  | nil => simp
  | cons a l ih =>
      intro p c
      rw [List.foldl_cons, ih, Mem.bit_setBit, List.mem_cons]
      simp only [Bool.or_eq_true, decide_eq_true_eq]
      constructor
      · rintro (h | rfl | h)
        · exact Or.inl (Or.inr h)
        · exact Or.inl (Or.inl rfl)
        · exact Or.inr h
      · rintro ((rfl | h) | h)
        · exact Or.inr (Or.inl rfl)
        · exact Or.inl h
        · exact Or.inr (Or.inr h)

/-- The nine files of a layout that fits. -/
theorem seeds_ok (h : Planned L) (hfits : L.Fits) (htotal : L.totalSectors < 2 ^ 55) : ∀ s ∈ seeds L, s.Ok := by
  have hpos : 0 < L.bytesPerCluster := by have := h.cluster_pos; omega
  have hclusters : L.totalClusters ≤ L.totalSectors := Nat.div_le_self _ _
  obtain ⟨hne, hmft, hlog⟩ := hfits
  have hbitmap : L.bitmapLcn = L.mftmirrLcn + L.mirrorClusters := rfl
  have hattr : L.attrdefLcn = L.bitmapLcn + L.bitmapClusters := rfl
  have hlogfile : L.logfileLcn = L.attrdefLcn + 1 := rfl
  have hsome {len : Nat} (hlen : 0 < len) : 0 < clustersFor L len := (lt_clustersFor hpos).mpr (by omega)
  have hmftPos : 0 < L.mftClusters := hsome (by rw [h.record]; omega)
  have hmirrPos : 0 < L.mirrorClusters := hsome (by rw [h.record]; omega)
  have hbitPos : 0 < L.bitmapClusters := hsome (by
    have : L.bitmapBytes = (L.totalClusters + 7) / 8 := rfl
    omega)
  intro s hs
  simp only [seeds, List.mem_cons, List.not_mem_nil, or_false] at hs
  rcases hs with rfl | rfl | rfl | rfl | rfl | rfl | rfl | rfl | rfl
  · exact ok_of_data (by decide) (by decide) (by omega) hmftPos (by omega)
  · exact ok_of_data (by decide) (by decide) (by omega) hmirrPos (by omega)
  · exact ok_of_data (by decide) (by decide) (by omega) (by omega) (by omega)
  · exact ok_of_none (by decide) (by decide) (by decide)
  · exact ok_of_data (by decide) (by decide) (by omega) (by omega) (by omega)
  · exact ok_of_none (by decide) (by decide) (by decide)
  · exact ok_of_data (by decide) (by decide) (by omega) hbitPos (by omega)
  · exact ok_of_data (by decide) (by decide) (by omega) (by omega) (by omega)
  · exact ok_of_none (by decide) (by decide) (by decide)

end Writes

/-! ## The formatter -/

section Formatter

variable {L : Layout}

theorem covers_writeBootSector {image : Mem} {p : Part} {x : Nat} : Covers (writeBootSector ⟨image, []⟩ L).log p x ↔
    (p = .boot ∧ L.byteOff 0 ≤ x ∧ x < L.byteOff 0 + 512) ∨ (p = .backup ∧ InArea L .backup x) := by
  have hzero : L.byteOff 0 = L.lbaOff * L.bps := by simp [Layout.byteOff]
  have hnone : ¬ Covers [] p x := by
    rintro ⟨w, hw, -⟩
    exact absurd hw List.not_mem_nil
  unfold writeBootSector
  rw [covers_put, covers_put, hzero]
  constructor
  · rintro ((h | ⟨rfl, h⟩) | ⟨rfl, h⟩)
    · exact absurd h hnone
    · exact Or.inl ⟨rfl, h⟩
    · exact Or.inr ⟨rfl, h⟩
  · rintro (⟨rfl, h⟩ | ⟨rfl, h⟩)
    · exact Or.inl (Or.inr ⟨rfl, h⟩)
    · exact Or.inr ⟨rfl, h⟩

/-- With sectors of 512 or 1024 bytes a layout that fits is written, each part to its area. -/
theorem writeVolume_done {image : Mem} (h : Planned L) (hfits : L.Fits) (htotal : L.totalSectors < 2 ^ 55)
    (hbps : L.bps = 512 ∨ L.bps = 1024) : ∃ d, writeVolume L (writeBootSector ⟨image, []⟩ L) = (.done, d) ∧
      (∀ p x, InRegion L d.log p x ↔ InArea L p x) ∧ ∀ c, c < 8 * (L.bitmapClusters * L.bytesPerCluster) →
        ((bitmapOn L d).bit c = true ↔ c ∈ markedClusters L) := by
  have hpos := h.cluster_pos
  obtain ⟨d, hd, hsame⟩ := @writeRecords_spec L (L.byteOff L.mftLcn) h.record (seeds L)
    (zeroRegion (zeroRegion (writeBootSector ⟨image, []⟩ L) .mft (L.byteOff L.mftLcn) (16 * L.bytesPerMftrec)) .mftMirr
      (L.byteOff L.mftmirrLcn) (4 * L.bytesPerMftrec))
    (fun s hs => ⟨metadataRecord_isSome h.record hbps (seeds_ok h hfits htotal s hs), (seeds_ok h hfits htotal s hs).number⟩)
    (fun y hlow hhigh => covers_put.mpr (Or.inl (covers_put.mpr (Or.inr ⟨rfl, hlow, by rw [h.record]; omega⟩))))
  have hcleared (p : Part) (x : Nat) : Covers d.log p x ↔ Covers (writeBootSector ⟨image, []⟩ L).log p x ∨
      (p = .mft ∧ InArea L .mft x) ∨ (p = .mftMirr ∧ InArea L .mftMirr x) := by
    rw [hsame, zeroRegion, covers_put, zeroRegion, covers_put, h.record, or_assoc, @eq_comm _ Part.mft,
      @eq_comm _ Part.mftMirr]
    rfl
  obtain ⟨full, hfull⟩ : ∃ full, full = (zeroRegion (d.put .attrDef (L.byteOff L.attrdefLcn) 4096
    (Mem.ofList attrDefTable)) .logFile (L.byteOff L.logfileLcn) (16 * L.bytesPerCluster)).put .bitmap
      (L.byteOff L.bitmapLcn) (L.bitmapClusters * L.bytesPerCluster) (bitmapData L) := ⟨_, rfl⟩
  have hwritten (p : Part) (x : Nat) : Covers full.log p x ↔ ((Covers d.log p x ∨ (p = .attrDef ∧ InArea L .attrDef x)) ∨
      (p = .logFile ∧ InArea L .logFile x)) ∨ (p = .bitmap ∧ InArea L .bitmap x) := by
    rw [hfull, covers_put, zeroRegion, covers_put, covers_put, @eq_comm _ Part.attrDef, @eq_comm _ Part.logFile,
      @eq_comm _ Part.bitmap]
    rfl
  obtain ⟨hcopy, himage⟩ := @copyMirror_spec L h.record 4 0 full (by omega) fun y hlow hhigh => (hwritten _ _).mpr
    (Or.inl (Or.inl (Or.inl ((hcleared _ _).mpr (Or.inr (Or.inr ⟨rfl, hlow, hhigh⟩))))))
  refine ⟨copyMirror L 4 0 full, by unfold writeVolume; dsimp only []; rw [hd, hfull], fun p x => ?_, fun c hc => ?_⟩
  · unfold InRegion
    rw [hcopy, hwritten, hcleared, covers_writeBootSector]
    have htwo := @byteOff_add L 0 2
    rw [Nat.zero_add] at htwo
    cases p <;> simp [InArea, area] <;> omega
  · -- the copies to the mirror end in front of the bitmap
    have hmirror := byteOff_add (L := L) L.mftmirrLcn L.mirrorClusters
    have hlong : 4096 ≤ L.mirrorClusters * L.bytesPerCluster := by
      have := @lt_clustersFor L L.mirrorClusters 4096 (by omega)
      rw [show clustersFor L 4096 = L.mirrorClusters by rw [Layout.mirrorClusters, h.record]] at this
      by_contra hgt
      exact absurd (this.mpr (by omega)) (lt_irrefl _)
    have hlcn : L.bitmapLcn = L.mftmirrLcn + L.mirrorClusters := rfl
    have hbyte : bitmapOn L (copyMirror L 4 0 full) (c / 8) = bitmapData L (c / 8) := by
      unfold bitmapOn
      rw [Mem.slice_in (by omega), himage _ (Or.inr (by rw [hlcn, hmirror]; omega)), hfull]
      refine (Mem.write_in (Nat.le_add_right _ _) (by omega)).trans ?_
      rw [Nat.add_sub_cancel_left]
    rw [Mem.bit_congr hbyte, bitmapData, bit_foldl_setBit, Mem.bit_zero]
    simp

theorem writeVolume_badRecord {d : Disk} (hbps : 1024 < L.bps) : (writeVolume L d).1 = .badRecord 0 := by
  unfold writeVolume
  dsimp only []
  rw [seeds, writeRecords, metadataRecord_none hbps]

/-- The two boot sectors are all that a rejected layout leaves. -/
theorem writeBootSector_same {image : Mem} (h : Planned L) (htotal : 2 ≤ L.totalSectors) :
    (∀ x, (writeBootSector ⟨image, []⟩ L).image x = image x) ↔ HasBootSectors L image := by
  have hsector := h.sector
  have hapart : L.lbaOff * L.bps + L.bps ≤ (L.lbaOff + (L.totalSectors - 1)) * L.bps := by
    rw [← Nat.succ_mul]
    exact (sector_le h).mpr (by omega)
  show (∀ x, ((image.write (L.lbaOff * L.bps) 512 (bootSector L)).write ((L.lbaOff + (L.totalSectors - 1)) * L.bps) 512
    (bootSector L)) x = image x) ↔ _
  unfold HasBootSectors
  generalize (L.lbaOff + (L.totalSectors - 1)) * L.bps = last at hapart ⊢
  generalize L.lbaOff * L.bps = first at hapart ⊢
  constructor
  · intro hsame i hi
    have hfirstByte := hsame (first + i)
    have hlastByte := hsame (last + i)
    rw [Mem.write_out (by omega), Mem.write_in (by omega) (by omega), Nat.add_sub_cancel_left] at hfirstByte
    rw [Mem.write_in (by omega) (by omega), Nat.add_sub_cancel_left] at hlastByte
    exact ⟨hfirstByte.symm, hlastByte.symm⟩
  · intro hhas x
    by_cases hlast : last ≤ x ∧ x < last + 512
    · obtain ⟨i, rfl⟩ : ∃ i, x = last + i := ⟨x - last, by omega⟩
      rw [Mem.write_in (by omega) (by omega), Nat.add_sub_cancel_left]
      exact (hhas i (by omega)).2.symm
    · rw [Mem.write_out (by omega)]
      by_cases hin : first ≤ x ∧ x < first + 512
      · obtain ⟨i, rfl⟩ : ∃ i, x = first + i := ⟨x - first, by omega⟩
        rw [Mem.write_in (by omega) (by omega), Nat.add_sub_cancel_left]
        exact (hhas i (by omega)).1.symm
      · exact Mem.write_out (by omega)

end Formatter

/-! ## Runs -/

theorem planned {o : MkfsNtfsOpts} {hostBytes : UInt64} (h : SizesOk o hostBytes) : Planned (volumeLayout o hostBytes) := by
  have hspc : 0 < if o.secPerClus = 0 then 8 else o.secPerClus.toNat := by
    by_cases h0 : o.secPerClus = 0
    · rw [if_pos h0]
      omega
    · rw [if_neg h0]
      exact Nat.pos_of_ne_zero fun hz => h0 (UInt8.toNat_inj.mp hz)
  have hmft : 1 ≤ if o.mftStartClus = 0 then 4 else o.mftStartClus.toNat := by
    by_cases h0 : o.mftStartClus = 0
    · rw [if_pos h0]
      omega
    · rw [if_neg h0]
      exact Nat.pos_of_ne_zero fun hz => h0 (UInt32.toNat_inj.mp hz)
  exact ⟨by have := h.sector; show 512 ≤ sectorBytes o; omega, hspc, rfl, rfl, hmft⟩

theorem totalSectors_bounds {o : MkfsNtfsOpts} {hostBytes : UInt64} (h : SizesOk o hostBytes) :
    100 ≤ (volumeLayout o hostBytes).totalSectors ∧ (volumeLayout o hostBytes).totalSectors < 2 ^ 55 := by
  show 100 ≤ bytesTotal o hostBytes / sectorBytes o ∧ bytesTotal o hostBytes / sectorBytes o < 2 ^ 55
  have hlt := hostBytes.toNat_lt
  have hfits := h.fits
  have hlarge := h.large
  have hsector := h.sector
  have hpos : 0 < sectorBytes o := by omega
  constructor
  · rw [Nat.le_div_iff_mul_le hpos, Nat.mul_comm]
    exact hlarge
  · rw [Nat.div_lt_iff_lt_mul hpos]
    omega

/-- A run in sizes that are accepted. -/
theorem mkfsNtfsCore_sizes {o : MkfsNtfsOpts} {hostBytes : UInt64} {image : Mem} (h : SizesOk o hostBytes) :
    mkfsNtfsCore o hostBytes image = if (volumeLayout o hostBytes).Fits then
      writeVolume (volumeLayout o hostBytes) (writeBootSector ⟨image, []⟩ (volumeLayout o hostBytes))
    else (.noLayout, writeBootSector ⟨image, []⟩ (volumeLayout o hostBytes)) := by
  have hsector := h.sector
  have hfits := h.fits
  have hlarge := h.large
  unfold mkfsNtfsCore
  dsimp only []
  rw [if_neg (by omega), if_neg (by omega), if_neg (by omega)]
  rfl

/-- Other sizes are rejected before anything is written. -/
theorem mkfsNtfsCore_other {o : MkfsNtfsOpts} {hostBytes : UInt64} {image : Mem} (h : ¬ SizesOk o hostBytes) :
    (mkfsNtfsCore o hostBytes image).1 ≠ .done ∧ (mkfsNtfsCore o hostBytes image).1 ≠ .noLayout := by
  unfold mkfsNtfsCore
  dsimp only []
  by_cases hsector : sectorBytes o ≠ 512 ∧ sectorBytes o ≠ 1024 ∧ sectorBytes o ≠ 2048 ∧ sectorBytes o ≠ 4096
  · rw [if_pos hsector]
    exact ⟨by simp, by simp⟩
  · rw [if_neg hsector]
    by_cases hfits : baseBytes o > hostBytes.toNat ∨ bytesTotal o hostBytes > hostBytes.toNat - baseBytes o
    · rw [if_pos hfits]
      exact ⟨by simp, by simp⟩
    · rw [if_neg hfits]
      by_cases hsmall : bytesTotal o hostBytes < sectorBytes o * 100
      · rw [if_pos hsmall]
        exact ⟨by simp, by simp⟩
      · exact absurd ⟨by omega, ⟨by omega, by omega⟩, by omega⟩ h

/-- The formatter does what it should exactly on the harmless runs. -/
theorem mkfsNtfsCore_meets_iff (o : MkfsNtfsOpts) (hostBytes : UInt64) (image : Mem) :
    Meets o hostBytes image ↔ Harmless o hostBytes image := by
  unfold Meets Harmless
  by_cases hsizes : SizesOk o hostBytes
  · have hplan := planned hsizes
    obtain ⟨hmin, hmax⟩ := totalSectors_bounds hsizes
    rw [mkfsNtfsCore_sizes hsizes]
    by_cases hfits : (volumeLayout o hostBytes).Fits
    · rw [if_pos hfits, if_pos hfits]
      have hbps : (volumeLayout o hostBytes).bps = sectorBytes o := rfl
      by_cases hlarge : sectorBytes o ≤ 1024
      · obtain ⟨d, hd, hregion, hbits⟩ := @writeVolume_done _ image hplan hfits hmax (by have := hsizes.sector; omega)
        rw [hd]
        have hiff := soundVolume_iff hplan hfits hregion hbits
        constructor
        · exact fun hmeets _ _ => hiff.mp (hmeets.1 rfl)
        · exact fun hok => ⟨fun _ => hiff.mpr (hok hsizes hlarge), nofun⟩
      · -- no record fits sectors of this size
        have hbad := @writeVolume_badRecord _ (writeBootSector ⟨image, []⟩ (volumeLayout o hostBytes))
          (show 1024 < (volumeLayout o hostBytes).bps by omega)
        rw [hbad]
        exact iff_of_true ⟨nofun, nofun⟩ fun _ hsmall => absurd hsmall hlarge
    · rw [if_neg hfits, if_neg hfits]
      have hsame := @writeBootSector_same _ image hplan (by omega)
      constructor
      · exact fun hmeets _ => hsame.mp (hmeets.2 rfl)
      · exact fun hok => ⟨nofun, fun _ => hsame.mpr (hok hsizes)⟩
  · obtain ⟨hdone, hno⟩ := @mkfsNtfsCore_other o hostBytes image hsizes
    exact iff_of_true ⟨fun h => absurd h hdone, fun h => absurd h hno⟩ fun h => absurd h hsizes

/-- An image of 50 KiB is too small for the layout, and gets the boot sectors. On one of 1 MiB an MFT at cluster 1 is
accepted, and takes the second cluster of $Boot. -/
theorem rejected_and_overlapping : ¬ Meets ⟨0, 0, 0, 0, 0, 0⟩ 51200 Mem.zero ∧
    ¬ Meets ⟨0, 0, 0, 0, 1, 0⟩ 1048576 Mem.zero := by
  constructor
  · intro h
    have hsame := h.2 (by decide +kernel) 510
    exact absurd hsame (by decide +kernel)
  · intro h
    have hsound := h.1 (by decide +kernel)
    have hmft : ⟨.mft, 4096, 16384⟩ ∈ (mkfsNtfsCore ⟨0, 0, 0, 0, 1, 0⟩ 1048576 Mem.zero).2.log := by decide +kernel
    have hsame := hsound.disjoint .boot .mft 4096 (Or.inr ⟨rfl, by decide, by decide⟩)
      (Or.inl ⟨_, hmft, rfl, by decide, by decide⟩)
    exact absurd hsame (by decide)

end Guppy.Ntfs
