import Guppy.Lib.BigEndian
import Guppy.Vdisk.VdiFlat
import Guppy.Vdisk.Inspect

set_option autoImplicit false

/-! # Fixed VHD images

`lib/vdisk/src/backend_vhd.c`: a fixed image is the guest disk followed by a footer of 512 bytes
with big-endian fields. `vhd_create_fixed` writes the footer, `fixed_footer_valid` decides whether
the image opens, and `vdisk_vhd_inspect` reports on it.

For every size that is accepted the footer opens, states the size and carries the right checksum,
and its geometry fits its fields and the disk (`created_vhd_opens`). The inspector asks more: it
wants a geometry with at least one cylinder, which a disk of fewer than 68 sectors does not have
(`created_vhd_right_iff`).
-/

namespace Guppy.Vdisk

open Prog

def vhdFooterSize : Nat := 512
def vhdSectorSize : Nat := 512
def vhdTypeFixed : Nat := 2
def vhdEpochDelta : Nat := 946684800

/-- The bytes of `"conectix"`. -/
def vhdCookie : List UInt8 := [99, 111, 110, 101, 99, 116, 105, 120]

/-! ## The footer -/

/-- `footer_checksum`: the complement of the sum of all bytes but those of the checksum. -/
def footerChecksum (footer : Mem) : Nat :=
  uint32Max - (List.range vhdFooterSize).foldl (fun sum i =>
    if 64 ≤ i ∧ i < 68 then sum else (sum + (footer i).toNat) % (uint32Max + 1)) 0

/-- A geometry: cylinders, heads and sectors per track. -/
structure Chs where
  cylinders : Nat
  heads : Nat
  sectors : Nat

/-- `total_sectors` of `geometry_for`. -/
def totalSectors (sizeBytes : Nat) : Nat :=
  if 65535 * 16 * 255 < sizeBytes / vhdSectorSize then 65535 * 16 * 255 else sizeBytes / vhdSectorSize

/-- The heads and the sectors per track that `geometry_for` settles on for a number of sectors. -/
def trackShape (totalSectors : Nat) : Nat × Nat :=
  if 65535 * 16 * 63 ≤ totalSectors then (16, 255)
  else
    let cylTimesHeads := totalSectors / 17
    let h := (cylTimesHeads + 1023) / 1024 % (uint32Max + 1)
    let h := if h < 4 then 4 else h
    let far : Bool := h * 1024 ≤ cylTimesHeads ∨ 16 < h
    let spt := if far = true then 31 else 17
    let h := if far = true then 16 else h
    if h * 1024 ≤ totalSectors / spt then (16, 63) else (h, spt)

/-- The geometry before it is narrowed to the fields of the footer. -/
def wideGeometry (sizeBytes : Nat) : Chs :=
  let s := trackShape (totalSectors sizeBytes)
  let h := if s.1 = 0 then 1 else s.1
  { cylinders := totalSectors sizeBytes / s.2 / h, heads := h, sectors := s.2 }

/-- `geometry_for` -/
def geometryFor (sizeBytes : Nat) : Chs :=
  let g := wideGeometry sizeBytes
  { cylinders := g.cylinders % 65536, heads := g.heads % 256, sectors := g.sectors % 256 }

/-- `vhd_timestamp_now`, when `time` returns `now`. -/
def vhdTimestampNow (now : Int) : Nat :=
  if now ≤ 0 then 0
  else
    let unixSecs := now.toNat
    if unixSecs ≤ vhdEpochDelta then 0
    else if uint32Max < unixSecs - vhdEpochDelta then uint32Max
    else unixSecs - vhdEpochDelta

/-- One round of `make_uuid`. -/
def uuidStep (x : Nat) : Nat :=
  let x := x ^^^ (x <<< 13 % (uint64Max + 1))
  let x := x ^^^ (x >>> 7)
  x ^^^ (x <<< 17 % (uint64Max + 1))

/-- `make_uuid` -/
def makeUuid (now : Int) (sizeBytes : Nat) : Mem :=
  let x := (vhdTimestampNow now <<< 32) ^^^ sizeBytes ^^^ 0x4755505059564844
  let seed := if x = 0 then 0x9e3779b97f4a7c15 else x
  fun i =>
    let b := uuidStep^[i + 1] seed >>> ((i % 8) * 8) % 256
    UInt8.ofNat (if i = 6 then b &&& 0x0f ||| 0x40 else if i = 8 then b &&& 0x3f ||| 0x80 else b)

/-- `build_footer`. The clock is read twice: for the time stamp and for the UUID. -/
def buildFooter (sizeBytes : Nat) (now now' : Int) : Option Mem :=
  if sizeBytes = 0 ∨ sizeBytes % vhdSectorSize ≠ 0 then none
  else
    let f := Mem.zero.write 0 8 (Mem.ofList vhdCookie)
    let f := f.wb32 8 0x00000002
    let f := f.wb32 12 0x00010000
    let f := f.wb64 16 uint64Max
    let f := f.wb32 24 (vhdTimestampNow now)
    let f := f.write 28 4 (Mem.ofList [71, 85, 80, 80])
    let f := f.wb32 32 0x00010000
    let f := f.write 36 4 (Mem.ofList [87, 105, 50, 107])
    let f := f.wb64 40 sizeBytes
    let f := f.wb64 48 sizeBytes
    let g := geometryFor sizeBytes
    let f := f.wb16 56 g.cylinders
    let f := f.wr8 58 g.heads
    let f := f.wr8 59 g.sectors
    let f := f.wb32 60 vhdTypeFixed
    let f := f.write 68 16 (makeUuid now' sizeBytes)
    let f := f.wr8 84 0
    some (f.wb32 64 (footerChecksum f))

/-- `read_footer`: the last 512 bytes of the file. -/
def readFooter (f : HostFile) : Option Mem :=
  if f.size < vhdFooterSize then none else f.read (f.size - vhdFooterSize) vhdFooterSize

/-- `fixed_footer_valid`: the logical size, when the footer is valid. -/
def fixedFooterValid (f : Mem) (hostSize : Nat) : Option Nat :=
  if f.toList 0 8 ≠ vhdCookie then none
  else if f.rb32 60 ≠ vhdTypeFixed then none
  else if f.rb64 16 ≠ uint64Max then none
  else if f.rb32 12 ≠ 0x00010000 then none
  else if f.rb32 64 ≠ footerChecksum f then none
  else if f.rb64 48 = 0 ∨ f.rb64 48 % vhdSectorSize ≠ 0 then none
  else if hostSize ≠ (f.rb64 48 + vhdFooterSize) % (uint64Max + 1) then none
  else some (f.rb64 48)

/-- `vhd_probe` -/
def vhdProbe (f : HostFile) : Bool :=
  match readFooter f with
  | none => false
  | some footer => (fixedFooterValid footer f.size).isSome

/-! ## The backend -/

/-- `vdisk_host_seek`: the offset becomes a signed 64-bit number, and a negative one is refused. -/
def vdiskHostSeek (off : Nat) : Prog DiskState Unit := failIf (9223372036854775808 ≤ off) (-1)

/-- The disk of a fixed image of `sizeBytes` bytes. -/
def vhdDisk (d : Disk) (sizeBytes hostSize : Nat) : Disk :=
  let sectors := sizeBytes / vhdSectorSize
  let blocks := if uint32Max < sectors then uint32Max else sectors
  { sizeBytes := sizeBytes
    dataOffset := 0
    hostSizeBytes := hostSize
    blockSize := vhdSectorSize
    blocksOffset := 0
    blocksCount := blocks
    blocksAllocated := blocks
    imageType := vhdTypeFixed
    writable := d.writable }

def vhdOpen : Prog DiskState Unit := do
  let s ← get
  match readFooter s.file with
  | none => throw (-1)
  | some footer =>
      match fixedFooterValid footer s.file.size with
      | none => throw (-1)
      | some logicalSize => set { s with disk := vhdDisk s.disk logicalSize s.file.size }

/-- `vhd_create_fixed`: one byte gives the guest disk its size, the footer follows it. -/
def vhdCreateFixed (sizeBytes : Nat) (now now' : Int) : Prog DiskState Unit := do
  match buildFooter sizeBytes now now' with
  | none => throw (-1)
  | some footer =>
      vdiskHostSeek (sizeBytes - 1)
      vdiskHostWrite (sizeBytes - 1) 1 Mem.zero
      vdiskHostSeek sizeBytes
      vdiskHostWrite sizeBytes vhdFooterSize footer
      modify (fun s => { s with disk := vhdDisk s.disk sizeBytes (sizeBytes + vhdFooterSize) })

/-! ## The inspector -/

def vhdVariant (type : Nat) : String :=
  if type = vhdTypeFixed then "fixed/full"
  else if type = 3 then "dynamic"
  else if type = 4 then "differencing"
  else "unknown"

/-- The fields of the report that are copied from the footer. -/
def infoOfFooter (f : Mem) (hostSize : Nat) : Info :=
  let sectors := f.rb64 48 / vhdSectorSize
  { Info.cleared with
    format := .vhd
    hostSizeBytes := hostSize
    logicalSizeBytes := f.rb64 48
    dataOffset := 0
    imageType := f.rb32 60
    sectorSize := vhdSectorSize
    blockSize := vhdSectorSize
    blocksCount := if sectors ≤ uint32Max then sectors else 0
    blocksAllocated := if sectors ≤ uint32Max then sectors else 0
    supported := decide (f.rb32 60 = vhdTypeFixed)
    variant := vhdVariant (f.rb32 60) }

def footerChecks (f : Mem) (hostSize : Nat) : List Bool :=
  ([ f.toList 0 8 = vhdCookie,
    f.rb32 8 = 0x00000002,
    f.rb32 12 = 0x00010000,
    if f.rb32 60 = vhdTypeFixed then decide (f.rb64 16 = uint64Max) else true,
    f.rb64 48 ≠ 0 ∧ f.rb64 48 % vhdSectorSize = 0,
    f.rb64 40 = f.rb64 48,
    f.rb16 56 ≠ 0 ∧ f 58 ≠ 0 ∧ f 59 ≠ 0,
    f.rb32 64 = footerChecksum f ] : List Bool) ++
  if f.rb32 60 = vhdTypeFixed then
    [decide (hostSize = (f.rb64 48 + vhdFooterSize) % (uint64Max + 1))]
  else []

def vdiskVhdInspect (f : HostFile) : Option Info := do
  let footer ← readFooter f
  some ((infoOfFooter footer f.size).checks (footerChecks footer f.size)).conclude

/-! ## The geometry -/

/-- The shapes that `geometry_for` chooses from, with what it knows about the disk then. -/
theorem trackShape_cases (t : Nat) (ht : t ≤ 65535 * 16 * 255) :
    (trackShape t = (16, 255) ∧ 65535 * 16 * 63 ≤ t) ∨
    (trackShape t = (16, 63) ∧ t < 65535 * 16 * 63 ∧ 16 * 1024 * 17 ≤ t) ∨
    (trackShape t = (16, 31) ∧ t / 31 < 16 * 1024 ∧ 4 * 1024 * 17 ≤ t) ∨
    ∃ h, trackShape t = (h, 17) ∧ 4 ≤ h ∧ h ≤ 16 ∧ t / 17 < h * 1024 ∧ (4 < h → 4096 < t / 17) := by
  by_cases hbig : 65535 * 16 * 63 ≤ t
  · exact Or.inl ⟨if_pos hbig, hbig⟩
  have hmod : (t / 17 + 1023) / 1024 % (uint32Max + 1) = (t / 17 + 1023) / 1024 := by
    apply Nat.mod_eq_of_lt
    simp only [uint32Max]
    omega
  set h := if (t / 17 + 1023) / 1024 < 4 then 4 else (t / 17 + 1023) / 1024 with hh
  have h4 : 4 ≤ h ∧ (4 < h → 4096 < t / 17) ∧ (16 < h → 16 * 1024 * 17 ≤ t) := by
    rw [hh]
    split <;> omega
  have hshape : trackShape t =
      (if (if h * 1024 ≤ t / 17 ∨ 16 < h then 16 else h) * 1024 ≤ t / (if h * 1024 ≤ t / 17 ∨ 16 < h then 31 else 17)
        then (16, 63)
        else ((if h * 1024 ≤ t / 17 ∨ 16 < h then 16 else h), if h * 1024 ≤ t / 17 ∨ 16 < h then 31 else 17)) := by
    unfold trackShape
    rw [if_neg hbig]
    simp only [hmod, ← hh, decide_eq_true_eq]
  by_cases hfar : h * 1024 ≤ t / 17 ∨ 16 < h
  · -- the disk is too large for 17 sectors in a track
    rw [hshape, if_pos hfar, if_pos hfar]
    have hlow : 4 * 1024 * 17 ≤ t := by omega
    by_cases h63 : 16 * 1024 ≤ t / 31
    · rw [if_pos h63]
      exact Or.inr (Or.inl ⟨rfl, by omega, by omega⟩)
    · rw [if_neg h63]
      exact Or.inr (Or.inr (Or.inl ⟨rfl, by omega, hlow⟩))
  · rw [hshape, if_neg hfar, if_neg hfar, if_neg (by omega)]
    exact Or.inr (Or.inr (Or.inr ⟨h, rfl, h4.1, by omega, by omega, h4.2.1⟩))

theorem totalSectors_le (sizeBytes : Nat) : totalSectors sizeBytes ≤ 65535 * 16 * 255 ∧
    totalSectors sizeBytes ≤ sizeBytes / vhdSectorSize ∧
    (68 ≤ totalSectors sizeBytes ↔ 68 ≤ sizeBytes / vhdSectorSize) := by
  unfold totalSectors
  split <;> omega

/-- What the shape gives for a disk of `t` sectors: the geometry fits its fields and the disk, and
it has a cylinder exactly when 4 heads can read 17 sectors each. -/
structure ShapeFits (t heads sectors : Nat) : Prop where
  cylinders_lt : t / sectors / heads < 65536
  heads_pos : 0 < heads
  heads_lt : heads < 256
  sectors_pos : 0 < sectors
  sectors_lt : sectors < 256
  cylinders_pos : 0 < t / sectors / heads ↔ 68 ≤ t

theorem trackShape_fits (t : Nat) (ht : t ≤ 65535 * 16 * 255) :
    ShapeFits t (trackShape t).1 (trackShape t).2 := by
  rcases trackShape_cases t ht with ⟨hs, h⟩ | ⟨hs, h, h'⟩ | ⟨hs, h, h'⟩ | ⟨n, hs, h4, h16, h, hlow⟩
  · rw [hs]
    constructor <;> simp only [] <;> omega
  · rw [hs]
    constructor <;> simp only [] <;> omega
  · rw [hs]
    constructor <;> simp only [] <;> omega
  · rw [hs]
    refine ⟨?_, by omega, by omega, by omega, by omega, ?_⟩
    · -- below 1024 cylinders
      apply lt_trans (b := 1024)
      · exact Nat.div_lt_of_lt_mul h
      · decide
    · show 0 < t / 17 / n ↔ 68 ≤ t
      rw [Nat.div_pos_iff]
      constructor
      · rintro ⟨-, hle⟩
        omega
      · intro h68
        by_cases hn : 4 < n
        · have := hlow hn
          omega
        · omega

/-- The geometry of the footer is the geometry computed. -/
theorem geometryFor_eq (sizeBytes : Nat) : geometryFor sizeBytes = wideGeometry sizeBytes := by
  have h := trackShape_fits _ (totalSectors_le sizeBytes).1
  have hne : (trackShape (totalSectors sizeBytes)).1 ≠ 0 := Nat.ne_of_gt h.heads_pos
  simp only [geometryFor, wideGeometry, if_neg hne, Nat.mod_eq_of_lt h.cylinders_lt,
    Nat.mod_eq_of_lt h.heads_lt, Nat.mod_eq_of_lt h.sectors_lt]

/-- The geometry fits its fields, and its sectors are sectors of the disk. -/
structure ChsFits (g : Chs) (sectors : Nat) : Prop where
  cylinders_lt : g.cylinders < 65536
  heads_lt : g.heads < 256
  sectors_lt : g.sectors < 256
  product_le : g.cylinders * g.heads * g.sectors ≤ sectors

theorem wideGeometry_fits (sizeBytes : Nat) :
    ChsFits (wideGeometry sizeBytes) (sizeBytes / vhdSectorSize) := by
  have h := trackShape_fits _ (totalSectors_le sizeBytes).1
  have hne : (trackShape (totalSectors sizeBytes)).1 ≠ 0 := Nat.ne_of_gt h.heads_pos
  unfold wideGeometry
  simp only [if_neg hne]
  refine ⟨h.cylinders_lt, h.heads_lt, h.sectors_lt, ?_⟩
  calc totalSectors sizeBytes / (trackShape (totalSectors sizeBytes)).2
        / (trackShape (totalSectors sizeBytes)).1 * (trackShape (totalSectors sizeBytes)).1
        * (trackShape (totalSectors sizeBytes)).2
      ≤ totalSectors sizeBytes / (trackShape (totalSectors sizeBytes)).2
        * (trackShape (totalSectors sizeBytes)).2 :=
        Nat.mul_le_mul_right _ (Nat.div_mul_le_self _ _)
    _ ≤ totalSectors sizeBytes := Nat.div_mul_le_self _ _
    _ ≤ sizeBytes / vhdSectorSize := (totalSectors_le sizeBytes).2.1

/-- The geometry is empty in disks of fewer than 68 sectors, and only there. -/
theorem wideGeometry_ne_zero_iff (sizeBytes : Nat) :
    ((wideGeometry sizeBytes).cylinders ≠ 0 ∧ (wideGeometry sizeBytes).heads ≠ 0 ∧
      (wideGeometry sizeBytes).sectors ≠ 0) ↔ 68 ≤ sizeBytes / vhdSectorSize := by
  have h := trackShape_fits _ (totalSectors_le sizeBytes).1
  have hne : (trackShape (totalSectors sizeBytes)).1 ≠ 0 := Nat.ne_of_gt h.heads_pos
  unfold wideGeometry
  simp only [if_neg hne]
  rw [← (totalSectors_le sizeBytes).2.2, ← h.cylinders_pos]
  constructor
  · rintro ⟨hc, -⟩
    exact Nat.pos_of_ne_zero hc
  · intro hc
    exact ⟨Nat.ne_of_gt hc, hne, Nat.ne_of_gt h.sectors_pos⟩

/-! ## The new footer -/

/-- The fields of the footer that are read again. -/
structure FooterFacts (f : Mem) (sizeBytes : Nat) : Prop where
  cookie : f.toList 0 8 = vhdCookie
  features : f.rb32 8 = 0x00000002
  version : f.rb32 12 = 0x00010000
  dataOffset : f.rb64 16 = uint64Max
  originalSize : f.rb64 40 = sizeBytes
  currentSize : f.rb64 48 = sizeBytes
  cylinders : f.rb16 56 = (wideGeometry sizeBytes).cylinders
  heads : (f 58).toNat = (wideGeometry sizeBytes).heads
  sectors : (f 59).toNat = (wideGeometry sizeBytes).sectors
  type : f.rb32 60 = vhdTypeFixed
  checksum : f.rb32 64 = footerChecksum f

theorem footerChecksum_lt (f : Mem) : footerChecksum f < uint32Max + 1 :=
  Nat.lt_succ_of_le (Nat.sub_le _ _)

/-- The checksum does not depend on its own bytes, nor on what follows the footer. -/
theorem footerChecksum_congr {f f' : Mem} (h : ∀ i, i < vhdFooterSize → (i < 64 ∨ 68 ≤ i) → f' i = f i) :
    footerChecksum f' = footerChecksum f := by
  apply congrArg (uint32Max - ·)
  apply List.foldl_ext
  intro sum i hi
  by_cases hc : 64 ≤ i ∧ i < 68
  · rw [if_pos hc, if_pos hc]
  · rw [if_neg hc, if_neg hc, h i (List.mem_range.mp hi) (by omega)]

/-- The facts are about the 512 bytes of the footer only. -/
theorem FooterFacts.congr {f f' : Mem} {sizeBytes : Nat} (h : FooterFacts f sizeBytes)
    (hb : ∀ i, i < 512 → f' i = f i) : FooterFacts f' sizeBytes := by
  have h32 : ∀ o, o + 4 ≤ 512 → f'.rb32 o = f.rb32 o := fun o ho =>
    Mem.rb32_congr (fun i hi => hb _ (by omega))
  have h64 : ∀ o, o + 8 ≤ 512 → f'.rb64 o = f.rb64 o := fun o ho =>
    Mem.rb64_congr (fun i hi => hb _ (by omega))
  have h16 : f'.rb16 56 = f.rb16 56 := Mem.rb16_congr (fun i hi => hb _ (by omega))
  have hck : f'.toList 0 8 = f.toList 0 8 := Mem.toList_congr (fun i hi => hb _ (by omega))
  have hsum : footerChecksum f' = footerChecksum f := footerChecksum_congr (fun i hi _ => hb i hi)
  constructor
  · rw [hck, h.cookie]
  · rw [h32 _ (by omega), h.features]
  · rw [h32 _ (by omega), h.version]
  · rw [h64 _ (by omega), h.dataOffset]
  · rw [h64 _ (by omega), h.originalSize]
  · rw [h64 _ (by omega), h.currentSize]
  · rw [h16, h.cylinders]
  · rw [hb _ (by omega), h.heads]
  · rw [hb _ (by omega), h.sectors]
  · rw [h32 _ (by omega), h.type]
  · rw [h32 _ (by omega), hsum, h.checksum]

theorem wr8_self {p : Mem} {o v : Nat} (hv : v < 256) : (p.wr8 o v o).toNat = v := by
  unfold Mem.wr8
  rw [Mem.write_in (le_refl o) (by omega), Nat.sub_self, Mem.le_toNat, pow_zero, Nat.div_one]
  exact Nat.mod_eq_of_lt hv

theorem buildFooter_facts {sizeBytes : Nat} {now now' : Int} {f : Mem}
    (hlt : sizeBytes < uint64Max + 1) (h : buildFooter sizeBytes now now' = some f) :
    FooterFacts f sizeBytes := by
  unfold buildFooter at h
  by_cases hbad : sizeBytes = 0 ∨ sizeBytes % vhdSectorSize ≠ 0
  · rw [if_pos hbad] at h
    cases h
  rw [if_neg hbad, geometryFor_eq] at h
  have hg := wideGeometry_fits sizeBytes
  have h16 : ∀ (p : Mem) (o v : Nat), v < 65536 → (p.write o 2 (Mem.be 2 v)).rb16 o = v := by
    intro p o v hv
    have := Mem.rb16_wb16_self p o v
    rwa [Mem.wb16, Nat.mod_eq_of_lt hv] at this
  have h32 : ∀ (p : Mem) (o v : Nat), v < 4294967296 → (p.write o 4 (Mem.be 4 v)).rb32 o = v := by
    intro p o v hv
    have := Mem.rb32_wb32_self p o v
    rwa [Mem.wb32, Nat.mod_eq_of_lt hv] at this
  have h64 : ∀ (p : Mem) (o v : Nat), v < 18446744073709551616 → (p.write o 8 (Mem.be 8 v)).rb64 o = v := by
    intro p o v hv
    have := Mem.rb64_wb64_self p o v
    rwa [Mem.wb64, Nat.mod_eq_of_lt hv] at this
  have hf := (Option.some.inj h).symm
  constructor
  case checksum =>
    rw [hf]
    unfold Mem.wb32
    rw [h32 _ _ _ (footerChecksum_lt _)]
    apply Eq.symm
    apply footerChecksum_congr
    intro i _ hi
    exact Mem.write_out hi
  case cookie =>
    rw [hf]
    rw [← Mem.toList_ofList vhdCookie]
    apply Mem.toList_congr
    intro i hi
    have hi' : i < 8 := hi
    simp (disch := omega) only [Mem.wr8, Mem.wb16, Mem.wb32, Mem.wb64, Mem.write_out]
    exact Mem.write_in (by omega) (by omega)
  all_goals
    rw [hf]
    simp (disch := omega) only [Mem.wr8, Mem.wb16, Mem.wb32, Mem.wb64, Mem.rb16_write_out,
      Mem.rb32_write_out, Mem.rb64_write_out, Mem.write_out]
  · exact h32 _ _ _ (by decide)
  · exact h32 _ _ _ (by decide)
  · exact h64 _ _ _ (by decide)
  · exact h64 _ _ _ hlt
  · exact h64 _ _ _ hlt
  · exact h16 _ _ _ hg.cylinders_lt
  · exact wr8_self hg.heads_lt
  · exact wr8_self hg.sectors_lt
  · exact h32 _ _ _ (by decide)

/-! ## New images -/

/-- The host file of a new image: `fopen` with `"wb+"` leaves an empty file. -/
def emptyFile : HostFile := { size := 0, bytes := Mem.zero }

/-- What `vhd_create_fixed` has done when it returns. -/
structure VhdCreated (sizeBytes : Nat) (s : DiskState) (footer : Mem) : Prop where
  positive : sizeBytes ≠ 0
  sectors : sizeBytes % vhdSectorSize = 0
  size_lt : sizeBytes < 9223372036854775808
  file_size : s.file.size = sizeBytes + vhdFooterSize
  disk : s.disk = vhdDisk blankDisk sizeBytes (sizeBytes + vhdFooterSize)
  read : readFooter s.file = some footer
  facts : FooterFacts footer sizeBytes

theorem vhdCreateFixed_created {sizeBytes : Nat} {now now' : Int} {s : DiskState}
    (h : vhdCreateFixed sizeBytes now now' (newState emptyFile) = .ok () s) :
    ∃ footer, VhdCreated sizeBytes s footer := by
  unfold vhdCreateFixed at h
  cases hb : buildFooter sizeBytes now now' with
  | none =>
      rw [hb] at h
      cases h
  | some footer =>
      rw [hb] at h
      simp only [] at h
      have hgood : ¬ (sizeBytes = 0 ∨ sizeBytes % vhdSectorSize ≠ 0) := by
        intro hbad
        rw [buildFooter, if_pos hbad] at hb
        cases hb
      have hpos : sizeBytes ≠ 0 := fun h0 => hgood (Or.inl h0)
      obtain ⟨_, s₁, hseek, h⟩ := bind_ok_iff.mp h
      obtain ⟨-, hs₁⟩ := failIf_ok_iff.mp hseek
      rw [hs₁, bind_of_ok (vdiskHostWrite_of_ne (s := newState emptyFile) (by simp [newState]))] at h
      obtain ⟨_, s₂, hseek₂, h⟩ := bind_ok_iff.mp h
      -- the second seek bounds the size
      obtain ⟨hlt, hs₂⟩ := failIf_ok_iff.mp hseek₂
      have hlt' := Nat.lt_of_not_le hlt
      rw [hs₂, bind_of_ok (vdiskHostWrite_of_ne (by simp [newState]))] at h
      cases h
      have hmid : (emptyFile.write (sizeBytes - 1) 1 Mem.zero).size = sizeBytes := by
        rw [HostFile.write_size (by decide)]
        show max 0 (sizeBytes - 1 + 1) = sizeBytes
        omega
      have hsize : ((emptyFile.write (sizeBytes - 1) 1 Mem.zero).write sizeBytes vhdFooterSize footer).size
          = sizeBytes + vhdFooterSize := by
        rw [HostFile.write_size (by decide), hmid]
        omega
      have hread : readFooter ((emptyFile.write (sizeBytes - 1) 1 Mem.zero).write sizeBytes vhdFooterSize footer)
          = some (((emptyFile.write (sizeBytes - 1) 1 Mem.zero).write sizeBytes vhdFooterSize
            footer).bytes.slice sizeBytes vhdFooterSize) := by
        unfold readFooter
        rw [hsize, if_neg (by omega), Nat.add_sub_cancel]
        exact HostFile.read_of_le (le_of_eq hsize.symm)
      refine ⟨_, hpos, not_not.mp (fun hm => hgood (Or.inr hm)), hlt', hsize, rfl, hread, ?_⟩
      apply (buildFooter_facts (lt_trans hlt' (by decide)) hb).congr
      intro i hi
      have hi' : i < vhdFooterSize := hi
      rw [Mem.slice_in hi', HostFile.write_bytes_in (Nat.le_add_right _ _) (Nat.add_lt_add_left hi' _),
        Nat.add_sub_cancel_left]

theorem length_footerChecks (f : Mem) (n : Nat) : (footerChecks f n).length ≤ 9 := by
  unfold footerChecks
  rw [List.length_append]
  split <;> simp

section Created

variable {sizeBytes : Nat} {s : DiskState} {footer : Mem} (h : VhdCreated sizeBytes s footer)
include h

/-- The end of the image is a 64-bit number. -/
theorem VhdCreated.end_eq : (sizeBytes + vhdFooterSize) % (uint64Max + 1) = s.file.size := by
  have hlt := h.size_lt
  rw [h.file_size]
  apply Nat.mod_eq_of_lt
  simp only [uint64Max, vhdFooterSize]
  omega

theorem VhdCreated.valid : fixedFooterValid footer s.file.size = some sizeBytes := by
  have hf := h.facts
  unfold fixedFooterValid
  rw [if_neg (not_not_intro hf.cookie), if_neg (not_not_intro hf.type), if_neg (not_not_intro hf.dataOffset),
    if_neg (not_not_intro hf.version), if_neg (not_not_intro hf.checksum), hf.currentSize, if_neg,
    if_neg (not_not_intro h.end_eq.symm)]
  rintro (h0 | hm)
  · exact h.positive h0
  · exact hm h.sectors

/-- The inspector is content when the geometry has a cylinder, a head and a sector. -/
theorem VhdCreated.inspect_iff : (∃ info, vdiskVhdInspect s.file = some info ∧ info.structurallyValid = true) ↔
    68 ≤ sizeBytes / vhdSectorSize := by
  have hf := h.facts
  have hbyte : ∀ (b : UInt8) (n : Nat), b.toNat = n → (b ≠ 0 ↔ n ≠ 0) := by
    intro b n hb
    rw [← hb, not_iff_not]
    constructor
    · intro h0
      rw [h0]
      rfl
    · intro h0
      exact UInt8.toNat_inj.mp h0
  have hchecks : (∀ c ∈ footerChecks footer s.file.size, c = true) ↔ 68 ≤ sizeBytes / vhdSectorSize := by
    rw [← wideGeometry_ne_zero_iff, ← hbyte _ _ hf.heads, ← hbyte _ _ hf.sectors, ← hf.cylinders]
    unfold footerChecks
    rw [if_pos hf.type, List.forall_mem_append]
    simp only [List.forall_mem_cons, decide_eq_true_eq, if_pos hf.type]
    constructor
    · intro hall
      exact hall.1.2.2.2.2.2.2.1
    · intro hg
      refine ⟨⟨hf.cookie, hf.features, hf.version, hf.dataOffset, ?_, ?_, hg, hf.checksum, by simp⟩, ?_, by simp⟩
      · rw [hf.currentSize]
        exact ⟨h.positive, h.sectors⟩
      · rw [hf.originalSize, hf.currentSize]
      · rw [hf.currentSize]
        exact h.end_eq.symm
  unfold vdiskVhdInspect
  rw [h.read]
  simp only [Option.bind_eq_bind, Option.bind_some, Option.some.injEq, exists_eq_left', Info.conclude,
    decide_eq_true_eq]
  have hlen : (infoOfFooter footer s.file.size).checksFailed + (footerChecks footer s.file.size).length ≤ uint32Max := by
    show 0 + _ ≤ uint32Max
    rw [Nat.zero_add]
    exact le_trans (length_footerChecks footer s.file.size) (by decide)
  rw [failed_checks_zero_iff hlen, ← hchecks]
  exact and_iff_right rfl

end Created

/-- `vhd_open` gives back the disk that `vhd_create_fixed` has filled in. -/
theorem created_vhd_opens {sizeBytes : Nat} {now now' : Int} {s : DiskState}
    (h : vhdCreateFixed sizeBytes now now' (newState emptyFile) = .ok () s) :
    vhdProbe s.file = true ∧ vhdOpen { s with disk := blankDisk } = .ok () s := by
  obtain ⟨footer, hc⟩ := vhdCreateFixed_created h
  constructor
  · unfold vhdProbe
    rw [hc.read]
    show (fixedFooterValid footer s.file.size).isSome = true
    rw [hc.valid]
    rfl
  · have hdisk : s = { s with disk := vhdDisk blankDisk sizeBytes s.file.size } := by
      rw [hc.file_size, ← hc.disk]
    show (match readFooter s.file with
      | none => throw (-1)
      | some footer =>
          match fixedFooterValid footer s.file.size with
          | none => throw (-1)
          | some logicalSize =>
              set { s with disk := vhdDisk blankDisk logicalSize s.file.size } : Prog DiskState Unit)
        { s with disk := blankDisk } = _
    rw [hc.read]
    show (match fixedFooterValid footer s.file.size with
      | none => throw (-1)
      | some logicalSize =>
          set { s with disk := vhdDisk blankDisk logicalSize s.file.size } : Prog DiskState Unit)
        { s with disk := blankDisk } = _
    rw [hc.valid]
    exact congrArg (EStateM.Result.ok ()) hdisk.symm

/-- What a new image of `sizeBytes` bytes should be: its footer is accepted, records the size, has
the right checksum and a geometry that fits, and the inspector reports the image valid. -/
structure CreatedRight (f : HostFile) (sizeBytes : Nat) : Prop where
  footer : ∃ footer, readFooter f = some footer ∧ fixedFooterValid footer f.size = some sizeBytes ∧
    footer.rb64 40 = sizeBytes ∧ footer.rb64 48 = sizeBytes ∧ footer.rb32 64 = footerChecksum footer ∧
    footer.rb16 56 = (wideGeometry sizeBytes).cylinders ∧ (footer 58).toNat = (wideGeometry sizeBytes).heads ∧
    (footer 59).toNat = (wideGeometry sizeBytes).sectors
  geometry : ChsFits (wideGeometry sizeBytes) (sizeBytes / vhdSectorSize)
  inspected : ∃ info, vdiskVhdInspect f = some info ∧ info.structurallyValid = true

/-- A new image is right exactly when its disk has at least 68 sectors. -/
theorem created_vhd_right_iff {sizeBytes : Nat} {now now' : Int} {s : DiskState}
    (h : vhdCreateFixed sizeBytes now now' (newState emptyFile) = .ok () s) :
    CreatedRight s.file sizeBytes ↔ 34816 ≤ sizeBytes := by
  obtain ⟨footer, hc⟩ := vhdCreateFixed_created h
  have hf := hc.facts
  have hsectors : 68 ≤ sizeBytes / vhdSectorSize ↔ 34816 ≤ sizeBytes := by
    simp only [vhdSectorSize]
    omega
  rw [← hsectors, ← hc.inspect_iff]
  constructor
  · intro hr
    exact hr.inspected
  · intro hi
    exact ⟨⟨footer, hc.read, hc.valid, hf.originalSize, hf.currentSize, hf.checksum, hf.cylinders, hf.heads,
      hf.sectors⟩, wideGeometry_fits sizeBytes, hi⟩

/-- Every whole number of sectors that a host file can hold is accepted. -/
theorem vhdCreateFixed_returns {sizeBytes : Nat} (hpos : sizeBytes ≠ 0) (hm : sizeBytes % vhdSectorSize = 0)
    (hlt : sizeBytes < 9223372036854775808) (now now' : Int) :
    ∃ s, vhdCreateFixed sizeBytes now now' (newState emptyFile) = .ok () s := by
  have hgood : ¬ (sizeBytes = 0 ∨ sizeBytes % vhdSectorSize ≠ 0) := by
    rintro (h0 | hm')
    · exact hpos h0
    · exact hm' hm
  have hbuild : ∃ footer, buildFooter sizeBytes now now' = some footer := ⟨_, if_neg hgood⟩
  obtain ⟨footer, hb⟩ := hbuild
  unfold vhdCreateFixed vdiskHostSeek
  rw [hb]
  simp only []
  rw [bind_of_ok (failIf_of_not (by omega)), bind_of_ok (vdiskHostWrite_of_ne (by simp [newState])),
    bind_of_ok (failIf_of_not (by omega)), bind_of_ok (vdiskHostWrite_of_ne (by simp [newState]))]
  exact ⟨_, rfl⟩

theorem created_vhd_right_iff_smallest :
    ∃ s, vhdCreateFixed 34816 0 0 (newState emptyFile) = .ok () s ∧ CreatedRight s.file 34816 := by
  have hret : ∃ s, vhdCreateFixed 34816 0 0 (newState emptyFile) = .ok () s :=
    vhdCreateFixed_returns (by decide) (by decide) (by decide) 0 0
  obtain ⟨s, hrun⟩ := hret
  exact ⟨s, hrun, (created_vhd_right_iff hrun).mpr (le_refl _)⟩

/-- The inspector reports a new image of one sector as malformed. -/
theorem one_sector_vhd_rejected :
    ¬ ∀ sizeBytes now now' s, vhdCreateFixed sizeBytes now now' (newState emptyFile) = .ok () s →
      CreatedRight s.file sizeBytes := by
  intro hall
  have hret : ∃ s, vhdCreateFixed 512 0 0 (newState emptyFile) = .ok () s :=
    vhdCreateFixed_returns (by decide) (by decide) (by decide) 0 0
  obtain ⟨s, hrun⟩ := hret
  obtain ⟨footer, hc⟩ := vhdCreateFixed_created hrun
  exact absurd (hc.inspect_iff.mp (hall 512 0 0 s hrun).inspected) (by decide)

end Guppy.Vdisk
