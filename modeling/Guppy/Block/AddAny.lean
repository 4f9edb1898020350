import Guppy.Block.Number

set_option autoImplicit false

/-! # `gpt add` on any table

`gpt_add_by_range` reads both headers, but it compares nothing between them, and when the checksum of the primary
entries is wrong it takes those of the backup without a look at theirs. Both arrays then get a new checksum. So a
table is sound after the addition only if its headers agreed and one of the checksums was right
(`gptAddByRange_keeps_iff`).

A header that is longer than 92 bytes is not kept whole in memory, and what the source puts behind it is not
defined; `AddLayout` leaves these out, and copies that overlap.
-/

namespace Guppy.Block

open Vfs Prog

/-! ## Sound tables -/

/-- What the two headers of a table have in common. -/
structure Agree (hp hb : GptHdr) : Prop where
  back : hb.backupLba = 1
  shape : hb.numEntries = hp.numEntries ∧ hb.entrySize = hp.entrySize
  usable : hb.firstUsableLba = hp.firstUsableLba ∧ hb.lastUsableLba = hp.lastUsableLba
  guid : hb.slice 56 16 = hp.slice 56 16

/-- Both copies of a table are read, with right checksums, and say the same. -/
structure SoundTable (k : Disk) (hp hb : GptHdr) (ents : Mem) : Prop where
  primary : gptReadHeader k 1 (k.size / lsec) = some hp
  backup : gptReadHeader k hp.backupLba (k.size / lsec) = some hb
  own : hp.currentLba = 1 ∧ hb.currentLba = hp.backupLba
  entries : gptReadEntries k hp = some ents
  copy : gptReadEntries k hb = some ents
  agree : Agree hp hb

/-- The entries that a checksum vouches for: the primary ones, or else those of the backup. -/
def recorded (k : Disk) (hp hb : GptHdr) : Option Mem :=
  match gptReadEntries k hp with
  | some ents => some ents
  | none => gptReadEntries k hb

/-- The used entries of a table are in another one. -/
structure KeepsUsed (hp hp' : GptHdr) (old new : Mem) : Prop where
  shape : hp'.numEntries = hp.numEntries ∧ hp'.entrySize = hp.entrySize
  entries : ∀ i, i < hp.numEntries → usedAt old hp.entrySize i = true →
    new.slice (i * hp.entrySize) hp.entrySize = old.slice (i * hp.entrySize) hp.entrySize

/-- After an addition the table is sound, and it has the entries that were recorded as used. -/
def AddKeeps (k k' : Disk) (hp hb : GptHdr) : Prop :=
  ∃ old hp' hb' new, recorded k hp hb = some old ∧ SoundTable k' hp' hb' new ∧ KeepsUsed hp hp' old new

/-- The headers have 92 bytes and are where they say, and what is written does not overlap; the two arrays may be
the same area. -/
structure AddLayout (hp hb : GptHdr) : Prop where
  length : hp.headerSize = 92 ∧ hb.headerSize = 92
  own : hp.currentLba = 1 ∧ hb.currentLba = hp.backupLba
  headers : Area.Apart (512, 512) (hp.backupLba * 512, 512)
  primary : ∀ h ∈ [hp, hb], Area.Apart (512, 512) (h.entriesLba * 512, h.arrayBytes)
  backup : ∀ h ∈ [hp, hb], Area.Apart (hp.backupLba * 512, 512) (h.entriesLba * 512, h.arrayBytes)
  arrays : hb.entriesLba = hp.entriesLba ∨
    Area.Apart (hp.entriesLba * 512, hp.arrayBytes) (hb.entriesLba * 512, hb.arrayBytes)

/-! ## What is read -/

section Reading

variable {k : Disk} {hp hb h : GptHdr} {ents old : Mem} {lba total : Nat}

theorem entriesFor_recorded (hold : recorded k hp hb = some old) : entriesFor k hp hb = some old := by
  unfold recorded at hold
  unfold entriesFor
  cases hprim : gptReadEntries k hp with
  | some ents =>
      rw [hprim] at hold
      exact hold
  | none =>
      rw [hprim] at hold
      dsimp only [] at hold ⊢
      unfold gptReadEntries at hold
      simp only [Option.bind_eq_bind, Option.bind_eq_some_iff, Option.guard_eq_some'] at hold
      obtain ⟨-, -, buf, hbuf, -, -, hsame⟩ := hold
      rw [hbuf, hsame]

theorem recorded_of_primary (h : gptReadEntries k hp = some ents) : (recorded k hp hb).isSome = true := by
  unfold recorded
  rw [h]
  rfl

/-- The recorded entries fill the array. -/
theorem recorded_fits (hshape : hb.numEntries = hp.numEntries ∧ hb.entrySize = hp.entrySize)
    (hold : recorded k hp hb = some old) : (hp.arrayBytes ≠ 0 ∧ hp.arrayBytes ≤ entriesMaxBytes) ∧
      ∀ i, hp.arrayBytes ≤ i → old i = 0 := by
  have hread : ∀ h : GptHdr, gptReadEntries k h = some old →
      (h.arrayBytes ≠ 0 ∧ h.arrayBytes ≤ entriesMaxBytes) ∧ ∀ i, h.arrayBytes ≤ i → old i = 0 := by
    intro h hh
    unfold gptReadEntries at hh
    simp only [Option.bind_eq_bind, Option.bind_eq_some_iff, Option.guard_eq_some'] at hh
    obtain ⟨-, hfit, buf, hbuf, -, -, hsame⟩ := hh
    cases hsame
    unfold Disk.read at hbuf
    split at hbuf
    · cases hbuf
      exact ⟨hfit, fun i hi => Mem.slice_out hi⟩
    · cases hbuf
  have hbytes : hb.arrayBytes = hp.arrayBytes := by
    unfold GptHdr.arrayBytes
    rw [hshape.1, hshape.2]
  unfold recorded at hold
  cases hprim : gptReadEntries k hp with
  | some ents =>
      rw [hprim] at hold
      cases hold
      exact hread hp hprim
  | none =>
      rw [hprim] at hold
      rw [← hbytes]
      exact hread hb hold

/-- A disk with a primary header has a sector for it. -/
theorem gptReadHeader_one (hread : gptReadHeader k 1 total = some h) : 1 < k.size / 512 := by
  unfold gptReadHeader at hread
  simp only [Option.bind_eq_bind, Option.bind_eq_some_iff] at hread
  obtain ⟨sec, hsec, -⟩ := hread
  have hone : 1 * lsec % uint64 = 512 := by decide
  unfold Disk.read at hsec
  rw [hone] at hsec
  unfold lsec at hsec
  split at hsec
  · omega
  · cases hsec

end Reading

/-! ## What is written -/

/-- The bytes of a disk after a header and its entries have been written. -/
def withTable (p : Mem) (h : GptHdr) (ents : Mem) : Mem :=
  (p.write (h.entriesLba * 512) h.arrayBytes ents).write (h.currentLba * 512) 512 (h.slice 0 GptHdr.size)

section Writing

variable {s s' : GptState} {hp hb h : GptHdr} {ents : Mem}

theorem pwriteBytes_room {off len : Nat} {src : Mem} (h : pwriteBytes off len src s = .ok () s') :
    off % uint64 + len ≤ s.disk.size := by
  unfold pwriteBytes Disk.write at h
  by_cases hw : s.disk.writable = true ∧ off % uint64 ≤ s.disk.size ∧ len ≤ s.disk.size - off % uint64
  · omega
  · rw [if_neg hw] at h
    cases h

theorem gptWrite_inv (he : h.entriesLba < s.disk.size / 512) (hc : h.currentLba < s.disk.size / 512)
    (hw : gptWrite h ents s = .ok () s') :
    h.entriesLba * 512 + h.arrayBytes ≤ s.disk.size ∧ s' = s.withBytes (withTable s.disk.bytes h ents) := by
  unfold gptWrite at hw
  obtain ⟨⟨⟩, s₁, hents, hhdr⟩ := bind_ok_iff.mp hw
  have hroom := pwriteBytes_room hents
  obtain ⟨-, rfl⟩ := pwriteBytes_inv hents
  obtain ⟨-, rfl⟩ := pwriteBytes_inv hhdr
  rw [mul_lsec_mod_lt he] at hroom
  refine ⟨hroom, ?_⟩
  simp only [mul_lsec_mod_lt he, mul_lsec_mod_lt hc, GptState.withBytes_disk, Disk.withBytes_bytes]
  rfl

/-- The bytes of a disk after both copies of a table. -/
theorem writeBoth_inv (hp' : hp.entriesLba < s.disk.size / 512 ∧ hp.currentLba < s.disk.size / 512)
    (hb' : hb.entriesLba < s.disk.size / 512 ∧ hb.currentLba < s.disk.size / 512)
    (hw : (gptWrite hp ents >>= fun _ => gptWrite hb ents) s = .ok () s') :
    (hp.entriesLba * 512 + hp.arrayBytes ≤ s.disk.size ∧ hb.entriesLba * 512 + hb.arrayBytes ≤ s.disk.size) ∧
      s'.disk = s.disk.withBytes (withTable (withTable s.disk.bytes hp ents) hb ents) := by
  obtain ⟨⟨⟩, s₁, h₁, h₂⟩ := bind_ok_iff.mp hw
  obtain ⟨hroom, hs₁⟩ := gptWrite_inv hp'.1 hp'.2 h₁
  have hsize : s₁.disk.size = s.disk.size := by rw [hs₁, GptState.withBytes_disk, Disk.withBytes_size]
  rw [← hsize] at hb'
  obtain ⟨hroom', hs'⟩ := gptWrite_inv hb'.1 hb'.2 h₂
  rw [hsize] at hroom'
  refine ⟨⟨hroom, hroom'⟩, ?_⟩
  rw [hs', hs₁]
  rfl

end Writing

/-! ## What stands on the disk afterwards -/

section Written

variable {p : Mem} {hp hb : GptHdr} {ents : Mem}

/-- The two headers. -/
theorem written_headers (hl : AddLayout hp hb) :
    (∀ i, i < 92 → withTable (withTable p (sealHdr hp ents) ents) (sealHdr hb ents) ents (1 * 512 + i) = sealHdr hp ents i) ∧
      ∀ i, i < 92 → withTable (withTable p (sealHdr hp ents) ents) (sealHdr hb ents) ents (hp.backupLba * 512 + i) =
        sealHdr hb ents i := by
  have hsize : GptHdr.size = 92 := rfl
  have hone := hl.headers
  have harr := hl.primary hb (by simp)
  unfold Area.Apart at hone harr
  dsimp only at hone harr
  unfold withTable
  simp only [sealHdr_entriesLba, sealHdr_arrayBytes, sealHdr_currentLba, hl.own.1, hl.own.2]
  constructor
  · intro i hi
    rw [Mem.write_out (by omega), Mem.write_out (by omega), Mem.write_in (by omega) (by omega), Mem.slice_in (by omega),
      Nat.add_sub_cancel_left, Nat.zero_add]
  · intro i hi
    rw [Mem.write_in (by omega) (by omega), Mem.slice_in (by omega), Nat.add_sub_cancel_left, Nat.zero_add]

/-- The two arrays, when they have the same size. -/
theorem written_arrays (hl : AddLayout hp hb) (hsame : hb.arrayBytes = hp.arrayBytes) :
    (∀ i, i < hp.arrayBytes → withTable (withTable p (sealHdr hp ents) ents) (sealHdr hb ents) ents
      (hp.entriesLba * 512 + i) = ents i) ∧
    ∀ i, i < hp.arrayBytes → withTable (withTable p (sealHdr hp ents) ents) (sealHdr hb ents) ents
      (hb.entriesLba * 512 + i) = ents i := by
  have hone := hl.primary hp (by simp)
  have hlow := hl.backup hp (by simp)
  have hhigh := hl.backup hb (by simp)
  have harrays := hl.arrays
  unfold Area.Apart at hone hlow hhigh harrays
  dsimp only at hone hlow hhigh harrays
  rw [hsame] at hhigh harrays
  unfold withTable
  simp only [sealHdr_entriesLba, sealHdr_arrayBytes, sealHdr_currentLba, hl.own.1, hl.own.2, hsame]
  have hbackup : ∀ (q : Mem) i, i < hp.arrayBytes → ((q.write (hb.entriesLba * 512) hp.arrayBytes ents).write
      (hp.backupLba * 512) 512 ((sealHdr hb ents).slice 0 GptHdr.size)) (hb.entriesLba * 512 + i) = ents i := by
    intro q i hi
    rw [Mem.write_out (by omega), Mem.write_in (by omega) (by omega), Nat.add_sub_cancel_left]
  refine ⟨fun i hi => ?_, fun i hi => hbackup _ i hi⟩
  rcases harrays with heq | hapart
  · rw [← heq]
    exact hbackup _ i hi
  · rw [Mem.write_out (by omega), Mem.write_out (by omega), Mem.write_out (by omega), Mem.write_in (by omega) (by omega),
      Nat.add_sub_cancel_left]

end Written

/-! ## The addition -/

section Adding

variable {s s' : GptState} {hp hb : GptHdr} {ents old : Mem} {type name : Text} {firstLba lastLba : Nat}

theorem sealHdr_guid {h : GptHdr} : (sealHdr h ents).slice 56 16 = h.slice 56 16 := by
  funext i
  by_cases hi : i < 16
  · rw [Mem.slice_in hi, Mem.slice_in hi]
    exact sealHdr_out (by omega) (by omega)
  · rw [Mem.slice_out (by omega), Mem.slice_out (by omega)]

/-- The checksums are not among the fields that are compared. -/
theorem agree_seal : Agree (sealHdr hp ents) (sealHdr hb ents) ↔ Agree hp hb := by
  constructor
  · rintro ⟨hback, hshape, husable, hguid⟩
    simp only [sealHdr_backupLba, sealHdr_numEntries, sealHdr_entrySize, sealHdr_firstUsableLba, sealHdr_lastUsableLba,
      sealHdr_guid] at hback hshape husable hguid
    exact ⟨hback, hshape, husable, hguid⟩
  · rintro ⟨hback, hshape, husable, hguid⟩
    constructor
    · simpa using hback
    · simpa using hshape
    · simpa using husable
    · simpa only [sealHdr_guid] using hguid

/-- The bytes of another slot. -/
theorem setSlot_slice {e : Mem} {size idx i : Nat} (hi : i ≠ idx) :
    (setSlot ents size idx e).slice (i * size) size = ents.slice (i * size) size := by
  funext j
  by_cases hj : j < size
  · rw [Mem.slice_in hj, Mem.slice_in hj]
    apply Mem.write_out
    rcases Nat.lt_or_gt_of_ne hi with h | h
    · have hle : (i + 1) * size ≤ idx * size := Nat.mul_le_mul_right size h
      rw [Nat.succ_mul] at hle
      omega
    · have hle : (idx + 1) * size ≤ i * size := Nat.mul_le_mul_right size h
      rw [Nat.succ_mul] at hle
      omega
  · rw [Mem.slice_out (by omega), Mem.slice_out (by omega)]

/-- A new entry keeps the used ones, since its slot is free. -/
theorem keepsUsed_setSlot {e new : Mem} {idx : Nat} (hfree : freeEntry old hp = some idx) :
    KeepsUsed hp (sealHdr hp new) old (setSlot old hp.entrySize idx e) := by
  constructor
  · simp
  · intro i _ hused
    apply setSlot_slice
    rintro rfl
    rw [(freeEntry_iff.mp hfree).2.1] at hused
    cases hused

/-- The headers that a successful addition leaves. -/
theorem added_headers (hl : AddLayout hp hb) (hprimary : gptReadHeader s.disk 1 (s.disk.size / lsec) = some hp)
    (hbackup : gptReadHeader s.disk hp.backupLba (s.disk.size / lsec) = some hb) {k' : Disk}
    (hk : k' = s.disk.withBytes (withTable (withTable s.disk.bytes (sealHdr hp ents) ents) (sealHdr hb ents) ents)) :
    gptReadHeader k' 1 (k'.size / lsec) = some (sealHdr hp ents) ∧
      gptReadHeader k' hp.backupLba (k'.size / lsec) = some (sealHdr hb ents) := by
  have hgood := gptReadHeader_good (gptReadHeader_one hprimary) hprimary
  have hgood' := gptReadHeader_good hgood.bounds.2.2.2.2.2.1 hbackup
  obtain ⟨hone, htwo⟩ := @written_headers s.disk.bytes hp hb ents hl
  subst hk
  constructor
  · exact (hgood.seal ents _).read (by simp [hl.length.1]) (sealHdr_headerCrc hl.length.1) hone
  · exact (hgood'.seal ents _).read (by simp [hl.length.2]) (sealHdr_headerCrc hl.length.2) htwo

/-- With headers that agree, the written arrays are read. -/
theorem added_entries (hl : AddLayout hp hb) (hshape : hb.numEntries = hp.numEntries ∧ hb.entrySize = hp.entrySize)
    (hfit : hp.arrayBytes ≠ 0 ∧ hp.arrayBytes ≤ entriesMaxBytes) (hshort : ∀ i, hp.arrayBytes ≤ i → ents i = 0)
    (hroom : hp.entriesLba * 512 + hp.arrayBytes ≤ s.disk.size ∧ hb.entriesLba * 512 + hb.arrayBytes ≤ s.disk.size)
    {k' : Disk}
    (hk : k' = s.disk.withBytes (withTable (withTable s.disk.bytes (sealHdr hp ents) ents) (sealHdr hb ents) ents)) :
    gptReadEntries k' (sealHdr hp ents) = some ents ∧ gptReadEntries k' (sealHdr hb ents) = some ents := by
  have hbytes : hb.arrayBytes = hp.arrayBytes := by
    unfold GptHdr.arrayBytes
    rw [hshape.1, hshape.2]
  obtain ⟨hone, htwo⟩ := @written_arrays s.disk.bytes hp hb ents hl hbytes
  have hsize : k'.size = s.disk.size := by rw [hk, Disk.withBytes_size]
  have hslice : ∀ lba, (∀ i, i < hp.arrayBytes → k'.bytes (lba * 512 + i) = ents i) →
      k'.bytes.slice (lba * 512) hp.arrayBytes = ents := by
    intro lba hin
    funext i
    by_cases hi : i < hp.arrayBytes
    · rw [Mem.slice_in hi]
      exact hin i hi
    · rw [Mem.slice_out (by omega), hshort i (by omega)]
  rw [hbytes] at hroom
  constructor
  · apply gptReadEntries_of
    · rw [sealHdr_arrayBytes]
      exact hfit
    · rw [sealHdr_entriesLba, sealHdr_arrayBytes, hsize]
      exact hroom.1
    · rw [sealHdr_entriesLba, sealHdr_arrayBytes]
      exact hslice _ (by rw [hk]; exact hone)
    · rw [sealHdr_entriesCrc, sealHdr_arrayBytes]
      rfl
  · apply gptReadEntries_of
    · rw [sealHdr_arrayBytes, hbytes]
      exact hfit
    · rw [sealHdr_entriesLba, sealHdr_arrayBytes, hbytes, hsize]
      exact hroom.2
    · rw [sealHdr_entriesLba, sealHdr_arrayBytes, hbytes]
      exact hslice _ (by rw [hk]; exact htwo)
    · rw [sealHdr_entriesCrc, sealHdr_arrayBytes]
      rfl

/-- With headers that agree, an addition to an array of the right size leaves a sound table. -/
theorem added_sound (hl : AddLayout hp hb) (hagree : Agree hp hb)
    (hfit : hp.arrayBytes ≠ 0 ∧ hp.arrayBytes ≤ entriesMaxBytes) (hshort : ∀ i, hp.arrayBytes ≤ i → ents i = 0)
    (hprimary : gptReadHeader s.disk 1 (s.disk.size / lsec) = some hp)
    (hbackup : gptReadHeader s.disk hp.backupLba (s.disk.size / lsec) = some hb) {idx : Nat} {e new : Mem}
    (hnew : new = setSlot ents hp.entrySize idx e) (hidx : idx < hp.numEntries)
    (hroom : hp.entriesLba * 512 + hp.arrayBytes ≤ s.disk.size ∧ hb.entriesLba * 512 + hb.arrayBytes ≤ s.disk.size)
    (hk : s'.disk = s.disk.withBytes (withTable (withTable s.disk.bytes (sealHdr hp new) new) (sealHdr hb new) new)) :
    SoundTable s'.disk (sealHdr hp new) (sealHdr hb new) new := by
  have hshort' : ∀ i, hp.arrayBytes ≤ i → new i = 0 := by
    intro i hi
    have hend : (idx + 1) * hp.entrySize ≤ hp.numEntries * hp.entrySize := Nat.mul_le_mul_right _ hidx
    rw [Nat.succ_mul] at hend
    rw [hnew]
    unfold setSlot
    rw [Mem.write_out (Or.inr (le_trans hend hi)), hshort i hi]
  obtain ⟨hone, htwo⟩ := added_headers hl hprimary hbackup hk
  obtain ⟨hents, hcopy⟩ := added_entries hl hagree.shape hfit hshort' hroom hk
  refine ⟨hone, ?_, ?_, hents, hcopy, agree_seal.mpr hagree⟩
  · rw [sealHdr_backupLba]
    exact htwo
  · rw [sealHdr_currentLba, sealHdr_currentLba, sealHdr_backupLba]
    exact hl.own

/-- What a successful addition has written. -/
theorem gptAddByRange_written (hprimary : gptReadHeader s.disk 1 (s.disk.size / lsec) = some hp)
    (hbackup : gptReadHeader s.disk hp.backupLba (s.disk.size / lsec) = some hb)
    (hents : entriesFor s.disk hp hb = some ents)
    (hadd : gptAddByRange type name firstLba lastLba s = .ok () s') :
    ∃ idx typeGuid guid new, typeGuidFor type = some typeGuid ∧ freeEntry ents hp = some idx ∧
      max firstLba hp.firstUsableLba ≤ min lastLba hp.lastUsableLba ∧
      new = setSlot ents hp.entrySize idx (newEntry typeGuid guid name (max firstLba hp.firstUsableLba)
        (min lastLba hp.lastUsableLba)) ∧
      (hp.entriesLba * 512 + hp.arrayBytes ≤ s.disk.size ∧ hb.entriesLba * 512 + hb.arrayBytes ≤ s.disk.size) ∧
      s'.disk = s.disk.withBytes (withTable (withTable s.disk.bytes (sealHdr hp new) new) (sealHdr hb new) new) := by
  obtain ⟨hp', hb', ents', typeGuid, idx, guid, s₁, hread, hback, hread', htype, hfree, hle, hdisk, new, hnew, hwrite⟩ :=
    gptAddByRange_inv hadd
  obtain rfl : hp = hp' := Option.some.inj (hprimary.symm.trans hread)
  obtain rfl : hb = hb' := Option.some.inj (hbackup.symm.trans hback)
  obtain rfl : ents = ents' := Option.some.inj (hents.symm.trans hread')
  have hbounds := (gptReadHeader_good (gptReadHeader_one hprimary) hprimary).bounds
  have hbounds' := (gptReadHeader_good hbounds.2.2.2.2.2.1 hbackup).bounds
  obtain ⟨hroom, hk⟩ := @writeBoth_inv s₁ s' (sealHdr hp new) (sealHdr hb new) new
    (by simpa [hdisk] using ⟨hbounds.2.2.2.2.2.2.2, hbounds.2.2.2.2.1⟩)
    (by simpa [hdisk] using ⟨hbounds'.2.2.2.2.2.2.2, hbounds'.2.2.2.2.1⟩) hwrite
  rw [hdisk] at hroom hk
  simp only [sealHdr_entriesLba, sealHdr_arrayBytes] at hroom
  exact ⟨idx, typeGuid, guid, new, htype, hfree, hle, hnew, hroom, hk⟩

/-- A successful addition leaves a sound table with the recorded entries if and only if the headers agree and one
of the arrays has a right checksum. -/
theorem gptAddByRange_keeps_iff (hprimary : gptReadHeader s.disk 1 (s.disk.size / lsec) = some hp)
    (hadd : gptAddByRange type name firstLba lastLba s = .ok () s') :
    ∃ hb, gptReadHeader s.disk hp.backupLba (s.disk.size / lsec) = some hb ∧
      (AddLayout hp hb → (AddKeeps s.disk s'.disk hp hb ↔ Agree hp hb ∧ (recorded s.disk hp hb).isSome = true)) := by
  obtain ⟨hp', hb, ents, -, -, -, -, hread, hbackup, hents, -⟩ := gptAddByRange_inv hadd
  obtain rfl : hp = hp' := Option.some.inj (hprimary.symm.trans hread)
  obtain ⟨idx, typeGuid, guid, new, -, hfree, -, hnew, hroom, hk⟩ := gptAddByRange_written hprimary hbackup hents hadd
  refine ⟨hb, hbackup, fun hl => ?_⟩
  constructor
  · rintro ⟨old, hp', hb', ents', hold, htable, -⟩
    -- what is read afterwards are the headers that were written
    obtain ⟨hone, htwo⟩ := added_headers hl hprimary hbackup hk
    have hsealed : sealHdr hp new = hp' := Option.some.inj (hone.symm.trans htable.primary)
    subst hsealed
    have hback := htable.backup
    rw [sealHdr_backupLba] at hback
    have hsealed' : sealHdr hb new = hb' := Option.some.inj (htwo.symm.trans hback)
    subst hsealed'
    exact ⟨agree_seal.mp htable.agree, by rw [hold]; rfl⟩
  · rintro ⟨hagree, hsome⟩
    obtain ⟨old, hold⟩ := Option.isSome_iff_exists.mp hsome
    obtain rfl : ents = old := Option.some.inj (hents.symm.trans (entriesFor_recorded hold))
    obtain ⟨hfit, hshort⟩ := recorded_fits hagree.shape hold
    have hsound := added_sound hl hagree hfit hshort hprimary hbackup hnew (freeEntry_iff.mp hfree).1 hroom hk
    refine ⟨ents, _, _, new, hold, hsound, ?_⟩
    rw [hnew]
    exact keepsUsed_setSlot hfree

/-- Entries without a right checksum: the addition takes those of the backup as they are. -/
theorem added_unchecked (hl : AddLayout hp hb) (hagree : Agree hp hb)
    (hfit : hp.arrayBytes ≠ 0 ∧ hp.arrayBytes ≤ entriesMaxBytes) (hsize : 128 ≤ hp.entrySize)
    (hprimary : gptReadHeader s.disk 1 (s.disk.size / lsec) = some hp)
    (hbackup : gptReadHeader s.disk hp.backupLba (s.disk.size / lsec) = some hb)
    (hcrc : gptReadEntries s.disk hp = none) (hcrc' : gptReadEntries s.disk hb = none)
    (hroom : hb.entriesLba * 512 + hb.arrayBytes ≤ s.disk.size) {idx : Nat}
    (hfree : freeEntry (s.disk.bytes.slice (hb.entriesLba * 512) hb.arrayBytes) hp = some idx)
    (hadd : gptAddByRange type name firstLba lastLba s = .ok () s') :
    ∃ new, SoundTable s'.disk (sealHdr hp new) (sealHdr hb new) new ∧
      spanAt new hp.entrySize idx = (max firstLba hp.firstUsableLba, min lastLba hp.lastUsableLba) ∧
      ¬ AddKeeps s.disk s'.disk hp hb := by
  have hents : entriesFor s.disk hp hb = some (s.disk.bytes.slice (hb.entriesLba * 512) hb.arrayBytes) := by
    unfold entriesFor
    rw [hcrc, @mul_lsec_mod s.disk hb.entriesLba hb.arrayBytes hroom]
    exact Disk.read_of_le hroom
  obtain ⟨idx', typeGuid, guid, new, htype, hidx, hle, hnew, hroom, hk⟩ := gptAddByRange_written hprimary hbackup hents hadd
  obtain rfl : idx = idx' := Option.some.inj (hfree.symm.trans hidx)
  obtain ⟨hlen, hused⟩ := typeGuidFor_used htype
  have hbytes : hb.arrayBytes = hp.arrayBytes := by
    unfold GptHdr.arrayBytes
    rw [hagree.shape.1, hagree.shape.2]
  have hlast : hp.lastUsableLba < s.disk.size / 512 :=
    (gptReadHeader_good (gptReadHeader_one hprimary) hprimary).bounds.2.2.2.2.2.2.1
  have h64 : s.disk.size / 512 < uint64 := lt_of_le_of_lt (Nat.div_le_self _ _) s.disk.size_lt
  refine ⟨new, ?_, ?_, ?_⟩
  · apply added_sound hl hagree hfit _ hprimary hbackup hnew (freeEntry_iff.mp hfree).1 hroom hk
    intro i hi
    exact Mem.slice_out (by omega)
  · rw [hnew]
    exact (setSlot_self hsize hlen hused (by omega) (by omega)).2
  · -- no checksum vouches for any entries
    rintro ⟨old, -, -, -, hold, -⟩
    unfold recorded at hold
    rw [hcrc, hcrc'] at hold
    cases hold

end Adding

/-! ## Two disks -/

/-- A disk with one shape for both arrays has the layout. -/
theorem GptDisk.addLayout {k : Disk} {hp hb : GptHdr} {ents : Mem} (h : GptDisk k hp hb ents) : AddLayout hp hb := by
  obtain ⟨-, habove, -, ⟨hone, hone'⟩, ⟨hlow, hcopies⟩, hhigh⟩ := h.areas
  have hbytes : hb.arrayBytes = hp.arrayBytes := by
    unfold GptHdr.arrayBytes
    rw [h.shape.1, h.shape.2]
  constructor
  · exact h.length
  · exact h.own
  · exact Or.inl habove
  · simp only [List.forall_mem_cons, hbytes]
    exact ⟨hone, hone', by simp⟩
  · simp only [List.forall_mem_cons, hbytes]
    exact ⟨hlow.symm, hhigh, by simp⟩
  · rw [hbytes]
    exact Or.inr hcopies

theorem fresh_agree : Agree freshPrimary freshBackup := by
  have hfp := (@freshHeader_fields 70 Mem.zero (by decide)).update Mem.zero
  have hfb := (hfp.1.toBackup (by decide)).update Mem.zero
  constructor
  · exact hfb.1.backupLba
  · exact ⟨hfb.1.numEntries.trans hfp.1.numEntries.symm, hfb.1.entrySize.trans hfp.1.entrySize.symm⟩
  · exact ⟨hfb.1.firstUsableLba.trans hfp.1.firstUsableLba.symm, hfb.1.lastUsableLba.trans hfp.1.lastUsableLba.symm⟩
  · exact hfb.1.guid.trans hfp.1.guid.symm

/-- A first partition on a fresh disk. -/
theorem gptAddByRange_keeps_first : ∃ s', gptAddByRange [108, 105, 110, 117, 120] [97] 34 34 freshState = .ok () s' ∧
    AddKeeps freshState.disk s'.disk freshPrimary freshBackup := by
  have hg : GptDisk freshState.disk freshPrimary freshBackup Mem.zero := freshDisk_gpt.1
  obtain ⟨-, hnum, hsize, hlo, hhi⟩ := freshDisk_gpt
  have hfree : freeEntry Mem.zero freshPrimary = some 0 :=
    freeEntry_iff.mpr ⟨by omega, usedAt_zero _ _, fun i hi => absurd hi (Nat.not_lt_zero i)⟩
  have hclear : ∀ i, i < freshPrimary.numEntries → entOverlaps Mem.zero 34 34 (i * freshPrimary.entrySize) = false := by
    intro i _
    unfold entOverlaps
    simp [entEmpty_zero]
  obtain ⟨s', hadd⟩ := @gptAddByRange_accepts freshState freshPrimary freshBackup Mem.zero [108, 105, 110, 117, 120] [97] 34 34
    hg rfl typeLinuxfs (by decide) (by omega) (le_refl _) (by omega) hclear 0 hfree
  obtain ⟨hb, hbackup, hiff⟩ := gptAddByRange_keeps_iff hg.primary hadd
  obtain rfl : freshBackup = hb := Option.some.inj (hg.backup.symm.trans hbackup)
  exact ⟨s', hadd, (hiff hg.addLayout).mpr ⟨fresh_agree, recorded_of_primary hg.entries⟩⟩

/-- A header of a table of two entries on 70 sectors. -/
def smallHeader (current backup entries crc : Nat) : GptHdr :=
  (((((((((((Mem.zero.write 0 8 (Mem.ofList GptHdr.signature)).wr32 8 0x00010000).wr32 12 92).wr32 16 crc).wr64 24
    current).wr64 32 backup).wr64 40 34).wr64 48 36).wr64 72 entries).wr32 80 2).wr32 84 128).wr32 88 227968344

theorem damagedDisk_size_lt : 35840 < uint64 := by decide

/-- A partition at sector 35 in the primary entries, and a name in the backup entries: both checksums, which are
those of empty entries, are wrong. -/
def damagedDisk : Disk where
  size := 35840
  writable := true
  bytes := (((((Mem.zero.write 512 512 (smallHeader 1 69 2 3341831542)).write 35328 512
    (smallHeader 69 1 37 2709312099)).wr8 1024 1).wr64 1056 35).wr64 1064 35).wr8 18992 1
  size_lt := damagedDisk_size_lt

def damagedState : GptState := ⟨damagedDisk, fun _ => 0⟩

def damagedPrimary : GptHdr := (damagedDisk.bytes.slice (1 * 512) 512).slice 0 GptHdr.size

def damagedBackup : GptHdr := (damagedDisk.bytes.slice (69 * 512) 512).slice 0 GptHdr.size

set_option maxRecDepth 100000 in
/-- What is computed of the disk. -/
theorem damaged_run :
    ((damagedPrimary.headerSize = 92 ∧ damagedPrimary.currentLba = 1 ∧ damagedPrimary.backupLba = 69 ∧
      damagedPrimary.firstUsableLba = 34 ∧ damagedPrimary.lastUsableLba = 36 ∧ damagedPrimary.entriesLba = 2 ∧
      damagedPrimary.numEntries = 2 ∧ damagedPrimary.entrySize = 128) ∧
    (damagedBackup.headerSize = 92 ∧ damagedBackup.currentLba = 69 ∧ damagedBackup.backupLba = 1 ∧
      damagedBackup.firstUsableLba = 34 ∧ damagedBackup.lastUsableLba = 36 ∧ damagedBackup.entriesLba = 37 ∧
      damagedBackup.numEntries = 2 ∧ damagedBackup.entrySize = 128)) ∧
    (∀ i, i < 16 → damagedBackup (56 + i) = damagedPrimary (56 + i)) ∧
    ((gptReadHeader damagedDisk 1 (damagedDisk.size / lsec)).isSome = true ∧
      (gptReadHeader damagedDisk 69 (damagedDisk.size / lsec)).isSome = true) ∧
    ((gptReadEntries damagedDisk damagedPrimary).isNone = true ∧
      (gptReadEntries damagedDisk damagedBackup).isNone = true) ∧
    (match gptAddByRange [108, 105, 110, 117, 120] [97] 34 34 damagedState with
      | .ok _ _ => true
      | .error _ _ => false) = true := by
  decide +kernel

theorem damaged_fields :
    (damagedPrimary.headerSize = 92 ∧ damagedPrimary.currentLba = 1 ∧ damagedPrimary.backupLba = 69 ∧
      damagedPrimary.firstUsableLba = 34 ∧ damagedPrimary.lastUsableLba = 36 ∧ damagedPrimary.entriesLba = 2 ∧
      damagedPrimary.numEntries = 2 ∧ damagedPrimary.entrySize = 128) ∧
    (damagedBackup.headerSize = 92 ∧ damagedBackup.currentLba = 69 ∧ damagedBackup.backupLba = 1 ∧
      damagedBackup.firstUsableLba = 34 ∧ damagedBackup.lastUsableLba = 36 ∧ damagedBackup.entriesLba = 37 ∧
      damagedBackup.numEntries = 2 ∧ damagedBackup.entrySize = 128) :=
  damaged_run.1

theorem damaged_headers : gptReadHeader damagedDisk 1 (damagedDisk.size / lsec) = some damagedPrimary ∧
    gptReadHeader damagedDisk 69 (damagedDisk.size / lsec) = some damagedBackup := by
  obtain ⟨hone, htwo⟩ := damaged_run.2.2.1
  obtain ⟨hp, hp'⟩ := Option.isSome_iff_exists.mp hone
  obtain ⟨hb, hb'⟩ := Option.isSome_iff_exists.mp htwo
  obtain ⟨-, hslice, -⟩ := gptReadHeader_sector (show 1 < 35840 / 512 by decide) hp' rfl
  obtain ⟨-, hslice', -⟩ := gptReadHeader_sector (show 69 < 35840 / 512 by decide) hb' rfl
  rw [hp', hb', ← hslice, ← hslice']
  exact ⟨rfl, rfl⟩

theorem damaged_agree : Agree damagedPrimary damagedBackup := by
  obtain ⟨⟨-, -, -, hfirst, hlast, -, hnum, hsize⟩, -, -, hback, hfirst', hlast', -, hnum', hsize'⟩ := damaged_fields
  have hguid := damaged_run.2.1
  constructor
  · exact hback
  · exact ⟨hnum'.trans hnum.symm, hsize'.trans hsize.symm⟩
  · exact ⟨hfirst'.trans hfirst.symm, hlast'.trans hlast.symm⟩
  · funext i
    by_cases hi : i < 16
    · rw [Mem.slice_in hi, Mem.slice_in hi]
      exact hguid i hi
    · rw [Mem.slice_out (by omega), Mem.slice_out (by omega)]

theorem damaged_layout : AddLayout damagedPrimary damagedBackup := by
  obtain ⟨⟨hlen, hown, hback, -, -, hents, hnum, hsize⟩, hlen', hown', -, -, -, hents', hnum', hsize'⟩ := damaged_fields
  have hbytes : damagedPrimary.arrayBytes = 256 := by
    unfold GptHdr.arrayBytes
    rw [hnum, hsize]
  have hbytes' : damagedBackup.arrayBytes = 256 := by
    unfold GptHdr.arrayBytes
    rw [hnum', hsize']
  constructor
  · exact ⟨hlen, hlen'⟩
  · exact ⟨hown, hown'.trans hback.symm⟩
  · rw [hback]
    exact Or.inl (by decide)
  · simp only [List.forall_mem_cons, hbytes, hbytes', hents, hents']
    exact ⟨Or.inl (by decide), Or.inl (by decide), by simp⟩
  · simp only [List.forall_mem_cons, hbytes, hbytes', hents, hents', hback]
    exact ⟨Or.inr (by decide), Or.inr (by decide), by simp⟩
  · rw [hbytes, hbytes', hents, hents']
    exact Or.inr (Or.inl (by decide))

theorem damaged_added : (match gptAddByRange [108, 105, 110, 117, 120] [97] 34 34 damagedState with
    | .ok _ _ => true
    | .error _ _ => false) = true :=
  damaged_run.2.2.2.2

theorem damaged_crc : gptReadEntries damagedDisk damagedPrimary = none ∧ gptReadEntries damagedDisk damagedBackup = none := by
  obtain ⟨hone, htwo⟩ := damaged_run.2.2.2.1
  exact ⟨Option.isNone_iff_eq_none.mp hone, Option.isNone_iff_eq_none.mp htwo⟩

theorem damaged_arrays : damagedBackup.entriesLba * 512 = 18944 ∧ damagedBackup.arrayBytes = 256 ∧
    damagedPrimary.arrayBytes = 256 := by
  obtain ⟨⟨-, -, -, -, -, -, hnum, hsize⟩, -, -, -, -, -, hents', hnum', hsize'⟩ := damaged_fields
  unfold GptHdr.arrayBytes
  rw [hnum, hsize, hents', hnum', hsize']
  exact ⟨rfl, rfl, rfl⟩

/-- Both checksums of the entries are wrong. The addition succeeds all the same: it puts the entry where the primary
entries have the partition at sector 35, and leaves a table that looks sound. -/
theorem damaged_entries_lost : ∃ s' new,
    gptReadHeader damagedDisk 1 (damagedDisk.size / lsec) = some damagedPrimary ∧
      gptReadHeader damagedDisk damagedPrimary.backupLba (damagedDisk.size / lsec) = some damagedBackup ∧
      gptAddByRange [108, 105, 110, 117, 120] [97] 34 34 damagedState = .ok () s' ∧
      (usedAt (damagedDisk.bytes.slice 1024 256) 128 0 = true ∧ spanAt (damagedDisk.bytes.slice 1024 256) 128 0 = (35, 35)) ∧
      (SoundTable s'.disk (sealHdr damagedPrimary new) (sealHdr damagedBackup new) new ∧ spanAt new 128 0 = (34, 34)) ∧
      ¬ AddKeeps damagedDisk s'.disk damagedPrimary damagedBackup := by
  obtain ⟨⟨-, -, hback, hlo, hhi, -, hnum, hsize⟩, -⟩ := damaged_fields
  have hprimary := damaged_headers.1
  have hbackup := damaged_headers.2
  rw [← hback] at hbackup
  obtain ⟨harr, hbytes, hbytes'⟩ := damaged_arrays
  have hadded := damaged_added
  cases hadd : gptAddByRange [108, 105, 110, 117, 120] [97] 34 34 damagedState with
  | error e s' =>
      rw [hadd] at hadded
      cases hadded
  | ok u s' =>
      have hfree : freeEntry (damagedDisk.bytes.slice (damagedBackup.entriesLba * 512) damagedBackup.arrayBytes)
          damagedPrimary = some 0 := by
        rw [harr, hbytes]
        decide +kernel
      obtain ⟨new, hsound, hspan, hkeeps⟩ := @added_unchecked damagedState s' damagedPrimary damagedBackup _ _ 34 34
        damaged_layout damaged_agree (by rw [hbytes']; decide) (by rw [hsize]) hprimary hbackup damaged_crc.1 damaged_crc.2
        (by rw [harr, hbytes]; decide) 0 hfree hadd
      rw [hlo, hhi, hsize] at hspan
      exact ⟨s', new, hprimary, hbackup, rfl, by decide +kernel, ⟨hsound, hspan⟩, hkeeps⟩

end Guppy.Block
