import Guppy.Ntfs.Mkfs

set_option autoImplicit false

/-! # The records of the formatter fit

With sectors of 512 or 1024 bytes the header of a record takes 56 bytes at most, and the attributes of each of the nine
records leave room for the end marker. So every record is built (`metadataRecord_isSome`); the larger sector sizes that
`mkfs_ntfs_core` lets through do not divide a record, and none is (`metadataRecord_none`).
-/

namespace Guppy.Ntfs

/-- A builder whose cursor is at `k` at most. -/
def Room (b : RecordBuilder) (k : Nat) : Prop := b.recBytes = 1024 ∧ b.attrCursor ≤ k

theorem attrLength_le {raw n : Nat} (h : raw ≤ n) (hn : n ≤ 2048) : attrLength raw ≤ n + 7 := by
  unfold attrLength
  omega

theorem add_room {b : RecordBuilder} {k n : Nat} {type : UInt32} {value : List UInt8} (hb : Room b k)
    (hvalue : value.length ≤ n) (hk : k + n + 39 ≤ 1024) :
    ∃ b', ntfsRecordAddResidentAttr b type value = some b' ∧ Room b' (k + n + 31) := by
  have hlen := @attrLength_le (24 + value.length) (24 + n) (by omega) (by omega)
  have hcursor := hb.2
  unfold ntfsRecordAddResidentAttr
  rw [if_neg (by rw [hb.1]; omega)]
  exact ⟨_, rfl, hb.1, by dsimp only []; omega⟩

theorem addNonresident_room {b : RecordBuilder} {k : Nat} {lcn clusters a d i : UInt64} (hb : Room b k)
    (hclusters : clusters ≠ 0) (hlcn : 0 ≤ lcn.toInt64) (hk : k + 97 ≤ 1024) :
    ∃ b', ntfsRecordAddNonresidentData b lcn clusters a d i = some b' ∧ Room b' (k + 89) := by
  obtain ⟨run, hrun⟩ := Option.isSome_iff_exists.mp (@ntfsEncodeSingleRun_isSome 24 _ _ (by omega) hclusters hlcn)
  have hshort := length_run_le hrun
  have hlen := @attrLength_le (64 + run.length) 82 (by omega) (by omega)
  have hcursor := hb.2
  unfold ntfsRecordAddNonresidentData
  rw [hrun]
  dsimp only []
  rw [if_neg (by rw [hb.1]; omega)]
  exact ⟨_, rfl, hb.1, by dsimp only []; omega⟩

theorem length_makeStandardInformation (attrs : Nat) : (makeStandardInformation attrs).length = 48 := by
  simp [makeStandardInformation]

theorem makeFileName_some {parentRef attrs : Nat} {name : List UInt8} {directory : Bool} (h : name.length ≤ 255) :
    ∃ value, makeFileName parentRef name attrs directory = some value ∧ value.length = 66 + 2 * name.length := by
  unfold makeFileName
  rw [if_neg (by omega)]
  refine ⟨_, rfl, ?_⟩
  have hname : (name.flatMap fun c => [c, 0]).length = 2 * name.length := by
    induction name with
    | nil => rfl
    | cons c t ih =>
        have := ih (by simp at h; omega)
        simp only [List.flatMap_cons, List.length_append, List.length_cons, List.length_nil] at this ⊢
        omega
  simp [hname]
  omega

theorem init_room {L : Layout} {recNo : Nat} {directory : Bool} (hrec : L.bytesPerMftrec = 1024)
    (hbps : L.bps = 512 ∨ L.bps = 1024) : ∃ b, ntfsRecordInit L recNo directory = some b ∧ Room b 56 := by
  unfold ntfsRecordInit
  rcases hbps with h | h
  all_goals
    rw [h, if_neg (by omega)]
    refine ⟨_, rfl, rfl, ?_⟩
    dsimp only [align8U16]
    omega

theorem length_rootIndex : (indexEntries 32 rootIndex).map List.length = some 600 := by
  decide +kernel

theorem addIndexRoot_room {b : RecordBuilder} {k : Nat} {L : Layout} (hb : Room b k) (hk : k + 687 ≤ 1024) :
    ∃ b', addIndexRoot b L rootIndex = some b' ∧ Room b' (k + 679) := by
  obtain ⟨bytes, hbytes, hlen⟩ := Option.map_eq_some_iff.mp length_rootIndex
  unfold addIndexRoot
  rw [hbytes, Option.bind_some]
  apply add_room hb _ (by omega)
  simp [hlen]

theorem finish_room {b : RecordBuilder} {k : Nat} (hb : Room b k) (hk : k ≤ 1016) : (ntfsRecordFinish b).isSome := by
  have hcursor := hb.2
  unfold ntfsRecordFinish closeRecord
  rw [if_neg (by rw [hb.1]; omega)]
  rfl

/-- What the formatter knows about a file: a short name, and a run that is not empty. The root directory has no run. -/
structure Seed.Ok (s : Seed) : Prop where
  number : s.recNo < 16
  name : s.name.length ≤ 8
  data : ∀ lcn clusters size, s.data = some (lcn, clusters, size) → lcn < 2 ^ 63 ∧ 0 < clusters ∧ clusters < 2 ^ 64
  root : s.recNo = 5 → s.name.length ≤ 1 ∧ s.data = none

theorem ok_of_data {recNo lcn clusters size : Nat} {name : List UInt8} (hno : recNo < 16 ∧ recNo ≠ 5)
    (hname : name.length ≤ 8) (hlcn : lcn < 2 ^ 63) (hpos : 0 < clusters) (hlt : clusters < 2 ^ 64) :
    Seed.Ok ⟨recNo, name, false, some (lcn, clusters, size)⟩ where
  number := hno.1
  name := hname
  data a b c h := by
    simp only [Option.some.injEq, Prod.mk.injEq] at h
    omega
  root h := absurd h hno.2

theorem ok_of_none {recNo : Nat} {name : List UInt8} {directory : Bool} (hno : recNo < 16) (hname : name.length ≤ 8)
    (hroot : recNo = 5 → name.length ≤ 1) : Seed.Ok ⟨recNo, name, directory, none⟩ where
  number := hno
  name := hname
  data a b c h := by cases h
  root h := ⟨hroot h, rfl⟩

theorem addSeedData_room {b : RecordBuilder} {k : Nat} {L : Layout} {s : Seed} (hs : s.Ok) (hb : Room b k)
    (hk : k + 97 ≤ 1024) : ∃ b', addSeedData L s b = some b' ∧ Room b' (k + 89) := by
  unfold addSeedData
  cases hdata : s.data with
  | none => exact ⟨b, rfl, hb.1, by have := hb.2; omega⟩
  | some run =>
      obtain ⟨lcn, clusters, size⟩ := run
      obtain ⟨hlcn, hpos, hlt⟩ := hs.data lcn clusters size hdata
      apply addNonresident_room hb _ _ hk
      · intro h
        have := congrArg UInt64.toNat h
        rw [UInt64.toNat_ofNat_of_lt' hlt] at this
        exact absurd this (by simp; omega)
      · rw [Int64.le_iff_toInt_le]
        rw [UInt64.toInt64_ofNat', Int64.toInt_ofNat_of_lt hlcn]
        simp

theorem addIf_room {c : Prop} [Decidable c] {b : RecordBuilder} {k n : Nat} {add : RecordBuilder → Option RecordBuilder}
    (hb : Room b k) (h : c → ∃ b', add b = some b' ∧ Room b' (k + n)) : ∃ b', addIf c b add = some b' ∧ Room b' (k + n) := by
  unfold addIf
  by_cases hc : c
  · rw [if_pos hc]
    exact h hc
  · rw [if_neg hc]
    exact ⟨b, rfl, hb.1, by have := hb.2; omega⟩

/-- A record of the formatter is built. The root directory is the fullest, and only it has an index. -/
theorem metadataRecord_isSome {L : Layout} {s : Seed} (hrec : L.bytesPerMftrec = 1024)
    (hbps : L.bps = 512 ∨ L.bps = 1024) (hs : s.Ok) : (metadataRecord L s).isSome := by
  obtain ⟨b₁, h₁, hb₁⟩ := @init_room L s.recNo s.directory hrec hbps
  obtain ⟨b₂, h₂, hb₂⟩ := @add_room b₁ 56 48 0x10 _ hb₁ (length_makeStandardInformation hiddenSystem).le (by omega)
  obtain ⟨value, hvalue, hlen⟩ := @makeFileName_some 5 hiddenSystem s.name s.directory (by have := hs.name; omega)
  have hname := hs.name
  unfold metadataRecord addFileName
  rw [h₁, Option.bind_some, h₂, Option.bind_some, hvalue, Option.bind_some]
  by_cases h5 : s.recNo = 5
  · -- the root directory has no data and no volume name
    obtain ⟨hshort, hdata⟩ := hs.root h5
    obtain ⟨b₃, h₃, hb₃⟩ := @add_room b₂ 135 68 0x30 value hb₂ (by omega) (by omega)
    obtain ⟨b₄, h₄, hb₄⟩ := @addIndexRoot_room b₃ 234 L hb₃ (by omega)
    have hfinish := finish_room hb₄ (by omega)
    have hno : addSeedData L s b₃ = some b₃ := by
      unfold addSeedData
      rw [hdata]
    rw [h₃, Option.bind_some, addIf, if_neg (by omega), Option.bind_some, addIf, if_neg (by omega), Option.bind_some, hno,
      Option.bind_some, addIf, if_pos h5, h₄, Option.bind_some, Option.isSome_map]
    exact hfinish
  · obtain ⟨b₃, h₃, hb₃⟩ := @add_room b₂ 135 82 0x30 value hb₂ (by omega) (by omega)
    obtain ⟨b₄, h₄, hb₄⟩ := @addIf_room (s.recNo = 3) _ b₃ 248 84 addVolumeMetadata hb₃ fun _ => by
      obtain ⟨c, hc, hroom⟩ := @add_room b₃ 248 10 0x60 [0x47, 0, 0x55, 0, 0x50, 0, 0x50, 0, 0x59, 0] hb₃ (by decide)
        (by omega)
      unfold addVolumeMetadata
      rw [hc, Option.bind_some]
      exact @add_room c 289 12 0x70 _ hroom (by decide) (by omega)
    obtain ⟨b₅, h₅, hb₅⟩ := @addIf_room (s.recNo = 8) _ b₄ 332 31 (fun b => ntfsRecordAddResidentAttr b 0x80 []) hb₄
      fun _ => @add_room b₄ 332 0 0x80 [] hb₄ (by decide) (by omega)
    obtain ⟨b₆, h₆, hb₆⟩ := @addSeedData_room b₅ 363 L s hs hb₅ (by omega)
    have hfinish := finish_room hb₆ (by omega)
    rw [h₃, Option.bind_some, h₄, Option.bind_some, h₅, Option.bind_some, h₆, Option.bind_some, addIf, if_neg h5,
      Option.bind_some, Option.isSome_map]
    exact hfinish

/-- A sector that is larger than a record. -/
theorem metadataRecord_none {L : Layout} {s : Seed} (hbps : 1024 < L.bps) : metadataRecord L s = none := by
  unfold metadataRecord ntfsRecordInit
  rw [if_pos, Option.bind_none]
  rw [Nat.mod_eq_of_lt hbps]
  omega

end Guppy.Ntfs
