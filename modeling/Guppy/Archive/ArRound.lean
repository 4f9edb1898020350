import Guppy.Archive.ArMembers

set_option autoImplicit false

/-! # Members that were written

Any number of members that `gu_ar_write_member` has written one after the other are walked over as these
members, with their names and sizes, and at the offset of each are its bytes (`writeMembers_walk`).
-/

namespace Guppy.Archive.Ar

open Vfs Digits

/-- A member to be written. -/
structure Member where
  name : CString
  bytes : List UInt8

/-- Write some members with a mode of 0644. -/
def writeMembers : List UInt8 → List Member → Option (List UInt8)
  | out, [] => some out
  | out, m :: ms => (addMember out m.name.text m.bytes).bind (fun out => writeMembers out ms)

/-- The members as they are to be found when the first header is at `p`. -/
def membersFrom : Nat → List Member → List DebMember
  | _, [] => []
  | p, m :: ms => ⟨m.name.text, p + 60, m.bytes.length⟩ ::
      membersFrom (p + 60 + m.bytes.length + m.bytes.length % 2) ms

/-- What a member adds to a file. -/
theorem addMember_eq_some {out bytes file : List UInt8} {name : CString} (h : addMember out name.text bytes = some file) :
    file.length ≤ longMax ∧ bytes.length < 10 ^ 10 ∧ ∃ header pad, file = out ++ (header ++ (bytes ++ pad)) ∧
      header.length = 60 ∧ header.drop 58 = [96, newline] ∧ dec ((header.drop 48).take 10) = some bytes.length ∧
      trim (cText (header.take 16)) = name.text ∧ pad.length = bytes.length % 2 := by
  unfold addMember guArWriteMember at h
  split at h
  · cases h
  · rename_i hname
    simp only [Option.bind_eq_bind, Option.bind_eq_some_iff] at h
    obtain ⟨header, hheader, out₁, hwrite, out₂, hcopy, hpad⟩ := h
    obtain ⟨hmax₁, rfl⟩ := fwrite_eq_some.mp hwrite
    obtain ⟨hroom, rfl⟩ := (copyLoop_eq_some _).mp hcopy
    rw [List.drop_zero, List.take_length] at hpad
    have hsize : bytes.length < 10 ^ 10 := by
      unfold arHeader at hheader
      simp only [Option.bind_eq_bind, Option.bind_eq_some_iff] at hheader
      obtain ⟨_, -, _, -, _, -, _, -, _, -, sizeField, hsize, -⟩ := hheader
      unfold field at hsize
      split at hsize
      · cases hsize
      · rename_i hlen
        rw [length_numeral, Nat.not_lt, Nat.succ_le_iff] at hlen
        exact Nat.lt_pow_of_log_lt (by decide) hlen
    obtain ⟨header', hheader', hlen, hend, hdec, htrim⟩ := @arHeader_spec name.text bytes.length 420
      (by omega) name.noNul hsize
    obtain rfl := Option.some.inj (hheader.symm.trans hheader')
    by_cases hodd : bytes.length % 2 ≠ 0
    · rw [if_pos hodd] at hpad
      obtain ⟨hmax, rfl⟩ := fwrite_eq_some.mp hpad
      refine ⟨by rwa [List.length_append], hsize, header, [newline], ?_, hlen, hend, hdec, htrim, ?_⟩
      · simp only [List.append_assoc]
      · rw [List.length_singleton]
        omega
    · rw [if_neg hodd] at hpad
      obtain rfl := Option.some.inj hpad
      refine ⟨?_, hsize, header, [], ?_, hlen, hend, hdec, htrim, ?_⟩
      · rw [List.length_append] at hroom ⊢
        rw [List.length_append]
        omega
      · simp only [List.append_assoc, List.append_nil]
      · rw [List.length_nil]
        omega

/-- Members are only appended. -/
theorem writeMembers_extends {ms : List Member} : ∀ {out file : List UInt8}, writeMembers out ms = some file →
    ∃ tail, file = out ++ tail := by
  induction ms with
  | nil => exact fun h => ⟨[], (Option.some.inj h).symm.trans (List.append_nil _).symm⟩
  | cons m ms ih =>
      intro out file h
      obtain ⟨out', hadd, hrest⟩ := Option.bind_eq_some_iff.mp h
      obtain ⟨-, -, header, pad, rfl, -⟩ := addMember_eq_some hadd
      obtain ⟨tail, rfl⟩ := ih hrest
      exact ⟨_, List.append_assoc ..⟩

theorem writeMembers_le {ms : List Member} (hne : ms ≠ []) : ∀ {out file : List UInt8}, writeMembers out ms = some file →
    file.length ≤ longMax := by
  induction ms with
  | nil => exact absurd rfl hne
  | cons m ms ih =>
      intro out file h
      obtain ⟨out', hadd, hrest⟩ := Option.bind_eq_some_iff.mp h
      by_cases hlast : ms = []
      · subst hlast
        obtain rfl := Option.some.inj hrest
        exact (addMember_eq_some hadd).1
      · exact ih hlast hrest

/-- The header of a member that was written, with what follows it. -/
theorem memberAt_written {file out header bytes pad rest : List UInt8} {name : Text}
    (hfile : file = out ++ (header ++ (bytes ++ pad)) ++ rest) (hlen : header.length = 60)
    (hend : header.drop 58 = [96, newline]) (hdec : dec ((header.drop 48).take 10) = some bytes.length)
    (htrim : trim (cText (header.take 16)) = name) :
    memberAt file out.length = some ⟨name, out.length + 60, bytes.length⟩ ∧
      (file.drop (out.length + 60)).take bytes.length = bytes := by
  have hassoc : file = out ++ (header ++ (bytes ++ (pad ++ rest))) := by
    rw [hfile]
    simp only [List.append_assoc]
  constructor
  · exact memberAt_eq_some.mpr ⟨header, by rw [hassoc]; exact fread_append rfl hlen, hend, hdec, htrim.symm, rfl⟩
  · rw [hassoc, ← List.append_assoc, List.drop_left' (by rw [List.length_append, hlen]), List.take_left' rfl]

/-- A file of members is walked over as these members, and their bytes are found at their offsets. -/
theorem writeMembers_walk {ms : List Member} : ∀ {out file : List UInt8}, writeMembers out ms = some file →
    file.length ≤ longMax → Walk file out.length (membersFrom out.length ms) ∧
      (membersFrom out.length ms).map (fun m => (m.name, (file.drop m.offset).take m.size)) =
        ms.map (fun m => (m.name.text, m.bytes)) := by
  induction ms with
  | nil =>
      intro out file h _
      obtain rfl := Option.some.inj h
      exact ⟨Walk.done le_rfl, rfl⟩
  | cons m ms ih =>
      intro out file h hmax
      obtain ⟨out', hadd, hrest⟩ := Option.bind_eq_some_iff.mp h
      obtain ⟨-, -, header, pad, hout', hlen, hend, hdec, htrim, hpad⟩ := addMember_eq_some hadd
      obtain ⟨tail, htail⟩ := writeMembers_extends hrest
      have hnext : out'.length = out.length + 60 + m.bytes.length + m.bytes.length % 2 := by
        rw [hout']
        simp only [List.length_append, hlen, hpad]
        omega
      have hle : out'.length ≤ file.length := by rw [htail, List.length_append]; omega
      obtain ⟨hat, hbytes⟩ := memberAt_written (htail.trans (congrArg (· ++ tail) hout')) hlen hend hdec htrim
      obtain ⟨hwalk, hmap⟩ := ih hrest hmax
      rw [hnext] at hwalk hmap
      have hfar : (⟨m.name.text, out.length + 60, m.bytes.length⟩ : DebMember).next =
          out.length + 60 + m.bytes.length + m.bytes.length % 2 := by
        unfold DebMember.next
        have : longMax < 18446744073709551616 := by decide
        exact Nat.mod_eq_of_lt (by dsimp only []; omega)
      rw [membersFrom]
      constructor
      · refine Walk.member hat (fun _ => ?_) (by rw [hfar]; omega) (by rwa [hfar])
        dsimp only []
        omega
      · rw [List.map_cons, List.map_cons, hmap]
        exact congrArg (fun b => (m.name.text, b) :: ms.map _) hbytes

/-- The loop notes the members that it walks over. -/
theorem openLoop_of_walk {file : List UInt8} {p : Nat} {ms : List DebMember} (h : Walk file p ms) : ∀ {fuel : Nat}
    {pkg : DebPackage}, ms.length < fuel → openLoop file fuel p pkg = some (accepted (ms.foldl (note file) pkg)) := by
  induction h with
  | done hend =>
      intro fuel pkg hfuel
      obtain ⟨fuel, rfl⟩ : ∃ k, fuel = k + 1 := ⟨fuel - 1, by omega⟩
      rw [openLoop, if_pos hend]
      rfl
  | member hm hr hmax _ ih =>
      intro fuel pkg hfuel
      rw [List.length_cons] at hfuel
      obtain ⟨fuel, rfl⟩ : ∃ k, fuel = k + 1 := ⟨fuel - 1, by omega⟩
      rw [openLoop_of_round hm hr hmax, ih (by omega)]
      rfl

end Guppy.Archive.Ar
