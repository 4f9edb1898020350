import Guppy.Account.Commands

set_option autoImplicit false

/-! # A free uid

`account_next_uid` of `src/account_util.c` returns a number above the uids of `passwd` from a start value on. It looks
for three colons from the front of each line, wherever they are, so a short line shows it a field that is none, and it
stops when fewer than three colons are left. What it reads can only make the result larger, and no line with three
colons of its own is left out. But the uid of a line counts only if a third colon ends it and it has less than 24
characters (`Shown`); then it is never returned again (`accountNextUid_fresh`).
-/

namespace Guppy.Account

open Vfs (Text)
open Pkg (ascii isDigit)
open Digits (value)
open Archive.Ar (strtoull)

/-! ## The uid of a line -/

/-- The decimal number in the third field of a line. -/
def lineUid (line : Text) : Option Nat :=
  match line.splitOn 58 with
  | _ :: _ :: uid :: _ => if uid ≠ [] ∧ uid.all isDigit = true then some (value 10 uid) else none
  | _ => none

/-- The third field is ended by a colon and fits the buffer `num`. -/
def Shown (line : Text) : Prop :=
  ∃ name password uid gid rest, line.splitOn 58 = name :: password :: uid :: gid :: rest ∧ uid.length < 24

/-! ## Colons -/

theorem afterColon_eq {a : Text} (h : 58 ∉ a) (r : Text) : afterColon (a ++ 58 :: r) = some r := by
  rw [afterColon, if_pos (by simp), Lines.dropWhile_cut h]
  rfl

theorem afterColon_eq_none {p : Text} (h : afterColon p = none) : p.count 58 = 0 := by
  rw [List.count_eq_zero]
  intro hmem
  rw [afterColon, if_pos hmem] at h
  cases h

theorem count_afterColon {p r : Text} (h : afterColon p = some r) : p.count 58 = r.count 58 + 1 := by
  by_cases hmem : 58 ∈ p
  · obtain ⟨a, t, rfl, ha⟩ := List.eq_append_cons_of_mem hmem
    rw [afterColon_eq ha] at h
    cases h
    rw [List.count_append, List.count_cons_self, List.count_eq_zero.mpr ha, Nat.zero_add]
  · rw [afterColon, if_neg hmem] at h
    cases h

/-- The scan stops only where fewer than three colons are left. -/
theorem count_of_thirdField {p : Text} (h : thirdField p = none) : p.count 58 < 3 := by
  unfold thirdField at h
  cases ha : afterColon p with
  | none =>
      rw [afterColon_eq_none ha]
      decide
  | some a =>
      rw [ha] at h
      have hp := count_afterColon ha
      change (afterColon a).bind _ = none at h
      cases hb : afterColon a with
      | none =>
          have := afterColon_eq_none hb
          omega
      | some b =>
          rw [hb] at h
          have hq := count_afterColon hb
          have hmem : 58 ∉ b := fun hmem => by
            change (if 58 ∈ b then some _ else none) = none at h
            rw [if_pos hmem] at h
            cases h
          have := List.count_eq_zero.mpr hmem
          omega

theorem thirdField_eq {a b c : Text} (ha : 58 ∉ a) (hb : 58 ∉ b) (hc : 58 ∉ c) (r : Text) :
    thirdField (a ++ 58 :: (b ++ 58 :: (c ++ 58 :: r))) = some c := by
  unfold thirdField
  rw [afterColon_eq ha]
  change (afterColon _).bind _ = _
  rw [afterColon_eq hb]
  change (if 58 ∈ c ++ 58 :: r then some _ else none) = _
  rw [if_pos (by simp), Lines.takeWhile_cut hc]

/-- A line that shows its uid, with what stands behind it. -/
theorem Shown.thirdField {line : Text} (h : Shown line) {v : Nat} (hv : lineUid line = some v) (t : Text) :
    ∃ uid, thirdField (line ++ t) = some uid ∧ uid.length < 24 ∧ uid ≠ [] ∧ (∀ c ∈ uid, isDigit c = true) ∧
      value 10 uid = v := by
  obtain ⟨name, password, uid, gid, rest, hsplit, hlen⟩ := h
  rw [lineUid, hsplit] at hv
  dsimp only [] at hv
  obtain ⟨hline, hfields⟩ := (Lines.splitOn_eq_iff (List.cons_ne_nil _ _)).mp hsplit
  rw [List.intercalate_cons_cons, List.intercalate_cons_cons, List.intercalate_cons_cons] at hline
  split at hv
  · rename_i huid
    refine ⟨uid, ?_, hlen, huid.1, List.all_eq_true.mp huid.2, Option.some.inj hv⟩
    rw [hline]
    simpa using thirdField_eq (hfields name (by simp)) (hfields password (by simp)) (hfields uid (by simp)) _
  · cases hv

theorem Shown.count {line : Text} (h : Shown line) : 3 ≤ line.count 58 := by
  obtain ⟨name, password, uid, gid, rest, hsplit, -⟩ := h
  obtain ⟨hline, -⟩ := (Lines.splitOn_eq_iff (List.cons_ne_nil _ _)).mp hsplit
  rw [List.intercalate_cons_cons, List.intercalate_cons_cons, List.intercalate_cons_cons] at hline
  rw [hline]
  simp only [List.count_append, List.count_singleton_self]
  omega

/-! ## The largest uid -/

theorem le_largerUid (start : UInt32) (num : Text) (max : UInt32) : max ≤ largerUid start num max := by
  unfold largerUid
  split
  · dsimp only []
    split
    · rename_i h
      exact UInt32.le_of_lt h.2.2.2
    · exact UInt32.le_refl max
  · exact UInt32.le_refl max

/-- A uid from the start value on is not above the largest one afterwards. -/
theorem le_largerUid_of_digits {start max : UInt32} {num : Text} (hlen : num.length < 24) (hne : num ≠ [])
    (hdigits : ∀ c ∈ num, isDigit c = true) (hstart : start.toNat ≤ value 10 num) (hsmall : value 10 num < 2 ^ 32) :
    value 10 num ≤ (largerUid start num max).toNat := by
  have hread := Archive.Ar.strtoull_digits hne hdigits (by omega)
  have hval : (UInt32.ofNat (value 10 num)).toNat = value 10 num := UInt32.toNat_ofNat_of_lt' hsmall
  have hfrom : UInt32.ofNat (value 10 num) ≥ start := by
    rw [ge_iff_le, UInt32.le_iff_toNat_le, hval]
    exact hstart
  rw [largerUid, if_pos hlen, hread]
  dsimp only []
  by_cases hmore : UInt32.ofNat (value 10 num) > max
  · rw [if_pos ⟨rfl, by omega, hfrom, hmore⟩, hval]
  · rw [if_neg fun h => hmore h.2.2.2, ← hval, ← UInt32.le_iff_toNat_le]
    exact UInt32.not_lt.mp hmore

/-! ## The loop -/

theorem le_nextUidLoop (start : UInt32) (fuel : Nat) : ∀ (p : Text) (max : UInt32), max ≤ nextUidLoop start fuel p max := by
  induction fuel with
  | zero => exact fun _ max => UInt32.le_refl max
  | succ fuel ih =>
      intro p max
      rw [nextUidLoop]
      split
      · exact UInt32.le_refl max
      split
      · exact UInt32.le_refl max
      · rename_i num _
        split
        · exact UInt32.le_trans (le_largerUid start num max) (ih _ _)
        · exact le_largerUid start num max

theorem count_le_of_mem_split {p line : Text} (h : line ∈ Lines.split 10 p) : line.count 58 ≤ p.count 58 := by
  induction p using @Lines.lines_induction UInt8 _ 10 with
  | nil => cases h
  | last l hl hne =>
      rw [Lines.split_line hl hne, List.mem_singleton] at h
      rw [h]
  | line l t hl ih =>
      rw [Lines.split_line_append hl] at h
      rw [List.count_append, List.count_cons_of_ne (by decide)]
      rcases List.mem_cons.mp h with rfl | h
      · omega
      · have := ih h
        omega

/-- The loop comes to every line that shows its uid. -/
theorem le_nextUidLoop_of_mem (start : UInt32) (fuel : Nat) : ∀ {p line : Text} {max : UInt32} {v : Nat}, p.length ≤ fuel →
    line ∈ Lines.split 10 p → Shown line → lineUid line = some v → start.toNat ≤ v → v < 2 ^ 32 →
    v ≤ (nextUidLoop start fuel p max).toNat := by
  induction fuel with
  | zero =>
      intro p line max v hp hline
      rw [List.length_eq_zero_iff.mp (Nat.le_zero.mp hp)] at hline
      cases hline
  | succ fuel ih =>
      intro p line max v hp hline hshown hv hstart hsmall
      have hne : p ≠ [] := fun he => by rw [he] at hline; cases hline
      have hcolons := (hshown.count).trans (count_le_of_mem_split hline)
      rw [nextUidLoop, if_neg hne]
      cases hnum : thirdField p with
      | none =>
          have := count_of_thirdField hnum
          omega
      | some num =>
          dsimp only []
          -- the first line, whose uid is `num` then, or one behind it
          have hfirst {t : Text} (hp : p = line ++ t) : v ≤ (largerUid start num max).toNat := by
            obtain ⟨uid, huid, hlen, hnil, hdigits, rfl⟩ := hshown.thirdField hv t
            rw [← hp, hnum] at huid
            cases huid
            exact le_largerUid_of_digits hlen hnil hdigits hstart hsmall
          by_cases hnl : 10 ∈ p
          · obtain ⟨l, t, rfl, hl⟩ := List.eq_append_cons_of_mem hnl
            rw [if_pos hnl, Lines.dropWhile_cut hl]
            rw [Lines.split_line_append hl] at hline
            rcases List.mem_cons.mp hline with rfl | hline
            · exact (hfirst rfl).trans (UInt32.le_iff_toNat_le.mp (le_nextUidLoop start fuel _ _))
            · rw [List.length_append, List.length_cons] at hp
              exact ih (by rw [List.drop_one, List.tail_cons]; omega) hline hshown hv hstart hsmall
          · rw [if_neg hnl]
            rw [Lines.split_line hnl hne, List.mem_singleton] at hline
            exact hfirst (t := []) (by rw [hline, List.append_nil])

/-- The uid that is returned is from the start value on, and no line that shows its uid has it. -/
theorem accountNextUid_fresh (text : Text) (start uid : UInt32) (h : accountNextUid text start = some uid) :
    start ≤ uid ∧ ∀ line ∈ textLines text, ∀ v, Shown line → lineUid line = some v → v ≠ uid.toNat := by
  have hfrom := le_nextUidLoop start text.length text (if start ≠ 0 then start - 1 else 999)
  have hall {line : Text} {v : Nat} (hline : line ∈ textLines text) (hshown : Shown line) (hv : lineUid line = some v) :=
    @le_nextUidLoop_of_mem start text.length text line (if start ≠ 0 then start - 1 else 999) v le_rfl
      (by rwa [← textLines_eq]) hshown hv
  rw [accountNextUid] at h
  generalize nextUidLoop start text.length text (if start ≠ 0 then start - 1 else 999) = max at h hfrom hall
  by_cases hmax : max = 0xFFFFFFFF
  · rw [if_pos hmax] at h
    cases h
  rw [if_neg hmax] at h
  -- the largest uid is not the last of all, so the next one is one more
  have hlt : max.toNat < 2 ^ 32 - 1 := by
    have := max.toNat_lt
    have : max.toNat ≠ 2 ^ 32 - 1 := fun he => hmax (UInt32.toNat_inj.mp he)
    omega
  have hnext : uid.toNat = max.toNat + 1 := by
    rw [← Option.some.inj h, UInt32.toNat_add]
    exact Nat.mod_eq_of_lt (by change max.toNat + 1 < 2 ^ 32; omega)
  have hstart : start.toNat ≤ uid.toNat := by
    rw [UInt32.le_iff_toNat_le] at hfrom
    by_cases h0 : start = 0
    · rw [h0]
      exact Nat.zero_le _
    · have hpos : 1 ≤ start := UInt32.le_iff_toNat_le.mpr (Nat.pos_of_ne_zero fun he => h0 (UInt32.toNat_inj.mp he))
      rw [if_pos h0, UInt32.toNat_sub_of_le _ _ hpos] at hfrom
      change start.toNat - 1 ≤ max.toNat at hfrom
      omega
  refine ⟨UInt32.le_iff_toNat_le.mpr hstart, fun line hline v hshown hv heq => ?_⟩
  have := hall hline hshown hv (by omega) (by have := uid.toNat_lt; omega)
  omega

theorem accountNextUid_fresh_root : (1000 : UInt32) ≤ 1000 ∧
    ∀ line ∈ textLines (ascii "root:x:0:0::/root:/bin/sh\n"), ∀ v, Shown line → lineUid line = some v →
      v ≠ (1000 : UInt32).toNat :=
  accountNextUid_fresh (ascii "root:x:0:0::/root:/bin/sh\n") 1000 1000 (by decide +kernel)

/-- A uid with no colon behind it, and one with twenty zeros in front, are given out again. -/
theorem accountNextUid_returns_used :
    (accountNextUid (ascii "bob:x:1000\n") 1000 = some 1000 ∧ ascii "bob:x:1000" ∈ textLines (ascii "bob:x:1000\n") ∧
      lineUid (ascii "bob:x:1000") = some (1000 : UInt32).toNat) ∧
    (accountNextUid (ascii "bob:x:000000000000000000001000:1000::/:/bin/sh\n") 1000 = some 1000 ∧
      ascii "bob:x:000000000000000000001000:1000::/:/bin/sh" ∈
        textLines (ascii "bob:x:000000000000000000001000:1000::/:/bin/sh\n") ∧
      lineUid (ascii "bob:x:000000000000000000001000:1000::/:/bin/sh") = some (1000 : UInt32).toNat) := by
  refine ⟨⟨?_, ?_, ?_⟩, ?_, ?_, ?_⟩
  all_goals decide +kernel

end Guppy.Account
