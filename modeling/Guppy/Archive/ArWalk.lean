import Guppy.Archive.Ar

set_option autoImplicit false

/-! # The walk over the members

The loop of `deb_open_fp` goes from header to header. Behind a header comes its member, and behind
the member, rounded up to an even length, the next header. The size of a member is read by
`strtoull`, which takes a minus sign and wraps the number around. The sum of the position and such
a size wraps around once more, and the test against `LONG_MAX` does not see that.
-/

namespace Guppy.Archive.Ar

open Vfs Digits Pkg

/-! ## The size field -/

/-- The field is a minus sign before the digits of `k`. -/
def Minus (sizeField : Text) (k : Nat) : Prop :=
  ∃ digits : Text, (trim (cText sizeField)).dropWhile isBlank = 45 :: digits ∧ digits ≠ [] ∧
    (∀ c ∈ digits, isDigit c = true) ∧ value 10 digits = k

theorem value_lt_of_digits {t : Text} {n : Nat} (hd : ∀ c ∈ t, isDigit c = true) (hn : t.length ≤ n) :
    value 10 t < 10 ^ n := by
  have hrange : ∀ c ∈ t, c.toNat < 48 + 10 := by
    intro c hc
    have hle : 48 ≤ c ∧ c ≤ 57 := of_decide_eq_true (hd c hc)
    exact Nat.lt_succ_of_le (UInt8.le_iff_toNat_le.mp hle.2)
  exact lt_of_lt_of_le (value_lt (by decide) hrange) (Nat.pow_le_pow_right (by decide) hn)

theorem length_trim_le (t : Text) : (trim t).length ≤ t.length := by
  have hlen : (t.rdropWhile isBlank).length ≤ t.length := (List.rdropWhile_prefix _ _).length_le
  unfold trim
  dsimp only []
  split
  · rw [List.length_dropLast]
    omega
  · exact hlen

/-- What is read of a text that is not empty: nothing is left of it only if it was a number. -/
theorem strtoull_all {t : Text} (hne : t ≠ []) (h : (strtoull t).2 = []) :
    (signOf (t.dropWhile isBlank)).2 ≠ [] ∧ ∀ c ∈ (signOf (t.dropWhile isBlank)).2, isDigit c = true := by
  unfold strtoull at h
  dsimp only [] at h
  split at h
  · exact absurd h hne
  · rename_i hdigits
    refine ⟨fun hnil => hdigits ?_, List.dropWhile_eq_nil_iff.mp h⟩
    rw [hnil]
    rfl

theorem strtoull_of_digits {t digits : Text} {neg : Bool} (hsign : signOf (t.dropWhile isBlank) = (neg, digits))
    (hne : digits ≠ []) (hd : ∀ c ∈ digits, isDigit c = true) (hlen : digits.length ≤ 10) :
    strtoull t = (if neg = true then (18446744073709551616 - value 10 digits) % 18446744073709551616 else value 10 digits,
      []) := by
  have hlt : value 10 digits < 10 ^ 10 := value_lt_of_digits hd hlen
  have htake : digits.takeWhile isDigit = digits := by
    rw [List.takeWhile_eq_self_iff]
    exact hd
  have hdrop : digits.dropWhile isDigit = [] := List.dropWhile_eq_nil_iff.mpr hd
  unfold strtoull
  rw [hsign]
  dsimp only []
  rw [htake, hdrop, if_neg hne, Nat.min_eq_left (by norm_num at hlt; omega)]

/-- The blanks and the sign are not part of the number. -/
theorem length_digits_le (t : Text) : (signOf (t.dropWhile isBlank)).2.length ≤ t.length := by
  have hdrop : (t.dropWhile isBlank).length ≤ t.length := (List.dropWhile_suffix _).length_le
  have hsign : ∀ u : Text, (signOf u).2.length ≤ u.length := by
    intro u
    unfold signOf
    split <;> simp
  exact le_trans (hsign _) hdrop

theorem signOf_eq_true {t : Text} : (signOf t).1 = true ↔ t = 45 :: (signOf t).2 := by
  unfold signOf
  split
  · simp
  · simp
  · rename_i h₁ h₂
    simp only [Bool.false_eq_true, false_iff]
    exact fun h => h₁ _ h

/-- The ten bytes of a size: a number, or a minus sign before one. -/
theorem dec_cases {sizeField : Text} {sz : Nat} (hlen : sizeField.length ≤ 10) (h : dec sizeField = some sz) :
    sz < 10 ^ 10 ∨ ∃ k, Minus sizeField k ∧ k < 10 ^ 10 ∧ sz = (18446744073709551616 - k) % 18446744073709551616 := by
  unfold dec at h
  dsimp only [] at h
  split at h
  · cases h
  · rename_i hne
    split at h
    · cases h
    · rename_i hrest
      obtain ⟨hdigits, hall⟩ := strtoull_all hne (not_not.mp hrest)
      have hlen' : (signOf ((trim (cText sizeField)).dropWhile isBlank)).2.length ≤ 10 :=
        calc (signOf ((trim (cText sizeField)).dropWhile isBlank)).2.length
            ≤ (trim (cText sizeField)).length := length_digits_le _
          _ ≤ (cText sizeField).length := length_trim_le _
          _ ≤ sizeField.length := length_cText_le _
          _ ≤ 10 := hlen
      have hlt := value_lt_of_digits hall hlen'
      have hread := @strtoull_of_digits _ _ (signOf ((trim (cText sizeField)).dropWhile isBlank)).1 rfl hdigits hall hlen'
      rw [hread] at h
      have hsz := (Option.some.inj h).symm
      split at hsz
      · rename_i hneg
        exact Or.inr ⟨_, ⟨_, signOf_eq_true.mp hneg, hdigits, hall, rfl⟩, hlt, hsz⟩
      · exact Or.inl (hsz ▸ hlt)

theorem dec_minus {sizeField : Text} {k : Nat} (hlen : sizeField.length ≤ 10) (h : Minus sizeField k) :
    k < 10 ^ 10 ∧ dec sizeField = some ((18446744073709551616 - k) % 18446744073709551616) := by
  obtain ⟨digits, htext, hne, hall, rfl⟩ := h
  have hsign : signOf ((trim (cText sizeField)).dropWhile isBlank) = (true, digits) := by
    rw [htext]
    rfl
  have hlen' : digits.length ≤ 10 :=
    calc digits.length = (signOf ((trim (cText sizeField)).dropWhile isBlank)).2.length := by rw [hsign]
      _ ≤ (trim (cText sizeField)).length := length_digits_le _
      _ ≤ (cText sizeField).length := length_trim_le _
      _ ≤ sizeField.length := length_cText_le _
      _ ≤ 10 := hlen
  have hread := strtoull_of_digits hsign hne hall hlen'
  have hnil : trim (cText sizeField) ≠ [] := by
    intro hnil
    rw [hnil] at htext
    cases htext
  refine ⟨value_lt_of_digits hall hlen', ?_⟩
  unfold dec
  dsimp only []
  rw [if_neg hnil, hread, if_neg (not_not.mpr rfl), if_pos rfl]

/-! ## Rounds -/

/-- The size field of a header at `p`. -/
def sizeField (file : List UInt8) (p : Nat) : Text := (((file.drop p).take 60).drop 48).take 10

/-- The member whose header is at `p`: the header is whole and ends as it should, and its size is a
number. -/
def memberAt (file : List UInt8) (p : Nat) : Option DebMember :=
  match fread file p 60 with
  | none => none
  | some h =>
      if h.drop 58 ≠ [96, newline] then none
      else (dec ((h.drop 48).take 10)).map (fun sz => ⟨trim (cText (h.take 16)), p + 60, sz⟩)

/-- The bytes of a version that the loop reads are there. -/
def Readable (file : List UInt8) (m : DebMember) : Prop :=
  m.name = debianBinary → m.offset + min m.size 31 ≤ file.length

instance (file : List UInt8) (m : DebMember) : Decidable (Readable file m) := inferInstanceAs (Decidable (_ → _))

/-- Where the header behind a member is looked for. -/
def DebMember.next (m : DebMember) : Nat := (m.offset + m.size + m.size % 2) % 18446744073709551616

/-- What the loop notes of a member. -/
def note (file : List UInt8) (pkg : DebPackage) (m : DebMember) : DebPackage :=
  match noteMember file pkg m.name m.offset m.size with
  | .ok pkg => pkg
  | .error _ => pkg

/-- A round of the loop that goes from the header at `p` to the one at `q`. -/
def Round (file : List UInt8) (p q : Nat) : Prop :=
  ∃ m, memberAt file p = some m ∧ Readable file m ∧ m.next ≤ longMax ∧ m.next = q

/-- The positions that the loop comes to. -/
inductive Visits (file : List UInt8) : Nat → Prop
  | first : fread file 0 8 = some [33, 60, 97, 114, 99, 104, 62, 10] → Visits file 8
  | next {p q : Nat} : Visits file p → Round file p q → Visits file q

section

variable {file : List UInt8} {p : Nat} {m : DebMember}

theorem memberAt_eq_some : memberAt file p = some m ↔
    ∃ h, fread file p 60 = some h ∧ h.drop 58 = [96, newline] ∧ dec ((h.drop 48).take 10) = some m.size ∧
      m.name = trim (cText (h.take 16)) ∧ m.offset = p + 60 := by
  unfold memberAt
  cases hread : fread file p 60 with
  | none => simp
  | some h =>
      dsimp only []
      constructor
      · intro hm
        split at hm
        · cases hm
        · rename_i hend
          obtain ⟨sz, hsz, rfl⟩ := Option.map_eq_some_iff.mp hm
          exact ⟨h, rfl, not_not.mp hend, hsz, rfl, rfl⟩
      · rintro ⟨h', heq, hend, hsz, hname, hoff⟩
        cases heq
        rw [if_neg (not_not.mpr hend), hsz, Option.map_some, ← hname, ← hoff]

/-- A header has 60 bytes of the file, and its member starts behind it. -/
theorem memberAt_inside (h : memberAt file p = some m) : m.offset = p + 60 ∧ p + 60 ≤ file.length := by
  obtain ⟨bytes, hread, -, -, -, hoff⟩ := memberAt_eq_some.mp h
  refine ⟨hoff, ?_⟩
  unfold fread at hread
  split at hread
  · assumption
  · cases hread

theorem memberAt_size (h : memberAt file p = some m) : dec (sizeField file p) = some m.size := by
  obtain ⟨bytes, hread, -, hsize, -⟩ := memberAt_eq_some.mp h
  unfold fread at hread
  split at hread
  · cases hread
    exact hsize
  · cases hread

theorem length_sizeField_le (file : List UInt8) (p : Nat) : (sizeField file p).length ≤ 10 := List.length_take_le ..

/-- A member is noted unless it is a version whose bytes are not there. -/
theorem noteMember_iff (pkg : DebPackage) (h : m.offset ≤ file.length) :
    (∃ pkg', noteMember file pkg m.name m.offset m.size = .ok pkg') ↔ Readable file m := by
  unfold noteMember Readable
  by_cases hversion : m.name = debianBinary
  · rw [if_pos hversion]
    have htake : (if m.size < 31 then m.size else 31) = min m.size 31 := by
      split <;> omega
    dsimp only []
    rw [htake]
    by_cases hzero : min m.size 31 = 0
    · rw [if_pos hzero]
      exact iff_of_true ⟨_, rfl⟩ (fun _ => by omega)
    · rw [if_neg hzero, fread]
      by_cases hroom : m.offset + min m.size 31 ≤ file.length
      · rw [if_pos hroom]
        exact iff_of_true ⟨_, rfl⟩ (fun _ => hroom)
      · rw [if_neg hroom]
        exact iff_of_false (by rintro ⟨_, h⟩; cases h) (fun h => hroom (h hversion))
  · rw [if_neg hversion]
    refine iff_of_true ?_ (fun h => absurd h hversion)
    split
    · exact ⟨_, rfl⟩
    · split
      · exact ⟨_, rfl⟩
      · exact ⟨_, rfl⟩

/-- The header at `p` is the one of `m`, and the loop goes on behind `m`. -/
theorem openLoop_of_round {pkg : DebPackage} {fuel : Nat} (hm : memberAt file p = some m) (hr : Readable file m)
    (hmax : m.next ≤ longMax) : openLoop file (fuel + 1) p pkg = openLoop file fuel m.next (note file pkg m) := by
  obtain ⟨hoff, hinside⟩ := memberAt_inside hm
  obtain ⟨h, hread, hend, hsize, hname, -⟩ := memberAt_eq_some.mp hm
  obtain ⟨pkg', hnote⟩ := (noteMember_iff pkg (by omega)).mpr hr
  have hpkg : note file pkg m = pkg' := by
    unfold note
    rw [hnote]
  rw [openLoop, if_neg (by omega), hread]
  dsimp only []
  rw [if_neg (not_not.mpr hend), hsize]
  dsimp only []
  rw [← hname, ← hoff, hnote]
  dsimp only []
  rw [← hpkg]
  exact if_neg (not_lt.mpr hmax)

/-- Where the loop does not go on, it is over. -/
theorem openLoop_of_stop {pkg : DebPackage} {fuel : Nat} (hstop : ∀ q, ¬ Round file p q) :
    ∃ r, openLoop file (fuel + 1) p pkg = some r ∧ (∀ pkg', r = .ok pkg' → file.length ≤ p ∧ accepted pkg = .ok pkg') := by
  rw [openLoop]
  by_cases hlast : file.length ≤ p
  · rw [if_pos hlast]
    exact ⟨_, rfl, fun pkg' h => ⟨hlast, h⟩⟩
  rw [if_neg hlast]
  cases hread : fread file p 60 with
  | none => exact ⟨_, rfl, fun _ h => by cases h⟩
  | some h =>
      dsimp only []
      by_cases hend : h.drop 58 ≠ [96, newline]
      · rw [if_pos hend]
        exact ⟨_, rfl, fun _ h => by cases h⟩
      rw [if_neg hend]
      cases hsize : dec ((h.drop 48).take 10) with
      | none => exact ⟨_, rfl, fun _ h => by cases h⟩
      | some sz =>
          dsimp only []
          cases hnote : noteMember file pkg (trim (cText (h.take 16))) (p + 60) sz with
          | error e => exact ⟨_, rfl, fun _ h => by cases h⟩
          | ok pkg' =>
              dsimp only []
              have hm : memberAt file p = some ⟨trim (cText (h.take 16)), p + 60, sz⟩ :=
                memberAt_eq_some.mpr ⟨h, hread, not_not.mp hend, hsize, rfl, rfl⟩
              have hr := (noteMember_iff (m := ⟨trim (cText (h.take 16)), p + 60, sz⟩) pkg (memberAt_inside hm).2).mp ⟨_, hnote⟩
              by_cases hmax : longMax < (p + 60 + sz + sz % 2) % 18446744073709551616
              · rw [if_pos hmax]
                exact ⟨_, rfl, fun _ h => by cases h⟩
              · exact absurd ⟨_, hm, hr, not_lt.mp hmax, rfl⟩ (hstop _)

end

/-! ## Steps back -/

/-- The member whose header is at `p` has a size with a minus sign that leads back to `p` or before it. -/
def StepsBack (file : List UInt8) (p : Nat) : Prop :=
  ∃ m k, memberAt file p = some m ∧ Readable file m ∧ Minus (sizeField file p) k ∧ 60 ≤ k ∧ k ≤ p + 60 + k % 2

/-- A size below 2 to the 64th by `k`: the sum wraps around if there are `k` bytes to go back. -/
theorem wrapped_next {p k : Nat} (hp : p ≤ longMax) (hk : 0 < k) (hk' : k < 10 ^ 10) :
    (p + 60 + (18446744073709551616 - k) + (18446744073709551616 - k) % 2) % 18446744073709551616 =
      if k ≤ p + 60 + k % 2 then p + 60 + k % 2 - k else 18446744073709551616 + (p + 60 + k % 2) - k := by
  have hmax : longMax = 9223372036854775807 := rfl
  have hparity : (18446744073709551616 - k) % 2 = k % 2 := by omega
  rw [hparity]
  split
  · rw [show p + 60 + (18446744073709551616 - k) + k % 2 = p + 60 + k % 2 - k + 18446744073709551616 by omega,
      Nat.add_mod_right]
    exact Nat.mod_eq_of_lt (by omega)
  · rw [show p + 60 + (18446744073709551616 - k) + k % 2 = 18446744073709551616 + (p + 60 + k % 2) - k by omega]
    exact Nat.mod_eq_of_lt (by omega)

section

variable {file : List UInt8} {p : Nat} {m : DebMember}

/-- The loop goes on from a member, and not forward, exactly when its size is a number with a minus
sign that is large enough to step over the header and not too large for the position. -/
theorem next_le_iff (hp : p ≤ longMax) (hm : memberAt file p = some m) :
    (m.next ≤ longMax ∧ m.next ≤ p) ↔ ∃ k, Minus (sizeField file p) k ∧ 60 ≤ k ∧ k ≤ p + 60 + k % 2 := by
  have hmax : longMax = 9223372036854775807 := rfl
  have hnext : m.next = (p + 60 + m.size + m.size % 2) % 18446744073709551616 := by
    unfold DebMember.next
    rw [(memberAt_inside hm).1]
  have hsize := memberAt_size hm
  constructor
  · rintro ⟨hle, hback⟩
    rcases dec_cases (length_sizeField_le file p) hsize with hsmall | ⟨k, hk, hklt, hval⟩
    · norm_num at hsmall
      rw [hnext, Nat.mod_eq_of_lt (by omega)] at hback
      omega
    · refine ⟨k, hk, ?_⟩
      rcases Nat.eq_zero_or_pos k with rfl | hpos
      · rw [hnext, hval] at hback
        norm_num at hback
        rw [Nat.mod_eq_of_lt (by omega)] at hback
        omega
      · have hwrap := @wrapped_next p k hp hpos hklt
        norm_num at hklt
        rw [Nat.mod_eq_of_lt (show 18446744073709551616 - k < 18446744073709551616 by omega)] at hval
        rw [hnext, hval, hwrap] at hle hback
        split at hle <;> omega
  · rintro ⟨k, hk, h60, hroom⟩
    obtain ⟨hklt, hval⟩ := dec_minus (length_sizeField_le file p) hk
    have hwrap := @wrapped_next p k hp (by omega) hklt
    norm_num at hklt
    rw [hsize, Nat.mod_eq_of_lt (show 18446744073709551616 - k < 18446744073709551616 by omega)] at hval
    rw [hnext, Option.some.inj hval, hwrap, if_pos hroom]
    omega

theorem visits_le (h : Visits file p) : p ≤ longMax := by
  cases h with
  | first => decide
  | next _ hround =>
      obtain ⟨m, -, -, hmax, rfl⟩ := hround
      exact hmax

/-- From a position that the loop comes to, each round goes forward, or the member there steps back. -/
theorem forward_iff (h : Visits file p) : (∀ q, Round file p q → p < q) ↔ ¬ StepsBack file p := by
  constructor
  · rintro hforward ⟨m, k, hm, hr, hk, h60, hroom⟩
    obtain ⟨hmax, hle⟩ := (next_le_iff (visits_le h) hm).mpr ⟨k, hk, h60, hroom⟩
    exact absurd (hforward m.next ⟨m, hm, hr, hmax, rfl⟩) (not_lt.mpr hle)
  · rintro hstep q ⟨m, hm, hr, hmax, rfl⟩
    by_contra hle
    obtain ⟨k, hk, h60, hroom⟩ := (next_le_iff (visits_le h) hm).mp ⟨hmax, not_lt.mp hle⟩
    exact hstep ⟨m, k, hm, hr, hk, h60, hroom⟩

/-- If every round goes forward, there is at most one for each byte that is left. -/
theorem openLoop_ends (hforward : ∀ p q, Visits file p → Round file p q → p < q) (fuel : Nat) :
    ∀ {p : Nat} {pkg : DebPackage}, Visits file p → file.length - p ≤ fuel → openLoop file (fuel + 1) p pkg ≠ none := by
  induction fuel with
  | zero =>
      intro p pkg hp hfuel
      have hstop : ∀ q, ¬ Round file p q := by
        rintro q ⟨m, hm, -⟩
        have := (memberAt_inside hm).2
        omega
      obtain ⟨r, hr, -⟩ := @openLoop_of_stop file p pkg 0 hstop
      rw [hr]
      exact Option.some_ne_none r
  | succ fuel ih =>
      intro p pkg hp hfuel
      by_cases hround : ∃ q, Round file p q
      · obtain ⟨q, hq⟩ := hround
        have hlt := hforward p q hp hq
        have hvisit := Visits.next hp hq
        obtain ⟨m, hm, hr, hmax, rfl⟩ := hq
        have hinside := (memberAt_inside hm).2
        rw [openLoop_of_round hm hr hmax]
        exact ih hvisit (by omega)
      · obtain ⟨r, hr, -⟩ := @openLoop_of_stop file p pkg (fuel + 1) (fun q hq => hround ⟨q, hq⟩)
        rw [hr]
        exact Option.some_ne_none r

end

/-- `deb_open_fp` ends, and each of its rounds goes forward, exactly when no member that it comes to
has a size with a minus sign that steps back. -/
theorem debOpenFp_forward_iff (file : List UInt8) :
    ((∃ fuel, debOpenFp fuel file ≠ none) ∧ ∀ p q, Visits file p → Round file p q → p < q) ↔
      ∀ p, Visits file p → ¬ StepsBack file p := by
  constructor
  · rintro ⟨-, hforward⟩ p hp
    exact (forward_iff hp).mp (fun q hq => hforward p q hp hq)
  · intro hback
    have hforward : ∀ p q, Visits file p → Round file p q → p < q :=
      fun p q hp hq => (forward_iff hp).mpr (hback p hp) q hq
    refine ⟨⟨file.length + 1, ?_⟩, hforward⟩
    unfold debOpenFp
    cases hread : fread file 0 8 with
    | none => exact Option.some_ne_none _
    | some magic =>
        dsimp only []
        by_cases hmagic : magic ≠ [33, 60, 97, 114, 99, 104, 62, 10]
        · rw [if_pos hmagic]
          exact Option.some_ne_none _
        · rw [if_neg hmagic]
          rw [not_not.mp hmagic] at hread
          exact openLoop_ends hforward file.length (Visits.first hread) (by omega)

/-- An archive with one member, named `x`, whose size is written `-60`. -/
def minusSixty : List UInt8 :=
  [33, 60, 97, 114, 99, 104, 62, 10] ++ [120, 47] ++ List.replicate 46 space ++ [45, 54, 48] ++ List.replicate 7 space ++
    [96, newline]

/-- The loop comes back to the header of that member for ever. -/
theorem minusSixty_never_ends : (∀ fuel, debOpenFp fuel minusSixty = none) ∧ Visits minusSixty 8 ∧
    Round minusSixty 8 8 := by
  have hm : memberAt minusSixty 8 = some ⟨[120], 68, 18446744073709551556⟩ := by decide +kernel
  have hr : Readable minusSixty ⟨[120], 68, 18446744073709551556⟩ := by decide +kernel
  have hnext : DebMember.next ⟨[120], 68, 18446744073709551556⟩ = 8 := by decide +kernel
  have hmax : DebMember.next ⟨[120], 68, 18446744073709551556⟩ ≤ longMax := by decide +kernel
  have hloop : ∀ fuel pkg, openLoop minusSixty fuel 8 pkg = none := by
    intro fuel
    induction fuel with
    | zero => exact fun _ => rfl
    | succ fuel ih =>
        intro pkg
        rw [openLoop_of_round hm hr hmax, hnext]
        exact ih _
  refine ⟨fun fuel => ?_, Visits.first (by decide +kernel), ⟨_, hm, hr, hmax, hnext⟩⟩
  unfold debOpenFp
  rw [show fread minusSixty 0 8 = some [33, 60, 97, 114, 99, 104, 62, 10] by decide +kernel]
  dsimp only []
  rw [if_neg (by decide)]
  exact hloop fuel _

end Guppy.Archive.Ar
