import Mathlib.Data.Nat.Basic
import Mathlib.Data.List.Basic

set_option autoImplicit false

/-! # Reading in pieces

A reader is asked for a number of elements at a position, and gives some of them and the position for the next
time. Most programs call it in a loop with one buffer until it gives nothing. A reader may know where the end is
and yet be unable to read beyond some place: it then gives what it can and stays where it is (`Serves`). The loop
has everything when all can be read; otherwise it ends only if the buffer ends at that place
(`copyLoop_ends_iff`).
-/

namespace Chunks

variable {β : Type}

section Reader

variable (read : Nat → Nat → Option (List β) × Nat)

/-- Calls with the given sizes, one after the other; a call gives none when it fails. -/
def reads : Nat → List Nat → List (Option (List β))
  | _, [] => []
  | pos, n :: ns => (read pos n).1 :: reads (read pos n).2 ns

/-- Calls with the size `n` until there is nothing left, or until one fails, and whether all was well. There is no
result when the fuel is too little. -/
def copyLoop (n : Nat) : Nat → Nat → List β → Option (Bool × List β)
  | 0, _, _ => none
  | fuel + 1, pos, out =>
      match (read pos n).1 with
      | none => some (false, out)
      | some bs => if bs = [] then some (true, out) else copyLoop n fuel (read pos n).2 (out ++ bs)

/-- The reader gives the elements `all` of something of `size` elements. Where the next ones are not all of them it
gives what there is and does not move. -/
structure Serves (all : List β) (size : Nat) : Prop where
  le : all.length ≤ size
  read_eq : ∀ pos n, pos ≤ all.length → read pos n =
    if pos + min n (size - pos) ≤ all.length then (some ((all.drop pos).take n), pos + min n (size - pos))
    else if pos < all.length then (some (all.drop pos), pos)
    else (none, pos)

end Reader

/-- Consecutive pieces of the given sizes, as far as there is something left. -/
def cut : List Nat → List β → List (List β)
  | [], _ => []
  | n :: ns, l => l.take n :: cut ns (l.drop n)

variable {read : Nat → Nat → Option (List β) × Nat} {all : List β} {size n : Nat}

/-- Calls of any sizes give consecutive pieces. -/
theorem reads_eq_cut (h : Serves read all size) (hall : all.length = size) (ns : List Nat) :
    ∀ {pos : Nat}, pos ≤ all.length → reads read pos ns = (cut ns (all.drop pos)).map some := by
  induction ns with
  | nil => exact fun _ => rfl
  | cons n ns ih =>
      intro pos hpos
      have hread := h.read_eq pos n hpos
      rw [if_pos (by omega)] at hread
      rw [reads, hread, cut, List.map_cons, ih (show pos + min n (size - pos) ≤ all.length by omega), List.drop_drop]
      -- past the end there is nothing in any case
      by_cases hn : n ≤ size - pos
      · rw [Nat.min_eq_left hn]
      · rw [Nat.min_eq_right (by omega), List.drop_of_length_le (show all.length ≤ pos + (size - pos) by omega),
          List.drop_of_length_le (show all.length ≤ pos + n by omega)]

theorem copyLoop_complete (h : Serves read all size) (hall : all.length = size) (hn : 0 < n) :
    ∀ {pos : Nat} (out : List β), pos ≤ all.length →
      ∃ fuel, copyLoop read n fuel pos out = some (true, out ++ all.drop pos) := by
  intro pos
  generalize hleft : all.length - pos = left
  induction left using Nat.strong_induction_on generalizing pos with
  | _ left ih =>
      intro out hpos
      have hread := h.read_eq pos n hpos
      rw [if_pos (by omega)] at hread
      by_cases hend : pos = all.length
      · have hnil : all.drop pos = [] := List.drop_of_length_le (by omega)
        refine ⟨1, ?_⟩
        rw [copyLoop, hread, hnil, List.take_nil, List.append_nil]
        rfl
      · have hsome : (all.drop pos).take n ≠ [] := by
          rw [← List.length_pos_iff, List.length_take, List.length_drop]
          omega
        obtain ⟨fuel, hrest⟩ := ih (all.length - (pos + min n (size - pos))) (by omega) rfl (out ++ (all.drop pos).take n)
          (by omega)
        refine ⟨fuel + 1, ?_⟩
        rw [copyLoop, hread]
        dsimp only
        rw [if_neg hsome, hrest, List.append_assoc]
        congr 3
        by_cases hle : n ≤ size - pos
        · rw [Nat.min_eq_left hle, ← List.drop_drop, List.take_append_drop]
        · rw [List.drop_of_length_le (show all.length ≤ pos + min n (size - pos) by omega), List.append_nil,
            List.take_of_length_le (by rw [List.length_drop]; omega)]

/-- A reader that does not move gives the same again. -/
theorem copyLoop_stuck {pos : Nat} {bs : List β} (h : read pos n = (some bs, pos)) (hbs : bs ≠ []) (fuel : Nat) :
    ∀ out, copyLoop read n fuel pos out = none := by
  induction fuel with
  | zero => exact fun _ => rfl
  | succ fuel ih =>
      intro out
      rw [copyLoop, h]
      dsimp only
      rw [if_neg hbs]
      exact ih _

/-- Where not all can be read, the loop ends at the place itself or not at all. -/
theorem copyLoop_short (h : Serves read all size) (hall : all.length < size) (hn : 0 < n) :
    ∀ {pos : Nat} (out : List β), pos ≤ all.length →
      (n ∣ all.length - pos → ∃ fuel, copyLoop read n fuel pos out = some (false, out ++ all.drop pos)) ∧
      (¬ n ∣ all.length - pos → ∀ fuel, copyLoop read n fuel pos out = none) := by
  intro pos
  generalize hleft : all.length - pos = left
  induction left using Nat.strong_induction_on generalizing pos with
  | _ left ih =>
      intro out hpos
      have hread := h.read_eq pos n hpos
      by_cases hfits : pos + n ≤ all.length
      · rw [if_pos (by omega), Nat.min_eq_left (by omega)] at hread
        have hsome : (all.drop pos).take n ≠ [] := by
          rw [← List.length_pos_iff, List.length_take, List.length_drop]
          omega
        have hdvd : n ∣ left ↔ n ∣ left - n := (Nat.dvd_sub_iff_left (by omega) (Nat.dvd_refl n)).symm
        have hrest := ih (left - n) (by omega) (by omega) (out ++ (all.drop pos).take n) hfits
        have hloop : ∀ fuel, copyLoop read n (fuel + 1) pos out =
            copyLoop read n fuel (pos + n) (out ++ (all.drop pos).take n) := by
          intro fuel
          rw [copyLoop, hread]
          exact if_neg hsome
        refine ⟨fun hd => ?_, fun hd fuel => ?_⟩
        · obtain ⟨fuel, hfuel⟩ := hrest.1 (hdvd.mp hd)
          refine ⟨fuel + 1, ?_⟩
          rw [hloop, hfuel, List.append_assoc, ← List.drop_drop, List.take_append_drop]
        · cases fuel with
          | zero => rfl
          | succ fuel => rw [hloop, hrest.2 (fun hd' => hd (hdvd.mpr hd'))]
      · rw [if_neg (by omega)] at hread
        by_cases hlt : pos < all.length
        · rw [if_pos hlt] at hread
          have hsome : all.drop pos ≠ [] := by
            rw [← List.length_pos_iff, List.length_drop]
            omega
          refine ⟨fun hd => absurd (Nat.le_of_dvd (by omega) hd) (by omega), fun _ fuel => ?_⟩
          exact copyLoop_stuck hread hsome fuel out
        · rw [if_neg hlt] at hread
          refine ⟨fun _ => ⟨1, ?_⟩, fun hd => absurd ?_ hd⟩
          · rw [copyLoop, hread, List.drop_of_length_le (by omega), List.append_nil]
          · rw [show left = 0 by omega]
            exact ⟨0, rfl⟩

/-- More fuel gives the same. -/
theorem copyLoop_mono {r : Bool × List β} (fuel : Nat) : ∀ {pos : Nat} {out : List β},
    copyLoop read n fuel pos out = some r → ∀ k, copyLoop read n (fuel + k) pos out = some r := by
  induction fuel with
  | zero => exact fun h => nomatch h
  | succ fuel ih =>
      intro pos out h k
      rw [Nat.add_right_comm]
      unfold copyLoop at h ⊢
      cases hread : (read pos n).1 with
      | none => rwa [hread] at h
      | some bs =>
          rw [hread] at h
          dsimp only at h ⊢
          split at h
          · rename_i hnil
            rwa [if_pos hnil]
          · rename_i hsome
            rw [if_neg hsome]
            exact ih h k

theorem copyLoop_unique {r r' : Bool × List β} {fuel fuel' pos : Nat} {out : List β}
    (h : copyLoop read n fuel pos out = some r) (h' : copyLoop read n fuel' pos out = some r') : r = r' := by
  have hmore := copyLoop_mono fuel h fuel'
  have hmore' := copyLoop_mono fuel' h' fuel
  rw [Nat.add_comm, hmore] at hmore'
  exact Option.some.inj hmore'

/-- The loop ends when all can be read, and otherwise when the buffer ends where reading does. -/
theorem copyLoop_ends_iff (h : Serves read all size) (hn : 0 < n) (r : Bool × List β) :
    (∃ fuel, copyLoop read n fuel 0 [] = some r) ↔
      (all.length = size ∨ n ∣ all.length) ∧ r = (decide (all.length = size), all) := by
  rcases lt_or_eq_of_le h.le with hlt | hall
  · obtain ⟨hends, hnot⟩ := copyLoop_short h hlt hn [] (Nat.zero_le _)
    rw [Nat.sub_zero] at hends hnot
    rw [decide_eq_false (ne_of_lt hlt)]
    constructor
    · rintro ⟨fuel, hfuel⟩
      by_cases hd : n ∣ all.length
      · obtain ⟨fuel', hfuel'⟩ := hends hd
        exact ⟨Or.inr hd, copyLoop_unique hfuel hfuel'⟩
      · rw [hnot hd fuel] at hfuel
        cases hfuel
    · rintro ⟨hd, rfl⟩
      exact hends (hd.resolve_left (ne_of_lt hlt))
  · obtain ⟨fuel', hfuel'⟩ := copyLoop_complete h hall hn [] (Nat.zero_le _)
    rw [decide_eq_true hall]
    constructor
    · rintro ⟨fuel, hfuel⟩
      exact ⟨Or.inl hall, copyLoop_unique hfuel hfuel'⟩
    · rintro ⟨-, rfl⟩
      exact ⟨fuel', hfuel'⟩

end Chunks
