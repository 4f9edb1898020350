import Mathlib.Data.Fintype.Pigeonhole
import Mathlib.Data.Fintype.Prod

set_option autoImplicit false

/-! # Walks that stop at a bound

A walk goes from one element to the next, as long as there is one, and collects the weight of what
it visits. It stops when the elements end or when the weight reaches a bound. Over finitely many
elements a walk is endless exactly when it comes back to an element without having collected
anything in between (`endless_iff_loop`).
-/

namespace Guppy

section

variable {α : Type} (next : α → Option α) (weight : α → Nat)

/-- The element after `i` steps. -/
def after : Nat → α → Option α
  | 0, a => some a
  | i + 1, a => (next a).bind (after i)

/-- The weight of the first `i` elements. -/
def collected : Nat → α → Nat
  | 0, _ => 0
  | i + 1, a => weight a + (next a).elim 0 (collected i)

/-- The walk goes on for ever: it is below the bound and has a next element, each time. -/
def Endless (bound : Nat) (a : α) (n : Nat) : Prop :=
  ∀ i, n + collected next weight i a < bound ∧ (after next (i + 1) a).isSome = true

/-- The walk comes back to an element below the bound, with the weight that it had there before. -/
def Loops (bound : Nat) (a : α) (n : Nat) : Prop :=
  ∃ i j b, i < j ∧ after next i a = some b ∧ after next j a = some b ∧
    n + collected next weight j a < bound ∧ collected next weight j a = collected next weight i a

variable {next weight} {a b : α} {bound n : Nat}

/-- The last step of a walk. -/
theorem after_succ (i : Nat) : ∀ a, after next (i + 1) a = (after next i a).bind next := by
  induction i with
  | zero =>
      intro a
      show (next a).bind (after next 0) = next a
      cases next a with
      | none => rfl
      | some b => rfl
  | succ i ih =>
      intro a
      show (next a).bind (after next (i + 1)) = ((next a).bind (after next i)).bind next
      cases next a with
      | none => rfl
      | some b => exact ih b

theorem collected_succ {i : Nat} : ∀ {a b : α}, after next i a = some b →
    collected next weight (i + 1) a = collected next weight i a + weight b := by
  induction i with
  | zero =>
      intro a b h
      cases h
      unfold collected
      cases next a with
      | none => simp [collected]
      | some c => simp [collected]
  | succ i ih =>
      intro a b h
      obtain ⟨c, hc, hb⟩ := Option.bind_eq_some_iff.mp (show (next a).bind (after next i) = some b from h)
      show weight a + (next a).elim 0 (collected next weight (i + 1)) =
        weight a + (next a).elim 0 (collected next weight i) + weight b
      rw [hc, Option.elim_some, Option.elim_some, ih hb, Nat.add_assoc]

/-- A walk of `j` steps has taken the first `i` of them. -/
theorem after_of_le {i j : Nat} (hij : i ≤ j) (h : (after next j a).isSome = true) :
    (after next i a).isSome = true := by
  induction j with
  | zero =>
      obtain rfl : i = 0 := Nat.le_zero.mp hij
      exact h
  | succ j ih =>
      rcases Nat.lt_or_eq_of_le hij with hlt | rfl
      · rw [after_succ, Option.isSome_iff_exists] at h
        obtain ⟨c, hc⟩ := h
        obtain ⟨b, hb, -⟩ := Option.bind_eq_some_iff.mp hc
        exact ih (Nat.le_of_lt_succ hlt) (by rw [hb]; rfl)
      · exact h

theorem collected_mono {i j : Nat} (hij : i ≤ j) (h : (after next j a).isSome = true) :
    collected next weight i a ≤ collected next weight j a := by
  induction j with
  | zero =>
      obtain rfl : i = 0 := Nat.le_zero.mp hij
      exact le_rfl
  | succ j ih =>
      rcases Nat.lt_or_eq_of_le hij with hlt | rfl
      · have hj := after_of_le (Nat.le_succ j) h
        obtain ⟨b, hb⟩ := Option.isSome_iff_exists.mp hj
        rw [collected_succ hb]
        exact le_trans (ih (Nat.le_of_lt_succ hlt) hj) (Nat.le_add_right _ _)
      · exact le_rfl

/-- Once it has come back, the walk stays on the loop and collects nothing more. -/
theorem Loops.endless (h : Loops next weight bound a n) : Endless next weight bound a n := by
  obtain ⟨i, j, b, hij, hi, hj, hbound, hsame⟩ := h
  have hjsome : (after next j a).isSome = true := by
    rw [hj]
    rfl
  -- behind `i` the walk is always at one of the elements between `i` and `j`
  have hloop : ∀ l, i ≤ l → (∃ k, i ≤ k ∧ k < j ∧ after next l a = after next k a) ∧
      collected next weight l a = collected next weight i a := by
    intro l hil
    induction l, hil using Nat.le_induction with
    | base => exact ⟨⟨i, le_rfl, hij, rfl⟩, rfl⟩
    | succ l hil ih =>
        obtain ⟨⟨k, hik, hkj, hk⟩, hcol⟩ := ih
        obtain ⟨c, hc⟩ := Option.isSome_iff_exists.mp (after_of_le hkj.le hjsome)
        constructor
        · have hnext : after next (l + 1) a = after next (k + 1) a := by
            rw [after_succ, after_succ, hk]
          rcases Nat.lt_or_eq_of_le (show k + 1 ≤ j from hkj) with hlt | heq
          · exact ⟨k + 1, by omega, hlt, hnext⟩
          · refine ⟨i, le_rfl, hij, ?_⟩
            rw [hnext, heq, hj, hi]
        · -- what `k` weighs is collected between `i` and `j`, where nothing is
          have hstep := @collected_succ α next weight k a c hc
          have hlow := @collected_mono α next weight a i k hik (by rw [hc]; rfl)
          have hhigh := @collected_mono α next weight a (k + 1) j hkj hjsome
          rw [collected_succ (hk.trans hc), hcol]
          omega
  intro l
  rcases Nat.lt_or_ge l i with hlt | hge
  · have hmono := @collected_mono α next weight a l i hlt.le (after_of_le hij.le hjsome)
    exact ⟨by omega, after_of_le (show l + 1 ≤ j by omega) hjsome⟩
  · refine ⟨by rw [(hloop l hge).2]; omega, ?_⟩
    obtain ⟨⟨k, -, hkj, hk⟩, -⟩ := hloop (l + 1) (by omega)
    rw [hk]
    exact after_of_le hkj.le hjsome

/-- Among finitely many elements an endless walk comes back with the same weight. -/
theorem Endless.loops {s : Finset α} (hs : ∀ a b, next a = some b → b ∈ s)
    (h : Endless next weight bound a n) : Loops next weight bound a n := by
  have hlt : ∀ i, n + collected next weight i a < bound := fun i => (h i).1
  choose c hc using fun i => Option.isSome_iff_exists.mp (h i).2
  have hmem : ∀ i, c i ∈ s := by
    intro i
    have hstep := hc i
    rw [after_succ] at hstep
    obtain ⟨b, -, hb⟩ := Option.bind_eq_some_iff.mp hstep
    exact hs b (c i) hb
  -- only so many pairs of an element and a weight
  let f : Nat → s × Fin bound := fun i => (⟨c i, hmem i⟩, ⟨n + collected next weight (i + 1) a, hlt (i + 1)⟩)
  have hback : ∀ i j, i < j → f i = f j → Loops next weight bound a n := by
    intro i j hij hf
    have helem : c i = c j := congrArg (fun e => (e.1 : α)) hf
    have hweight : n + collected next weight (i + 1) a = n + collected next weight (j + 1) a :=
      congrArg (fun e => (e.2 : Nat)) hf
    exact ⟨i + 1, j + 1, c i, by omega, hc i, by rw [hc j, helem], hlt (j + 1), by omega⟩
  obtain ⟨i, j, hij, hf⟩ := Finite.exists_ne_map_eq_of_infinite f
  rcases Nat.lt_or_gt_of_ne hij with hlt | hgt
  · exact hback i j hlt hf
  · exact hback j i hgt hf.symm

theorem endless_iff_loop {s : Finset α} (hs : ∀ a b, next a = some b → b ∈ s) :
    Endless next weight bound a n ↔ Loops next weight bound a n :=
  ⟨Endless.loops hs, Loops.endless⟩

end

end Guppy
