import Mathlib.Order.Compare
import Mathlib.Order.PiLex
import Mathlib.Data.Prod.Lex

set_option autoImplicit false

/-! # Sequences in lexicographic order

Sequences over a linear order, compared at the first place where they differ. A comparison function
of C, which returns a number that is negative, zero or positive, is an order when its result is the
`sign` of the comparison of two keys; the keys of texts are sequences and pairs of them.
-/

namespace Guppy.LexSeq

/-! ## Sequences -/

/-- Sequences, ordered by their first difference. -/
def Seq (α : Type) := Lex (ℕ → α)

section

variable {α : Type}

/-- A sequence with one more element at its start. -/
def cons (x : α) (s : Seq α) : Seq α := fun n => Nat.casesOn n x s

/-- The sequence of one element. -/
def const (x : α) : Seq α := fun _ => x

theorem cons_const (x : α) : cons x (const x) = const x := by
  funext n
  cases n <;> rfl

variable [LinearOrder α] {x y : α} {s t : Seq α}

noncomputable instance : LinearOrder (Seq α) := inferInstanceAs (LinearOrder (Lex (ℕ → α)))

theorem lt_iff : s < t ↔ ∃ i : ℕ, (∀ j, j < i → s j = t j) ∧ s i < t i := Iff.rfl

theorem cons_lt_of_lt (h : x < y) : cons x s < cons y t :=
  lt_iff.mpr ⟨0, fun j hj => absurd hj (Nat.not_lt_zero j), h⟩

theorem cons_lt_cons : cons x s < cons x t ↔ s < t := by
  rw [lt_iff, lt_iff]
  constructor
  · rintro ⟨i, hi, hlt⟩
    cases i with
    | zero => exact absurd hlt (lt_irrefl x)
    | succ i => exact ⟨i, fun j hj => hi (j + 1) (Nat.succ_lt_succ hj), hlt⟩
  · rintro ⟨i, hi, hlt⟩
    refine ⟨i + 1, fun j hj => ?_, hlt⟩
    cases j with
    | zero => rfl
    | succ j => exact hi j (Nat.lt_of_succ_lt_succ hj)

/-- The first elements decide, unless they are equal. -/
theorem cmp_cons : cmp (cons x s) (cons y t) = (cmp x y).then (cmp s t) := by
  rcases lt_trichotomy x y with h | rfl | h
  · rw [(cmp_eq_lt_iff _ _).mpr h, (cmp_eq_lt_iff _ _).mpr (cons_lt_of_lt h)]
    rfl
  · rw [cmp_self_eq_eq]
    show cmp (cons x s) (cons x t) = cmp s t
    rcases lt_trichotomy s t with hs | rfl | hs
    · rw [(cmp_eq_lt_iff _ _).mpr hs, (cmp_eq_lt_iff _ _).mpr (cons_lt_cons.mpr hs)]
    · rw [cmp_self_eq_eq, cmp_self_eq_eq]
    · rw [(cmp_eq_gt_iff _ _).mpr hs, (cmp_eq_gt_iff _ _).mpr (cons_lt_cons.mpr hs)]
  · rw [(cmp_eq_gt_iff _ _).mpr h, (cmp_eq_gt_iff _ _).mpr (cons_lt_of_lt h)]
    rfl

end

/-! ## Pairs -/

theorem cmp_pair {α β : Type} [LinearOrder α] [LinearOrder β] (a c : α) (b d : β) :
    cmp (toLex (a, b)) (toLex (c, d)) = (cmp a c).then (cmp b d) := by
  rcases lt_trichotomy a c with h | rfl | h
  · rw [(cmp_eq_lt_iff _ _).mpr h, (cmp_eq_lt_iff _ _).mpr (Prod.Lex.toLex_lt_toLex.mpr (Or.inl h))]
    rfl
  · rw [cmp_self_eq_eq]
    show cmp (toLex (a, b)) (toLex (a, d)) = cmp b d
    have hlt : ∀ {u v : β}, u < v → toLex (a, u) < toLex (a, v) :=
      fun huv => Prod.Lex.toLex_lt_toLex.mpr (Or.inr ⟨rfl, huv⟩)
    rcases lt_trichotomy b d with hb | rfl | hb
    · rw [(cmp_eq_lt_iff _ _).mpr hb, (cmp_eq_lt_iff _ _).mpr (hlt hb)]
    · rw [cmp_self_eq_eq, cmp_self_eq_eq]
    · rw [(cmp_eq_gt_iff _ _).mpr hb, (cmp_eq_gt_iff _ _).mpr (hlt hb)]
  · rw [(cmp_eq_gt_iff _ _).mpr h, (cmp_eq_gt_iff _ _).mpr (Prod.Lex.toLex_lt_toLex.mpr (Or.inl h))]
    rfl

/-! ## Results of comparison functions -/

/-- A comparison as a number. -/
def sign : Ordering → Int
  | .lt => -1
  | .eq => 0
  | .gt => 1

theorem sign_eq_zero {o : Ordering} : sign o = 0 ↔ o = .eq := by
  cases o <;> decide

theorem sign_swap (o : Ordering) : sign o.swap = -sign o := by
  cases o <;> rfl

theorem sign_sign (o : Ordering) : (sign o).sign = sign o := by
  cases o <;> rfl

/-- The second comparison counts when the first one says nothing. -/
theorem sign_then (o p : Ordering) : sign (o.then p) = if sign o ≠ 0 then sign o else sign p := by
  cases o <;> rfl

section

variable {α : Type} [LinearOrder α] (a b : α)

theorem sign_cmp_of_lt {a b : α} (h : a < b) : sign (cmp a b) = -1 := by
  rw [(cmp_eq_lt_iff _ _).mpr h]
  rfl

theorem sign_cmp_of_gt {a b : α} (h : b < a) : sign (cmp a b) = 1 := by
  rw [(cmp_eq_gt_iff _ _).mpr h]
  rfl

theorem sign_cmp_self : sign (cmp a a) = 0 := by
  rw [cmp_self_eq_eq]
  rfl

theorem sign_cmp_swap : sign (cmp b a) = -sign (cmp a b) := by
  rw [← cmp_swap, sign_swap]

theorem sign_cmp_le_zero {a b : α} : sign (cmp a b) ≤ 0 ↔ a ≤ b := by
  rcases lt_trichotomy a b with h | rfl | h
  · rw [sign_cmp_of_lt h]
    exact iff_of_true (by decide) h.le
  · rw [sign_cmp_self]
    exact iff_of_true le_rfl le_rfl
  · rw [sign_cmp_of_gt h]
    exact iff_of_false (by decide) (not_le.mpr h)

theorem sign_cmp_ne_zero {a b : α} (h : a ≠ b) : sign (cmp a b) ≠ 0 := by
  rw [Ne, sign_eq_zero, cmp_eq_eq_iff]
  exact h

/-- How a comparison function of C decides on two numbers that differ. -/
theorem sign_cmp_of_ne {a b : α} (h : a ≠ b) : sign (cmp a b) = if a < b then -1 else 1 := by
  by_cases hlt : a < b
  · rw [if_pos hlt, sign_cmp_of_lt hlt]
  · rw [if_neg hlt, sign_cmp_of_gt (lt_of_le_of_ne (not_lt.mp hlt) h.symm)]

end

end Guppy.LexSeq
