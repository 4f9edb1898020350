import Guppy.Lib.LexSeq

set_option autoImplicit false

/-! # Comparison functions and binary search

A comparison function of C that agrees with the order of some keys is a consistent total preorder (`IsPreorder`), so
that a sort by it is well defined. In rows sorted by such a function a binary search finds a row that compares equal
whenever there is one (`search_found`), and all rows that compare equal stand together around it (`mem_around`).
-/

namespace Guppy.LexSeq

variable {α κ : Type}

/-! ## Comparison functions -/

/-- A consistent total preorder on the values that satisfy `S`. -/
structure IsPreorder (S : α → Prop) (f : α → α → Int) : Prop where
  swap : ∀ a b, S a → S b → (f b a).sign = -(f a b).sign
  trans : ∀ a b c, S a → S b → S c → f a b ≤ 0 → f b c ≤ 0 → f a c ≤ 0

theorem le_zero_iff_sign {x : Int} : x ≤ 0 ↔ x.sign ≤ 0 := by
  rcases lt_trichotomy x 0 with h | rfl | h
  · rw [Int.sign_eq_neg_one_of_neg h]
    exact iff_of_true h.le (by decide)
  · simp
  · rw [Int.sign_eq_one_of_pos h]
    exact iff_of_false (not_le.mpr h) (by decide)

theorem zero_le_sign_cmp [LinearOrder κ] {a b : κ} : 0 ≤ sign (cmp a b) ↔ b ≤ a := by
  have hswap := sign_cmp_swap a b
  rw [← @sign_cmp_le_zero κ _ b a, hswap]
  omega

section Keys

variable [LinearOrder κ] {S : α → Prop} {f : α → α → Int} {key : α → κ}

theorem cmp_le_zero_iff (hkey : ∀ a b, S a → S b → (f a b).sign = sign (cmp (key a) (key b))) {a b : α} (ha : S a) (hb : S b) :
    f a b ≤ 0 ↔ key a ≤ key b := by
  rw [le_zero_iff_sign, hkey a b ha hb, sign_cmp_le_zero]

/-- A function that compares as keys do. -/
theorem isPreorder_of_key (hkey : ∀ a b, S a → S b → (f a b).sign = sign (cmp (key a) (key b))) : IsPreorder S f where
  swap a b ha hb := by rw [hkey a b ha hb, hkey b a hb ha, sign_cmp_swap]
  trans a b c ha hb hc hab hbc := by
    rw [cmp_le_zero_iff hkey ha hb] at hab
    rw [cmp_le_zero_iff hkey hb hc] at hbc
    rw [cmp_le_zero_iff hkey ha hc]
    exact hab.trans hbc

/-- Some order of the values is sorted. -/
theorem exists_sorted (hkey : ∀ a b, S a → S b → (f a b).sign = sign (cmp (key a) (key b))) (l : List α)
    (hl : ∀ a ∈ l, S a) : ∃ s : List α, s.Perm l ∧ s.Pairwise fun a b => f a b ≤ 0 := by
  refine ⟨l.mergeSort fun a b => decide (key a ≤ key b), List.mergeSort_perm _ _, ?_⟩
  have hsorted : (l.mergeSort fun a b => decide (key a ≤ key b)).Pairwise fun a b => decide (key a ≤ key b) = true := by
    apply List.pairwise_mergeSort
    · intro a b c hab hbc
      exact decide_eq_true ((of_decide_eq_true hab).trans (of_decide_eq_true hbc))
    · intro a b
      simpa using le_total (key a) (key b)
  refine hsorted.imp_of_mem fun {a b} ha hb hab => ?_
  rw [cmp_le_zero_iff hkey (hl a ((List.mergeSort_perm _ _).subset ha)) (hl b ((List.mergeSort_perm _ _).subset hb))]
  exact of_decide_eq_true hab

end Keys

/-! ## Binary search -/

/-- A binary search in the rows from `left` up to `right`, with `c i` the comparison of the wanted row to row `i`; the
rows before a wanted one compare larger, so that a negative result leads to the right. -/
def search (c : Nat → Int) : (fuel left right : Nat) → Option Nat
  | 0, _, _ => none
  | fuel + 1, left, right =>
      if right ≤ left then none
      else
        let middle := (left + right) / 2
        if c middle = 0 then some middle
        else if c middle < 0 then search c fuel (middle + 1) right
        else search c fuel left middle

/-- The comparisons along sorted rows: first those with larger rows, then those with equal ones, then the others. -/
structure Ascending (c : Nat → Int) (n : Nat) : Prop where
  nonneg : ∀ i j, i ≤ j → j < n → 0 ≤ c i → 0 ≤ c j
  pos : ∀ i j, i ≤ j → j < n → 0 < c i → 0 < c j

theorem search_found {c : Nat → Int} {n : Nat} (hc : Ascending c n) {i : Nat} (hi : c i = 0) (fuel : Nat) :
    ∀ {left right : Nat}, left ≤ i → i < right → right ≤ n → right ≤ left + fuel →
      ∃ m, search c fuel left right = some m ∧ m < n ∧ c m = 0 := by
  induction fuel with
  | zero => intro left right h₁ h₂ _ h₃; omega
  | succ fuel ih =>
      intro left right hleft hright hn hfuel
      rw [search, if_neg (by omega)]
      dsimp only []
      by_cases hzero : c ((left + right) / 2) = 0
      · rw [if_pos hzero]
        exact ⟨_, rfl, by omega, hzero⟩
      rw [if_neg hzero]
      by_cases hneg : c ((left + right) / 2) < 0
      · -- the row lies behind the middle
        rw [if_pos hneg]
        have hbehind : (left + right) / 2 < i := by
          by_contra hle
          have := hc.nonneg i ((left + right) / 2) (by omega) (by omega) (by omega)
          omega
        exact ih (by omega) hright hn (by omega)
      · rw [if_neg hneg]
        have hbefore : i < (left + right) / 2 := by
          by_contra hle
          have := hc.pos ((left + right) / 2) i (by omega) (by omega) (by omega)
          omega
        exact ih hleft hbefore (by omega) (by omega)

theorem mem_takeWhile_append {p : α → Bool} {a b : List α} {x : α} (ha : ∀ y ∈ a, p y = true) (hx : p x = true) :
    x ∈ (a ++ x :: b).takeWhile p := by
  rw [List.takeWhile_append_of_pos ha, List.takeWhile_cons, if_pos hx]
  simp

/-- The rows around row `m` that satisfy `p`: those directly before it, and those from it on. -/
def around (p : α → Bool) (rows : List α) (m : Nat) : List α :=
  ((rows.take m).reverse.takeWhile p).reverse ++ (rows.drop m).takeWhile p

/-- A row is among those around row `m` when all rows in between satisfy `p` as it does. -/
theorem mem_around {p : α → Bool} {rows : List α} {m i : Nat} (hi : i < rows.length)
    (hp : ∀ j (hj : j < rows.length), (i ≤ j ∧ j ≤ m) ∨ (m ≤ j ∧ j ≤ i) → p rows[j] = true) :
    rows[i] ∈ around p rows m := by
  unfold around
  by_cases him : i < m
  · -- in front of row `m`
    apply List.mem_append_left
    rw [List.mem_reverse]
    have hsplit : rows.take m = rows.take i ++ rows[i] :: ((rows.drop (i + 1)).take (m - (i + 1))) := by
      rw [← List.take_append_drop i (rows.take m), List.take_take, Nat.min_eq_left him.le, List.drop_take,
        List.drop_eq_getElem_cons hi]
      congr 1
      rw [show m - i = m - (i + 1) + 1 by omega, List.take_succ_cons]
    rw [hsplit, List.reverse_append, List.reverse_cons, List.append_assoc]
    apply mem_takeWhile_append _ (hp i hi (Or.inl ⟨le_rfl, him.le⟩))
    intro y hy
    obtain ⟨k, hk, rfl⟩ := List.mem_iff_getElem.mp (List.mem_reverse.mp hy)
    simp only [List.length_take, List.length_drop] at hk
    rw [List.getElem_take, List.getElem_drop]
    exact hp _ (by omega) (Or.inl ⟨by omega, by omega⟩)
  · apply List.mem_append_right
    have hsplit : rows.drop m = (rows.drop m).take (i - m) ++ rows[i] :: rows.drop (i + 1) := by
      have hrest : (rows.drop m).drop (i - m) = rows.drop i := by
        rw [List.drop_drop]
        congr 1
        omega
      rw [← List.drop_eq_getElem_cons hi, ← hrest, List.take_append_drop]
    rw [hsplit]
    apply mem_takeWhile_append _ (hp i hi (Or.inr ⟨by omega, le_rfl⟩))
    intro y hy
    obtain ⟨k, hk, rfl⟩ := List.mem_iff_getElem.mp hy
    simp only [List.length_take, List.length_drop] at hk
    rw [List.getElem_take, List.getElem_drop]
    exact hp _ (by omega) (Or.inr ⟨by omega, by omega⟩)

end Guppy.LexSeq
