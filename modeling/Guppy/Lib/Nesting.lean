import Mathlib.Data.List.Induction
import Mathlib.Data.List.Infix

set_option autoImplicit false

/-! # Nesting

A scanner counts how deep it is in a sequence of lines: some lines take it down one level and others
back, and on the top level the latter do nothing. The counter is compared with blocks as they are
meant: a block is open from the line that opens it to the one that closes it. -/

namespace Guppy.Nesting

variable {α : Type} (up down : α → Bool)

/-! ## The counter -/

/-- One line. -/
def step (d : Nat) (x : α) : Nat := if up x = true then d + 1 else if down x = true then d - 1 else d

def depth (xs : List α) : Nat := xs.foldl (step up down) 0

/-- Some lines at the end go further down than back. -/
def Raised (xs : List α) : Prop := ∃ b, b <:+ xs ∧ b.countP down < b.countP up

theorem depth_concat (xs : List α) (x : α) : depth up down (xs ++ [x]) = step up down (depth up down xs) x := by
  simp [depth, List.foldl_append]

/-- The end of a sequence with one more line. -/
theorem suffix_concat_iff {b xs : List α} {x : α} : b <:+ xs ++ [x] ↔ b = [] ∨ ∃ c, c <:+ xs ∧ b = c ++ [x] := by
  constructor
  · intro h
    rcases List.eq_nil_or_concat b with rfl | ⟨c, y, rfl⟩
    · exact Or.inl rfl
    · obtain ⟨a, ha⟩ := h
      rw [List.concat_eq_append, ← List.append_assoc] at ha
      obtain ⟨hxs, hy⟩ := List.append_inj' ha rfl
      cases hy
      exact Or.inr ⟨c, ⟨a, hxs⟩, List.concat_eq_append⟩
  · rintro (rfl | ⟨c, ⟨a, rfl⟩, rfl⟩)
    · exact List.nil_suffix
    · exact ⟨a, by simp⟩

section

variable {up down} (hdisjoint : ∀ x, up x = true → down x = false)

include hdisjoint

theorem countP_le_depth (xs : List α) : ∀ b, b <:+ xs → b.countP up ≤ depth up down xs + b.countP down := by
  induction xs using List.reverseRecOn with
  | nil =>
      intro b hb
      obtain rfl := List.suffix_nil.mp hb
      simp
  | append_singleton xs x ih =>
      intro b hb
      rcases suffix_concat_iff.mp hb with rfl | ⟨c, hc, rfl⟩
      · simp
      · have hle := ih c hc
        rw [depth_concat, step, List.countP_append, List.countP_append, List.countP_singleton, List.countP_singleton]
        by_cases hup : up x = true
        · simp only [hup, hdisjoint x hup, if_true]
          omega
        · by_cases hdown : down x = true
          · simp only [hup, hdown, if_true]
            simp
            omega
          · simp only [hup, hdown]
            simpa using hle

/-- The counter is reached by some lines at the end. -/
theorem exists_depth (xs : List α) : ∃ b, b <:+ xs ∧ b.countP up = depth up down xs + b.countP down := by
  induction xs using List.reverseRecOn with
  | nil => exact ⟨[], List.nil_suffix, rfl⟩
  | append_singleton xs x ih =>
      obtain ⟨b, hb, hcount⟩ := ih
      have hlonger : b ++ [x] <:+ xs ++ [x] := suffix_concat_iff.mpr (Or.inr ⟨b, hb, rfl⟩)
      by_cases hup : up x = true
      · refine ⟨b ++ [x], hlonger, ?_⟩
        simp only [depth_concat, step, List.countP_append, List.countP_singleton, hup, hdisjoint x hup, if_true]
        simp
        omega
      · by_cases hdown : down x = true
        · -- on the top level the empty end does
          by_cases htop : depth up down xs = 0
          · refine ⟨[], List.nil_suffix, ?_⟩
            simp [depth_concat, step, hup, hdown, htop]
          · refine ⟨b ++ [x], hlonger, ?_⟩
            simp only [depth_concat, step, List.countP_append, List.countP_singleton, hup, hdown, if_true]
            simp
            omega
        · refine ⟨b ++ [x], hlonger, ?_⟩
          simp only [depth_concat, step, List.countP_append, List.countP_singleton, hup, hdown]
          simpa using hcount

theorem depth_eq_zero_iff (xs : List α) : depth up down xs = 0 ↔ ¬ Raised up down xs := by
  constructor
  · rintro hzero ⟨b, hb, hcount⟩
    have := countP_le_depth hdisjoint xs b hb
    omega
  · intro h
    obtain ⟨b, hb, hcount⟩ := exists_depth hdisjoint xs
    by_contra hne
    exact h ⟨b, hb, by omega⟩

end

/-! ## Blocks -/

variable (opens : α → Bool)

/-- The block that is open before these lines is open behind them. -/
def StaysOpen (xs : List α) : Prop := ∀ c, c <+: xs → c.countP down ≤ c.countP opens

instance (xs : List α) : Decidable (StaysOpen down opens xs) :=
  decidable_of_iff (∀ c ∈ xs.inits, c.countP down ≤ c.countP opens) (by simp only [StaysOpen, List.mem_inits])

/-- Behind these lines a block is open that a marked line opened. -/
def Inside (marked : α → Bool) (xs : List α) : Prop :=
  ∃ a x b, xs = a ++ x :: b ∧ marked x = true ∧ opens x = true ∧ StaysOpen down opens b

variable {up down opens}

/-- Where every line that is counted opens a block, the counter is up only within these blocks. -/
theorem inside_of_raised {xs : List α} (hopens : ∀ x ∈ xs, up x = true → opens x = true) (h : Raised up down xs) :
    Inside down opens up xs := by
  obtain ⟨b, hb, hcount⟩ := h
  obtain ⟨n, hn⟩ : ∃ n, b.length ≤ n := ⟨_, Nat.le_refl _⟩
  -- the shortest end that goes further down than back starts with the line in question
  induction n generalizing b with
  | zero =>
      have hnil : b = [] := List.length_eq_zero_iff.mp (by omega)
      subst hnil
      simp at hcount
  | succ n ih =>
      cases b with
      | nil => simp at hcount
      | cons x b =>
          rw [List.length_cons] at hn
          have hb' : b <:+ xs := (List.suffix_cons x b).trans hb
          by_cases hshorter : ∃ c, c <:+ b ∧ c.countP down < c.countP up
          · obtain ⟨c, hc, hlt⟩ := hshorter
            exact ih c (hc.trans hb') hlt (by have := hc.length_le; omega)
          · have hends : ∀ c, c <:+ b → c.countP up ≤ c.countP down := by
              intro c hc
              by_contra hlt
              exact hshorter ⟨c, hc, by omega⟩
            have hall := hends b (List.suffix_refl b)
            rw [List.countP_cons, List.countP_cons] at hcount
            have hx : up x = true := by
              by_contra hx
              simp only [hx] at hcount
              simp at hcount
              omega
            simp only [hx, if_true] at hcount
            obtain ⟨a, rfl⟩ := hb
            refine ⟨a, x, b, rfl, hx, hopens x (by simp) hx, ?_⟩
            rintro c ⟨e, rfl⟩
            have he := hends e (List.suffix_append c e)
            have hmono : c.countP up ≤ c.countP opens :=
              List.countP_mono_left (fun y hy hup => hopens y (by simp [hy]) hup)
            rw [List.countP_append, List.countP_append] at hcount
            omega

/-- Where nothing else is opened within the blocks that are counted, the counter is up there. -/
theorem raised_of_inside {xs : List α} (hdisjoint : ∀ x, up x = true → down x = false)
    (hflat : ∀ a x, a ++ [x] <+: xs → Inside down opens up a → opens x = true → up x = true)
    (h : Inside down opens up xs) : Raised up down xs := by
  obtain ⟨a, x, b, rfl, hx, hopen, hstays⟩ := h
  -- within the block all that opens is counted
  have hcounted : ∀ y ∈ b, opens y = true → up y = true := by
    intro y hy
    obtain ⟨c, d, rfl⟩ := List.append_of_mem hy
    refine hflat (a ++ x :: c) y ⟨d, by simp⟩ ⟨a, x, c, rfl, hx, hopen, fun e he => ?_⟩
    exact hstays e (he.trans (List.prefix_append c _))
  refine ⟨x :: b, List.suffix_append a _, ?_⟩
  have hle := hstays b (List.prefix_refl b)
  have hmono : b.countP opens ≤ b.countP up := List.countP_mono_left hcounted
  rw [List.countP_cons_of_neg (by simp [hdisjoint x hx]), List.countP_cons_of_pos hx]
  omega

end Guppy.Nesting
