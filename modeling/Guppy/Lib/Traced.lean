import Mathlib.Tactic

set_option autoImplicit false

/-! # Computations with a trace

A computation with a result and a list of events: accesses to memory, arithmetic steps, writes. `Every`
says that all events have a property; over a sequence it is that of both parts (`every_bind`).
-/

namespace Guppy

structure Traced (ε α : Type) where
  value : α
  events : List ε

namespace Traced

variable {ε α β : Type}

instance : Monad (Traced ε) where
  pure a := ⟨a, []⟩
  bind t f := ⟨(f t.value).value, t.events ++ (f t.value).events⟩

/-- An event. -/
def tell (e : ε) : Traced ε Unit := ⟨(), [e]⟩

/-- A computation that is made under a condition only. -/
def orPure (c : Prop) [Decidable c] (t : Traced ε α) (a : α) : Traced ε α := if c then t else pure a

/-- All events have a property. -/
def Every (P : ε → Prop) (t : Traced ε α) : Prop := ∀ e ∈ t.events, P e

@[simp] theorem value_pure (a : α) : (pure a : Traced ε α).value = a := rfl

@[simp] theorem value_bind (t : Traced ε α) (f : α → Traced ε β) : (t >>= f).value = (f t.value).value := rfl

@[simp] theorem value_ite (c : Prop) [Decidable c] (t u : Traced ε α) :
    (if c then t else u).value = if c then t.value else u.value := by
  split <;> rfl

@[simp] theorem value_orPure (c : Prop) [Decidable c] (t : Traced ε α) (a : α) :
    (orPure c t a).value = if c then t.value else a := value_ite c t (pure a)

variable {P : ε → Prop}

@[simp] theorem every_pure (a : α) : (pure a : Traced ε α).Every P := fun e he => absurd he List.not_mem_nil

@[simp] theorem every_bind (t : Traced ε α) (f : α → Traced ε β) :
    (t >>= f).Every P ↔ t.Every P ∧ (f t.value).Every P := by
  constructor
  · intro h
    exact ⟨fun e he => h e (List.mem_append_left _ he), fun e he => h e (List.mem_append_right _ he)⟩
  · rintro ⟨ht, hf⟩ e he
    rcases List.mem_append.mp he with he | he
    · exact ht e he
    · exact hf e he

theorem every_orPure {c : Prop} [Decidable c] {t : Traced ε α} (a : α) (h : c → t.Every P) : (orPure c t a).Every P := by
  unfold orPure
  split
  · rename_i hc
    exact h hc
  · exact every_pure a

@[simp] theorem every_tell (e : ε) : (tell e : Traced ε Unit).Every P ↔ P e := by
  simp [Every, tell]

end Traced

end Guppy
