import Mathlib.Tactic

set_option autoImplicit false

/-! # C programs with checked accesses

A C function returns, or it reads or writes where nothing is, or it runs on and on. A program here has
these three ends: a result or a return code, a fault, and the end of its fuel. `Safe` is the triple
that rules the last two out. It is the caller's part to say which return codes mean failure; what
holds of the state behind a failure is the same for a whole program and stands in a parameter.
-/

namespace Guppy

/-- Why a program stops. -/
inductive Stop
  | code (e : Int)
  | fault
  | fuel
  deriving DecidableEq

abbrev Checked (σ α : Type) := EStateM Stop σ α

namespace Checked

variable {σ α β γ : Type}

/-! ## Programs -/

/-- `return code;` -/
def fail (code : Int) : Checked σ α := throw (.code code)

/-- `if (c) return code;` -/
def failIf (c : Prop) [Decidable c] (code : Int) : Checked σ Unit := if c then fail code else pure ()

/-- What must hold where the C code has no check. -/
def require (c : Prop) [Decidable c] : Checked σ Unit := if c then pure () else throw .fault

/-- An element of an array. -/
def index (xs : List α) (i : Nat) : Checked σ α :=
  match xs[i]? with
  | some a => pure a
  | none => throw .fault

/-- An array on the stack, parts of which may not have been written yet. -/
abbrev Table := List (Option Nat)

/-- An element of such an array that has been written. -/
def fetch (xs : Table) (i : Nat) : Checked σ Nat :=
  match xs[i]? with
  | some (some a) => pure a
  | _ => throw .fault

def store (xs : Table) (i v : Nat) : Checked σ Table :=
  if i < xs.length then pure (xs.set i (some v)) else throw .fault

/-- `a - b` for numbers without sign. -/
def sub (a b : Nat) : Checked σ Nat := if b ≤ a then pure (a - b) else throw .fault

/-- `for (i = lo; i < lo + n; ++i) a = f(i, a);` -/
def forLoop (f : Nat → α → Checked σ α) : Nat → Nat → α → Checked σ α
  | _, 0, a => pure a
  | lo, n + 1, a => f lo a >>= forLoop f (lo + 1) n

/-- A loop that goes on while its body says so. -/
def loop (body : α → Checked σ (α ⊕ β)) : Nat → α → Checked σ β
  | 0, _ => throw .fuel
  | fuel + 1, a => body a >>= fun r =>
      match r with
      | .inl a => loop body fuel a
      | .inr b => pure b

/-! ## Triples -/

/-- The program ends with `Q`, or with a return code and `E`. -/
def Safe (E : σ → Prop) (x : Checked σ α) (s : σ) (Q : α → σ → Prop) : Prop :=
  match x s with
  | .ok a t => Q a t
  | .error (.code _) t => E t
  | .error _ _ => False

variable {E : σ → Prop} {s : σ} {Q R : α → σ → Prop}

theorem Safe.pure {a : α} (h : Q a s) : Safe E (pure a) s Q := h

theorem Safe.fail {code : Int} (h : E s) : Safe E (fail code) s Q := h

theorem Safe.bind {x : Checked σ α} {f : α → Checked σ β} {Q : β → σ → Prop} (hx : Safe E x s R)
    (hf : ∀ a t, R a t → Safe E (f a) t Q) : Safe E (x >>= f) s Q := by
  unfold Safe at hx ⊢
  show match EStateM.bind x f s with
    | .ok a t => Q a t
    | .error (.code _) t => E t
    | .error _ _ => False
  unfold EStateM.bind
  cases h : x s with
  | ok a t =>
      rw [h] at hx
      exact hf a t hx
  | error e t =>
      rw [h] at hx
      cases e with
      | code c => exact hx
      | fault => exact hx
      | fuel => exact hx

/-- The first of two steps, when what it leaves is what the second needs. -/
theorem Safe.step {x : Checked σ α} {f : α → Checked σ β} {Q : β → σ → Prop}
    (h : Safe E x s (fun a t => Safe E (f a) t Q)) : Safe E (x >>= f) s Q := Safe.bind h (fun _ _ h => h)

theorem Safe.mono {x : Checked σ α} (hx : Safe E x s R) (h : ∀ a t, R a t → Q a t) : Safe E x s Q := by
  unfold Safe at hx ⊢
  cases hr : x s with
  | ok a t =>
      rw [hr] at hx
      exact h a t hx
  | error e t =>
      rw [hr] at hx
      cases e with
      | code c => exact hx
      | fault => exact hx
      | fuel => exact hx

/-- What holds at the end for two reasons. -/
theorem Safe.both {E' : σ → Prop} {x : Checked σ α} (h : Safe E x s Q) (h' : Safe E' x s R) :
    Safe E x s (fun a t => Q a t ∧ R a t) := by
  unfold Safe at h h' ⊢
  cases hx : x s with
  | ok a t =>
      rw [hx] at h h'
      exact ⟨h, h'⟩
  | error e t =>
      rw [hx] at h
      cases e with
      | code c => exact h
      | fault => exact h
      | fuel => exact h

/-- What is left by a failure may be of no interest. -/
theorem Safe.weaken {x : Checked σ α} (h : Safe E x s Q) : Safe (fun _ => True) x s Q := by
  unfold Safe at h ⊢
  cases hx : x s with
  | ok a t =>
      rw [hx] at h
      exact h
  | error e t =>
      rw [hx] at h
      cases e with
      | code c => trivial
      | fault => exact h
      | fuel => exact h

/-- A program that has a result. -/
theorem Safe.of_ok {x : Checked σ α} {a : α} {t : σ} (h : Safe E x s Q) (hx : x s = .ok a t) : Q a t := by
  unfold Safe at h
  rw [hx] at h
  exact h

/-- A program that cannot fail has a result. -/
theorem Safe.result {x : Checked σ α} (h : Safe (fun _ => False) x s Q) : ∃ a t, x s = .ok a t ∧ Q a t := by
  unfold Safe at h
  cases hx : x s with
  | ok a t =>
      rw [hx] at h
      exact ⟨a, t, rfl, h⟩
  | error e t =>
      rw [hx] at h
      cases e with
      | code c => exact h.elim
      | fault => exact h.elim
      | fuel => exact h.elim

theorem Safe.failIf {c : Prop} [Decidable c] {code : Int} {Q : Unit → σ → Prop} (he : c → E s) (h : ¬ c → Q () s) :
    Safe E (failIf c code) s Q := by
  unfold Checked.failIf
  split
  · rename_i hc
    exact Safe.fail (he hc)
  · rename_i hc
    exact h hc

theorem Safe.require {c : Prop} [Decidable c] {Q : Unit → σ → Prop} (hc : c) (h : Q () s) : Safe E (require c) s Q := by
  unfold Checked.require
  rw [if_pos hc]
  exact h

theorem Safe.index {xs : List α} {i : Nat} (hi : i < xs.length) (h : Q xs[i] s) : Safe E (index xs i) s Q := by
  unfold Checked.index
  rw [List.getElem?_eq_getElem hi]
  exact h

theorem Safe.fetch {xs : Table} {i v : Nat} {Q : Nat → σ → Prop} (hi : xs[i]? = some (some v)) (h : Q v s) :
    Safe E (fetch xs i) s Q := by
  unfold Checked.fetch
  rw [hi]
  exact h

theorem Safe.store {xs : Table} {i v : Nat} {Q : Table → σ → Prop} (hi : i < xs.length) (h : Q (xs.set i (some v)) s) :
    Safe E (store xs i v) s Q := by
  unfold Checked.store
  rw [if_pos hi]
  exact h

theorem Safe.sub {a b : Nat} {Q : Nat → σ → Prop} (hle : b ≤ a) (h : Q (a - b) s) : Safe E (sub a b) s Q := by
  unfold Checked.sub
  rw [if_pos hle]
  exact h

theorem Safe.get {Q : σ → σ → Prop} (h : Q s s) : Safe E get s Q := h

theorem Safe.modify {f : σ → σ} {Q : Unit → σ → Prop} (h : Q () (f s)) : Safe E (modify f) s Q := h

/-- What every iteration keeps. -/
theorem Safe.forLoop {f : Nat → α → Checked σ α} (P : Nat → α → σ → Prop) {n : Nat} : ∀ {l : Nat} {a : α} {s : σ},
    P l a s → (∀ i b t, l ≤ i → i < l + n → P i b t → Safe E (f i b) t (P (i + 1))) →
    Safe E (forLoop f l n a) s (P (l + n)) := by
  induction n with
  | zero => exact fun h _ => h
  | succ n ih =>
      intro l a s h hstep
      refine Safe.bind (hstep l a s (Nat.le_refl l) (by omega) h) (fun b t hb => ?_)
      rw [show l + (n + 1) = l + 1 + n by omega]
      exact ih hb (fun i c u hi hi' => hstep i c u (by omega) (by omega))

/-- A loop with an invariant and a measure that its fuel covers. -/
theorem Safe.loop {body : α → Checked σ (α ⊕ β)} {Q : β → σ → Prop} (I : α → σ → Prop) (m : α → σ → Nat)
    (hbody : ∀ a s, I a s → Safe E (body a) s (fun r t =>
      match r with
      | .inl a' => I a' t ∧ m a' t < m a s
      | .inr b => Q b t)) {fuel : Nat} : ∀ {a : α} {s : σ}, I a s → m a s < fuel → Safe E (loop body fuel a) s Q := by
  induction fuel with
  | zero => exact fun _ h => absurd h (Nat.not_lt_zero _)
  | succ fuel ih =>
      intro a s h hm
      refine Safe.bind (hbody a s h) (fun r t hr => ?_)
      cases r with
      | inl a' => exact ih hr.1 (by have := hr.2; omega)
      | inr b => exact hr

-- a triple is not to be computed
attribute [irreducible] Safe

end Checked

end Guppy
