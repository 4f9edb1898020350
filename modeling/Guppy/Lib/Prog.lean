import Mathlib.Tactic

set_option autoImplicit false

/-! # C programs over a state

A C function that works on a device or a file and returns an error code is a program: it
takes the state, and either returns a value or fails with a code. A failing program keeps
the state it had reached, since C undoes nothing on an early return. `EStateM` is that type.

The lemmas take a program apart by its result. `bind_ok_iff` and `bind_error_iff` split a
sequence at its first step; `failIf_ok_iff` and its companion do the same for an early
return; `forLoop` has one rule for what every completed loop preserves
(`forLoop_ok_induct`), one for loops that always complete (`forLoop_total`), one for a loop
that fails (`forLoop_error`), and one for a loop that can only go one way (`forLoop_ok_iff`).
-/

namespace Guppy

/-- A program over the state `σ` with result `α`: it fails with an error code. -/
abbrev Prog (σ α : Type) := EStateM Int σ α

namespace Prog

variable {σ α β : Type}

/-- `if (c) return code;` -/
def failIf (c : Prop) [Decidable c] (code : Int) : Prog σ Unit :=
  if c then throw code else pure ()

/-- Call `x` and, when it fails, fail with `code` in the state it left
(`if (x != 0) return code;`). -/
def orFail (x : Prog σ α) (code : Int) : Prog σ α := fun s =>
  match x s with
  | .ok a s' => .ok a s'
  | .error _ s' => .error code s'

/-- `if (!c) x;` -/
def skipIf (c : Prop) [Decidable c] (x : Prog σ Unit) : Prog σ Unit := if c then pure () else x

/-- `for (i = lo; i < lo + n; ++i) a = f(i, a);` -/
def forLoop (f : Nat → α → Prog σ α) : Nat → Nat → α → Prog σ α
  | _, 0, a => pure a
  | lo, n + 1, a => f lo a >>= forLoop f (lo + 1) n

/-! ## Taking a program apart -/

theorem pure_ok_iff {a b : α} {s s' : σ} :
    (pure a : Prog σ α) s = .ok b s' ↔ b = a ∧ s' = s := by
  constructor
  · intro h
    cases h
    exact ⟨rfl, rfl⟩
  · rintro ⟨rfl, rfl⟩
    rfl

theorem pure_ne_error {a : α} {s s' : σ} {e : Int} :
    (pure a : Prog σ α) s ≠ .error e s' := by
  intro h
  cases h

theorem throw_ne_ok {e : Int} {s s' : σ} {a : α} :
    (throw e : Prog σ α) s ≠ .ok a s' := by
  intro h
  cases h

theorem throw_error_iff {e e' : Int} {s s' : σ} :
    (throw e : Prog σ α) s = .error e' s' ↔ e' = e ∧ s' = s := by
  constructor
  · intro h
    cases h
    exact ⟨rfl, rfl⟩
  · rintro ⟨rfl, rfl⟩
    rfl

theorem bind_ok_iff {x : Prog σ α} {f : α → Prog σ β} {s s'' : σ} {b : β} :
    (x >>= f) s = .ok b s'' ↔ ∃ a s', x s = .ok a s' ∧ f a s' = .ok b s'' := by
  show EStateM.bind x f s = _ ↔ _
  unfold EStateM.bind
  cases hx : x s with
  | ok a s' =>
      constructor
      · intro h
        exact ⟨a, s', rfl, h⟩
      · rintro ⟨a', s₁, h₁, h₂⟩
        cases h₁
        exact h₂
  | error e s' =>
      constructor
      · intro h
        cases h
      · rintro ⟨a', s₁, h₁, -⟩
        cases h₁

theorem bind_error_iff {x : Prog σ α} {f : α → Prog σ β} {s s'' : σ} {e : Int} :
    (x >>= f) s = .error e s'' ↔
      x s = .error e s'' ∨ ∃ a s', x s = .ok a s' ∧ f a s' = .error e s'' := by
  show EStateM.bind x f s = _ ↔ _
  unfold EStateM.bind
  cases hx : x s with
  | ok a s' =>
      constructor
      · intro h
        exact Or.inr ⟨a, s', rfl, h⟩
      · rintro (h | ⟨a', s₁, h₁, h₂⟩)
        · cases h
        · cases h₁
          exact h₂
  | error e' s' =>
      constructor
      · intro h
        cases h
        exact Or.inl rfl
      · rintro (h | ⟨a', s₁, h₁, -⟩)
        · cases h
          rfl
        · cases h₁

theorem bind_of_ok {x : Prog σ α} {f : α → Prog σ β} {s s' : σ} {a : α}
    (h : x s = .ok a s') : (x >>= f) s = f a s' := by
  show EStateM.bind x f s = _
  unfold EStateM.bind
  rw [h]

theorem bind_of_error {x : Prog σ α} {f : α → Prog σ β} {s s' : σ} {e : Int}
    (h : x s = .error e s') : (x >>= f) s = .error e s' := by
  show EStateM.bind x f s = _
  unfold EStateM.bind
  rw [h]

theorem failIf_ok_iff {c : Prop} [Decidable c] {code : Int} {s s' : σ} {u : Unit} :
    failIf c code s = .ok u s' ↔ ¬ c ∧ s' = s := by
  unfold failIf
  by_cases hc : c
  · rw [if_pos hc]
    exact ⟨fun h => absurd h throw_ne_ok, fun h => absurd hc h.1⟩
  · rw [if_neg hc, pure_ok_iff]
    exact ⟨fun h => ⟨hc, h.2⟩, fun h => ⟨rfl, h.2⟩⟩

theorem failIf_error_iff {c : Prop} [Decidable c] {code e : Int} {s s' : σ} :
    failIf c code s = .error e s' ↔ c ∧ e = code ∧ s' = s := by
  unfold failIf
  by_cases hc : c
  · rw [if_pos hc, throw_error_iff]
    exact ⟨fun h => ⟨hc, h⟩, fun h => h.2⟩
  · rw [if_neg hc]
    exact ⟨fun h => absurd h pure_ne_error, fun h => absurd h.1 hc⟩

theorem failIf_of_not {c : Prop} [Decidable c] {code : Int} {s : σ} (h : ¬ c) :
    failIf c code s = .ok () s := failIf_ok_iff.mpr ⟨h, rfl⟩

theorem failIf_of {c : Prop} [Decidable c] {code : Int} {s : σ} (h : c) :
    failIf c code s = .error code s := failIf_error_iff.mpr ⟨h, rfl, rfl⟩

theorem skipIf_of {c : Prop} [Decidable c] {x : Prog σ Unit} {s : σ} (h : c) :
    skipIf c x s = .ok () s := by
  unfold skipIf
  rw [if_pos h]
  rfl

theorem skipIf_of_not {c : Prop} [Decidable c] {x : Prog σ Unit} (h : ¬ c) : skipIf c x = x :=
  if_neg h

theorem orFail_of_ok {x : Prog σ α} {code : Int} {s s' : σ} {a : α} (h : x s = .ok a s') :
    orFail x code s = .ok a s' := by
  unfold orFail
  rw [h]

theorem orFail_ok_iff {x : Prog σ α} {code : Int} {s s' : σ} {a : α} :
    orFail x code s = .ok a s' ↔ x s = .ok a s' := by
  unfold orFail
  cases x s with
  | ok b t => rfl
  | error e t =>
      constructor
      · intro h
        cases h
      · intro h
        cases h

theorem orFail_error_iff {x : Prog σ α} {code e : Int} {s s' : σ} :
    orFail x code s = .error e s' ↔ e = code ∧ ∃ e', x s = .error e' s' := by
  unfold orFail
  cases x s with
  | ok b t =>
      constructor
      · intro h
        cases h
      · rintro ⟨-, e', h⟩
        cases h
  | error e₁ t =>
      constructor
      · intro h
        cases h
        exact ⟨rfl, e₁, rfl⟩
      · rintro ⟨rfl, e', h⟩
        cases h
        rfl

/-! ## Loops -/

theorem forLoop_zero (f : Nat → α → Prog σ α) (lo : Nat) (a : α) :
    forLoop f lo 0 a = pure a := rfl

theorem forLoop_succ (f : Nat → α → Prog σ α) (lo n : Nat) (a : α) :
    forLoop f lo (n + 1) a = f lo a >>= forLoop f (lo + 1) n := rfl

/-- What holds before a loop and is kept by every iteration that completes holds after the
loop completes. -/
theorem forLoop_ok_induct {f : Nat → α → Prog σ α} (P : Nat → α → σ → Prop) {n : Nat} :
    ∀ {lo : Nat} {a : α} {s : σ} {a' : α} {s' : σ},
      P lo a s →
      (∀ i b t b' t', lo ≤ i → i < lo + n → P i b t → f i b t = .ok b' t' → P (i + 1) b' t') →
      forLoop f lo n a s = .ok a' s' → P (lo + n) a' s' := by
  induction n with
  | zero =>
      intro lo a s a' s' h0 _ h
      obtain ⟨rfl, rfl⟩ := pure_ok_iff.mp h
      exact h0
  | succ n ih =>
      intro lo a s a' s' h0 hstep h
      obtain ⟨b, t, h₁, h₂⟩ := bind_ok_iff.mp h
      have hb := hstep lo a s b t (le_refl _) (by omega) h0 h₁
      have := ih hb (fun i c u c' u' hi hi' => hstep i c u c' u' (by omega) (by omega)) h₂
      rwa [show lo + (n + 1) = lo + 1 + n by omega]

/-- A loop whose every iteration completes and keeps `P` completes with `P`. -/
theorem forLoop_total {f : Nat → α → Prog σ α} (P : Nat → α → σ → Prop) {n : Nat} :
    ∀ {l : Nat} {a : α} {s : σ},
      P l a s →
      (∀ i b t, l ≤ i → i < l + n → P i b t →
        ∃ b' t', f i b t = .ok b' t' ∧ P (i + 1) b' t') →
      ∃ a' s', forLoop f l n a s = .ok a' s' ∧ P (l + n) a' s' := by
  induction n with
  | zero =>
      intro l a s h0 _
      exact ⟨a, s, rfl, h0⟩
  | succ n ih =>
      intro l a s h0 hstep
      obtain ⟨b, t, h₁, hb⟩ := hstep l a s (le_refl _) (by omega) h0
      obtain ⟨a', s', h₂, h'⟩ :=
        ih hb (fun i c u hi hi' => hstep i c u (by omega) (by omega))
      refine ⟨a', s', ?_, by rwa [show l + (n + 1) = l + 1 + n by omega]⟩
      exact bind_ok_iff.mpr ⟨b, t, h₁, h₂⟩

/-- A loop that fails does so in some iteration that starts with `P`. -/
theorem forLoop_error {f : Nat → α → Prog σ α} (P : Nat → α → σ → Prop) {n : Nat} :
    ∀ {lo : Nat} {a : α} {s : σ} {e : Int} {s' : σ},
      P lo a s →
      (∀ i b t b' t', lo ≤ i → i < lo + n → P i b t → f i b t = .ok b' t' → P (i + 1) b' t') →
      forLoop f lo n a s = .error e s' →
      ∃ i b t, lo ≤ i ∧ i < lo + n ∧ P i b t ∧ f i b t = .error e s' := by
  induction n with
  | zero =>
      intro lo a s e s' _ _ h
      exact absurd h pure_ne_error
  | succ n ih =>
      intro lo a s e s' h0 hstep h
      rcases bind_error_iff.mp h with h₁ | ⟨b, t, h₁, h₂⟩
      · exact ⟨lo, a, s, le_refl _, by omega, h0, h₁⟩
      · have hb := hstep lo a s b t (le_refl _) (by omega) h0 h₁
        obtain ⟨i, c, u, hi, hi', hc, hu⟩ :=
          ih hb (fun i c u c' u' hi hi' => hstep i c u c' u' (by omega) (by omega)) h₂
        exact ⟨i, c, u, by omega, by omega, hc, hu⟩

/-- A loop that fails in an iteration after `m` that completed. -/
theorem forLoop_error_of {f : Nat → α → Prog σ α} {m n : Nat} (hmn : m < n) :
    ∀ {l : Nat} {a b : α} {s t t' : σ} {e : Int}, forLoop f l m a s = .ok b t →
      f (l + m) b t = .error e t' → forLoop f l n a s = .error e t' := by
  induction m generalizing n with
  | zero =>
      intro l a b s t t' e h he
      obtain ⟨rfl, rfl⟩ := pure_ok_iff.mp h
      obtain ⟨k, rfl⟩ := Nat.exists_eq_succ_of_ne_zero (by omega : n ≠ 0)
      exact bind_of_error he
  | succ m ih =>
      intro l a b s t t' e h he
      obtain ⟨k, rfl⟩ := Nat.exists_eq_succ_of_ne_zero (by omega : n ≠ 0)
      obtain ⟨c, u, hc, hrest⟩ := bind_ok_iff.mp h
      rw [forLoop_succ, bind_of_ok hc]
      refine ih (by omega) hrest ?_
      rwa [show l + 1 + m = l + (m + 1) by omega]

/-- A loop that can only go one way: its `i`-th iteration completes exactly under `C i`, and
then it goes from `A i` and `S i` to `A (i + 1)` and `S (i + 1)`. -/
theorem forLoop_ok_iff {f : Nat → α → Prog σ α} (C : Nat → Prop) (A : Nat → α) (S : Nat → σ)
    {n : Nat} :
    ∀ {l : Nat} {a : α} {s : σ},
      (∀ i, l ≤ i → i < l + n → ∀ b t, f i (A i) (S i) = .ok b t ↔
        C i ∧ b = A (i + 1) ∧ t = S (i + 1)) →
      (forLoop f l n (A l) (S l) = .ok a s ↔
        (∀ i, l ≤ i → i < l + n → C i) ∧ a = A (l + n) ∧ s = S (l + n)) := by
  induction n with
  | zero =>
      intro l a s _
      rw [forLoop_zero, pure_ok_iff]
      exact ⟨fun h => ⟨fun i h₁ h₂ => absurd h₂ (by omega), h⟩, fun h => h.2⟩
  | succ n ih =>
      intro l a s hstep
      have hnext := fun i (h₁ : l + 1 ≤ i) (h₂ : i < l + 1 + n) =>
        hstep i (by omega) (by omega)
      rw [forLoop_succ, bind_ok_iff, show l + (n + 1) = l + 1 + n by omega]
      constructor
      · rintro ⟨b, t, h₁, h₂⟩
        obtain ⟨hc, rfl, rfl⟩ := (hstep l (le_refl _) (by omega) b t).mp h₁
        obtain ⟨hcs, hres⟩ := (@ih (l + 1) _ _ hnext).mp h₂
        refine ⟨fun i hi hi' => ?_, hres⟩
        rcases Nat.eq_or_lt_of_le hi with rfl | hlt
        · exact hc
        · exact hcs i hlt hi'
      · rintro ⟨hcs, hres⟩
        refine ⟨A (l + 1), S (l + 1), ?_, ?_⟩
        · exact (hstep l (le_refl _) (by omega) _ _).mpr ⟨hcs l (le_refl _) (by omega), rfl, rfl⟩
        · exact (@ih (l + 1) _ _ hnext).mpr ⟨fun i hi hi' => hcs i (by omega) hi', hres⟩

/-! ## Read-only steps -/

/-- A step that reads the state and may fail, and leaves the state alone. -/
def look (f : σ → Except Int α) : Prog σ α := fun s =>
  match f s with
  | .ok a => .ok a s
  | .error e => .error e s

/-- `if (c) return code;` in a read-only function. -/
def check (c : Prop) [Decidable c] (code : Int) : Except Int Unit :=
  if c then .error code else .ok ()

/-- `if (x != 0) return code;` in a read-only function. -/
def orCode (x : Except Int α) (code : Int) : Except Int α := x.mapError (fun _ => code)

theorem look_of_ok {f : σ → Except Int α} {s : σ} {a : α} (h : f s = .ok a) :
    look f s = .ok a s := by
  unfold look
  rw [h]

theorem look_of_error {f : σ → Except Int α} {s : σ} {e : Int} (h : f s = .error e) :
    look f s = .error e s := by
  unfold look
  rw [h]

theorem bind_look {f : σ → Except Int α} {g : α → Prog σ β} {s : σ} {a : α}
    {r : EStateM.Result Int σ β} (h : f s = .ok a) (hr : g a s = r) : (look f >>= g) s = r := by
  rw [← hr]
  exact bind_of_ok (look_of_ok h)

theorem of_bind_look {f : σ → Except Int α} {g : α → Prog σ β} {s : σ} {a : α}
    {P : EStateM.Result Int σ β → Prop} (h : f s = .ok a) (hP : P (g a s)) :
    P ((look f >>= g) s) := by
  rw [bind_of_ok (look_of_ok h)]
  exact hP

theorem look_ok_iff {f : σ → Except Int α} {s s' : σ} {a : α} :
    look f s = .ok a s' ↔ f s = .ok a ∧ s' = s := by
  cases h : f s with
  | ok b =>
      rw [look_of_ok h]
      refine ⟨fun h' => ?_, fun ⟨h₁, h₂⟩ => ?_⟩
      · cases h'
        exact ⟨rfl, rfl⟩
      · cases h₁
        rw [h₂]
  | error e =>
      rw [look_of_error h]
      refine ⟨fun h' => (by cases h'), fun ⟨h₁, _⟩ => (by cases h₁)⟩

theorem check_of_not {c : Prop} [Decidable c] {code : Int} (h : ¬ c) : check c code = .ok () :=
  if_neg h

theorem check_of {c : Prop} [Decidable c] {code : Int} (h : c) : check c code = .error code :=
  if_pos h

theorem check_ok_iff {c : Prop} [Decidable c] {code : Int} {u : Unit} :
    check c code = .ok u ↔ ¬ c := by
  by_cases h : c
  · rw [check_of h]
    exact ⟨fun h' => (by cases h'), fun h' => absurd h h'⟩
  · rw [check_of_not h]
    exact ⟨fun _ => h, fun _ => rfl⟩

theorem except_bind_of_ok {x : Except Int α} {f : α → Except Int β} {a : α} (h : x = .ok a) :
    (x >>= f) = f a := by
  rw [h]
  rfl

theorem except_bind_of_error {x : Except Int α} {f : α → Except Int β} {e : Int}
    (h : x = .error e) : (x >>= f) = .error e := by
  rw [h]
  rfl

theorem except_bind_ok_iff {x : Except Int α} {f : α → Except Int β} {b : β} :
    (x >>= f) = .ok b ↔ ∃ a, x = .ok a ∧ f a = .ok b := by
  cases x with
  | ok a =>
      exact ⟨fun h => ⟨a, rfl, h⟩, fun ⟨a', h₁, h₂⟩ => by cases h₁; exact h₂⟩
  | error e =>
      exact ⟨fun h => (by cases h), fun ⟨a', h₁, _⟩ => (by cases h₁)⟩

/-- A result that evaluates to something with a decidable property. -/
theorem exists_ok_of_eval {x : Except Int α} {p : α → Bool}
    (h : x.toOption.any p = true) : ∃ a, x = .ok a ∧ p a = true := by
  cases x with
  | ok a => exact ⟨a, rfl, h⟩
  | error e => cases h

theorem orCode_of_ok {x : Except Int α} {code : Int} {a : α} (h : x = .ok a) :
    orCode x code = .ok a := by
  rw [h]
  rfl

theorem orCode_ok_iff {x : Except Int α} {code : Int} {a : α} :
    orCode x code = .ok a ↔ x = .ok a := by
  cases x with
  | ok b => exact Iff.rfl
  | error e => exact ⟨fun h => (by cases h), fun h => (by cases h)⟩

/-! ## Whatever the result -/

/-- Run `x` and, when it fails, run `y` in the state it left (`x != 0 && y != 0`). -/
def orRun (x y : Prog σ α) : Prog σ α := fun s =>
  match x s with
  | .ok a s' => .ok a s'
  | .error _ s' => y s'

/-- Run `x` and take no notice of its result (`(void)x;`). -/
def ignore (x : Prog σ α) : Prog σ Unit := fun s =>
  match x s with
  | .ok _ s' => .ok () s'
  | .error _ s' => .ok () s'

/-- The state that a program leaves, whether it returned or failed. -/
def left : EStateM.Result Int σ α → σ
  | .ok _ s => s
  | .error _ s => s

/-- From a state with `P` the program ends in a state with `Q`, however it ends. -/
def Leads (P Q : σ → Prop) (x : Prog σ α) : Prop := ∀ s, P s → Q (left (x s))

section Leads

variable {P Q R : σ → Prop}

theorem leads_pure (a : α) : Leads P P (pure a : Prog σ α) := fun _ h => h

theorem leads_throw (e : Int) : Leads P P (throw e : Prog σ α) := fun _ h => h

theorem leads_failIf (c : Prop) [Decidable c] (e : Int) : Leads P P (failIf c e : Prog σ Unit) := by
  intro s h
  unfold failIf
  split
  · exact h
  · exact h

theorem Leads.weaken {x : Prog σ α} (h : Leads P Q x) (hq : ∀ s, Q s → R s) : Leads P R x :=
  fun s hs => hq _ (h s hs)

/-- A sequence whose first part keeps `P`, from which the second leads to `Q`. -/
theorem leads_bind {x : Prog σ α} {f : α → Prog σ β} (hx : Leads P P x)
    (hf : ∀ a, Leads P Q (f a)) (hpq : ∀ s, P s → Q s) : Leads P Q (x >>= f) := by
  intro s hs
  have hs' := hx s hs
  cases hxs : x s with
  | ok a s' =>
      rw [bind_of_ok hxs]
      rw [hxs] at hs'
      exact hf a s' hs'
  | error e s' =>
      rw [bind_of_error hxs]
      rw [hxs] at hs'
      exact hpq s' hs'

theorem leads_orRun {x y : Prog σ α} (hx : Leads P P x) (hy : Leads P P y) :
    Leads P P (orRun x y) := by
  intro s hs
  have hs' := hx s hs
  unfold orRun
  cases hxs : x s with
  | ok a s' =>
      rw [hxs] at hs'
      exact hs'
  | error e s' =>
      rw [hxs] at hs'
      exact hy s' hs'

theorem leads_ignore {x : Prog σ α} (hx : Leads P Q x) : Leads P Q (ignore x) := by
  intro s hs
  have hs' := hx s hs
  unfold ignore
  cases hxs : x s with
  | ok a s' =>
      rw [hxs] at hs'
      exact hs'
  | error e s' =>
      rw [hxs] at hs'
      exact hs'

/-- Running a program on each element of a list. -/
def forEach {γ : Type} (f : γ → Prog σ Unit) : List γ → Prog σ Unit
  | [] => pure ()
  | c :: cs => f c >>= fun _ => forEach f cs

theorem leads_forEach {γ : Type} {f : γ → Prog σ Unit} {cs : List γ}
    (h : ∀ c ∈ cs, Leads P P (f c)) : Leads P P (forEach f cs) := by
  induction cs with
  | nil => exact leads_pure ()
  | cons c cs ih =>
      refine leads_bind (h c (List.mem_cons_self ..)) (fun _ => ?_) (fun _ hs => hs)
      exact ih (fun d hd => h d (List.mem_cons_of_mem _ hd))

end Leads

/-! ## One condition for a return, one for a failure -/

/-- A result that is a return in a state with `Q`, or a failure in a state with `E`. -/
def Ends (Q E : σ → Prop) : EStateM.Result Int σ α → Prop
  | .ok _ s => Q s
  | .error _ s => E s

section Ends

variable {Q E : σ → Prop}

theorem Ends.mono {Q' E' : σ → Prop} {r : EStateM.Result Int σ α} (h : Ends Q E r)
    (hq : ∀ s, Q s → Q' s) (he : ∀ s, E s → E' s) : Ends Q' E' r := by
  cases r with
  | ok a s => exact hq s h
  | error e s => exact he s h

theorem ends_bind (P : σ → Prop) {x : Prog σ α} {f : α → Prog σ β} {s : σ} (hx : Ends P E (x s))
    (hf : ∀ a t, P t → Ends Q E (f a t)) : Ends Q E ((x >>= f) s) := by
  cases hxs : x s with
  | ok a t =>
      rw [bind_of_ok hxs]
      rw [hxs] at hx
      exact hf a t hx
  | error e t =>
      rw [bind_of_error hxs]
      rw [hxs] at hx
      exact hx

theorem ends_failIf {c : Prop} [Decidable c] {e : Int} {s : σ} (hq : ¬ c → Q s) (he : c → E s) :
    Ends Q E (failIf c e s) := by
  unfold failIf
  split
  · rename_i hc
    exact he hc
  · rename_i hc
    exact hq hc

/-- A loop over a list: `P` says what holds when the elements of a first part are done. -/
theorem ends_forEach {γ : Type} {f : γ → Prog σ Unit} (P : List γ → σ → Prop) {cs : List γ} :
    ∀ {pre : List γ} {s : σ}, P pre s →
      (∀ a c b t, pre ++ cs = a ++ c :: b → P a t → Ends (P (a ++ [c])) E (f c t)) →
      Ends (P (pre ++ cs)) E (forEach f cs s) := by
  induction cs with
  | nil =>
      intro pre s h _
      rw [List.append_nil]
      exact h
  | cons c cs ih =>
      intro pre s h hstep
      refine ends_bind _ (hstep pre c cs s rfl h) (fun _ t ht => ?_)
      have := ih ht (fun a d b u hab => hstep a d b u (by rw [← hab, List.append_assoc]; rfl))
      rwa [List.append_assoc] at this

end Ends

end Prog

end Guppy
