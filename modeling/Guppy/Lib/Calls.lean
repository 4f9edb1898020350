import Mathlib.Data.Fintype.EquivFin
import Mathlib.Data.Set.Finite.Basic
import Mathlib.Logic.Relation
import Mathlib.Order.WellFounded

set_option autoImplicit false

/-! # Procedures that call each other

The body of a procedure is a list of steps: calls of other procedures, and failures. A call that fails ends the body, and
so does a failure. Where only finitely many procedures can be called, a procedure ends exactly when none that it
reaches leads back to itself (`ends_iff`).
-/

namespace Guppy.Calls

variable {α : Type}

inductive Step (α : Type)
  | call (b : α)
  | fail
  deriving DecidableEq

/-- The steps of a body, with what a call returns: success, a failure, or nothing within the fuel. -/
def runSteps (sub : α → Option Bool) : List (Step α) → Option Bool
  | [] => some true
  | .fail :: _ => some false
  | .call b :: l => (sub b).bind fun r => if r then runSteps sub l else some false

/-- A procedure with calls nested at most so deep. -/
def run (body : α → List (Step α)) : Nat → α → Option Bool
  | 0, _ => none
  | n + 1, a => runSteps (run body n) (body a)

/-- The procedure ends. -/
def Ends (body : α → List (Step α)) (a : α) : Prop := ∃ n r, run body n a = some r

/-- Nothing in the body fails, nor in what it calls. -/
inductive Succeeds (body : α → List (Step α)) : α → Prop
  | of_calls {a : α} (hfail : .fail ∉ body a) (hcall : ∀ b, .call b ∈ body a → Succeeds body b) : Succeeds body a

/-- The body of `a` comes to a call of `b`: the steps before it are calls that succeed. -/
def Calls (body : α → List (Step α)) (a b : α) : Prop :=
  ∃ pre post, body a = pre ++ .call b :: post ∧ ∀ s ∈ pre, ∃ c, s = .call c ∧ Succeeds body c

variable {body : α → List (Step α)} {a b : α} {n m : Nat} {r : Bool}

/-- One body behind another. -/
theorem runSteps_append (sub : α → Option Bool) (l l' : List (Step α)) :
    runSteps sub (l ++ l') = (runSteps sub l).bind fun r => if r then runSteps sub l' else some false := by
  induction l with
  | nil => rfl
  | cons s l ih =>
      cases s with
      | fail => rfl
      | call b =>
          rw [List.cons_append, runSteps, runSteps, Option.bind_assoc]
          refine congrArg (Option.bind (sub b)) (funext fun q => ?_)
          cases q with
          | true => exact ih
          | false => rfl

/-! ## Fuel -/

theorem runSteps_mono {sub sub' : α → Option Bool} (h : ∀ c r, sub c = some r → sub' c = some r) (l : List (Step α)) :
    ∀ {r : Bool}, runSteps sub l = some r → runSteps sub' l = some r := by
  induction l with
  | nil => exact fun hr => hr
  | cons s l ih =>
      intro r hr
      cases s with
      | fail => exact hr
      | call b =>
          rw [runSteps] at hr ⊢
          obtain ⟨q, hq, hrest⟩ := Option.bind_eq_some_iff.mp hr
          rw [h b q hq, Option.bind_some]
          cases q with
          | true => exact ih hrest
          | false => exact hrest

theorem run_succ (n : Nat) : ∀ {a : α} {r : Bool}, run body n a = some r → run body (n + 1) a = some r := by
  induction n with
  | zero => exact fun h => by cases h
  | succ n ih => exact fun h => runSteps_mono (fun _ _ hc => ih hc) _ h

theorem run_mono (h : run body n a = some r) (hle : n ≤ m) : run body m a = some r := by
  induction hle with
  | refl => exact h
  | step _ ih => exact run_succ _ ih

/-- Two runs of a procedure return the same. -/
theorem run_unique {q : Bool} (h : run body n a = some r) (h' : run body m a = some q) : r = q := by
  have hr := run_mono h (Nat.le_max_left n m)
  have hq := run_mono h' (Nat.le_max_right n m)
  exact Option.some.inj (hr.symm.trans hq)

/-! ## Success -/

theorem runSteps_true_iff {sub : α → Option Bool} {l : List (Step α)} :
    runSteps sub l = some true ↔ ∀ s ∈ l, ∃ c, s = .call c ∧ sub c = some true := by
  induction l with
  | nil => exact iff_of_true rfl fun s hs => absurd hs List.not_mem_nil
  | cons s l ih =>
      rw [List.forall_mem_cons, ← ih]
      cases s with
      | fail => exact iff_of_false nofun fun h => by cases h.1.choose_spec.1
      | call b =>
          rw [runSteps]
          constructor
          · intro h
            obtain ⟨q, hq, hrest⟩ := Option.bind_eq_some_iff.mp h
            cases q with
            | true => exact ⟨⟨b, rfl, hq⟩, hrest⟩
            | false => cases hrest
          · rintro ⟨⟨c, hc, hsub⟩, hrest⟩
            cases hc
            rw [hsub, Option.bind_some, if_pos rfl, hrest]

/-- Finitely many calls that succeed do so within one fuel. -/
theorem exists_fuel {l : List (Step α)} (h : ∀ s ∈ l, ∃ c, s = .call c ∧ ∃ n, run body n c = some true) :
    ∃ n, ∀ s ∈ l, ∃ c, s = .call c ∧ run body n c = some true := by
  induction l with
  | nil => exact ⟨0, fun s hs => absurd hs List.not_mem_nil⟩
  | cons s l ih =>
      obtain ⟨⟨c, hc, k, hk⟩, hl⟩ := List.forall_mem_cons.mp h
      obtain ⟨m, hm⟩ := ih hl
      refine ⟨max k m, List.forall_mem_cons.mpr ⟨⟨c, hc, run_mono hk (Nat.le_max_left k m)⟩, fun s hs => ?_⟩⟩
      obtain ⟨d, hd, hrun⟩ := hm s hs
      exact ⟨d, hd, run_mono hrun (Nat.le_max_right k m)⟩

theorem succeeds_iff : Succeeds body a ↔ ∃ n, run body n a = some true := by
  constructor
  · intro h
    induction h with
    | @of_calls a hfail _ ih =>
        obtain ⟨n, hn⟩ := @exists_fuel α body (body a) fun s hs => by
          cases s with
          | fail => exact absurd hs hfail
          | call c => exact ⟨c, rfl, ih c hs⟩
        exact ⟨n + 1, runSteps_true_iff.mpr hn⟩
  · rintro ⟨n, h⟩
    induction n generalizing a with
    | zero => cases h
    | succ n ih =>
        have hall := runSteps_true_iff.mp h
        refine .of_calls (fun hfail => ?_) fun b hb => ?_
        · obtain ⟨c, hc, -⟩ := hall _ hfail
          cases hc
        · obtain ⟨c, hc, hrun⟩ := hall _ hb
          cases hc
          exact ih hrun

/-! ## Calls of a procedure that ends -/

/-- Steps that come to a call and end have made the call. -/
theorem runSteps_call {pre post : List (Step α)} (hpre : ∀ s ∈ pre, ∃ c, s = .call c ∧ Succeeds body c) :
    ∀ {r : Bool}, runSteps (run body n) (pre ++ .call b :: post) = some r → ∃ q, run body n b = some q := by
  induction pre with
  | nil =>
      intro r h
      obtain ⟨q, hq, -⟩ := Option.bind_eq_some_iff.mp h
      exact ⟨q, hq⟩
  | cons s pre ih =>
      intro r h
      obtain ⟨c, rfl, hsucc⟩ := hpre s (by simp)
      obtain ⟨m, hc⟩ := succeeds_iff.mp hsucc
      rw [List.cons_append, runSteps] at h
      obtain ⟨q, hq, hrest⟩ := Option.bind_eq_some_iff.mp h
      rw [run_unique hq hc, if_pos rfl] at hrest
      exact ih (fun s hs => hpre s (by simp [hs])) hrest

theorem run_called (h : run body n a = some r) (hcall : Calls body a b) : ∃ m q, m < n ∧ run body m b = some q := by
  obtain ⟨pre, post, hbody, hpre⟩ := hcall
  cases n with
  | zero => cases h
  | succ n =>
      rw [run, hbody] at h
      obtain ⟨q, hq⟩ := runSteps_call hpre h
      exact ⟨n, q, Nat.lt_succ_self n, hq⟩

theorem run_reached (hreach : Relation.TransGen (Calls body) a b) : ∀ {n : Nat} {r : Bool}, run body n a = some r →
    ∃ m q, m < n ∧ run body m b = some q := by
  induction hreach with
  | single hcall => exact fun h => run_called h hcall
  | tail _ hcall ih =>
      intro n r h
      obtain ⟨m, q, hm, hq⟩ := ih h
      obtain ⟨k, p, hk, hp⟩ := run_called hq hcall
      exact ⟨k, p, hk.trans hm, hp⟩

/-- A procedure that leads back to itself needs more fuel than any amount. -/
theorem run_cycle (hcycle : Relation.TransGen (Calls body) a a) (n : Nat) : run body n a = none := by
  induction n using Nat.strong_induction_on with
  | _ n ih =>
      cases h : run body n a with
      | none => rfl
      | some r =>
          obtain ⟨m, q, hm, hq⟩ := run_reached hcycle h
          rw [ih m hm] at hq
          cases hq

/-! ## Ends -/

/-- The rest of a body ends when all that it comes to call end. -/
theorem runSteps_ends (hcalls : ∀ b, Calls body a b → Ends body b) (l : List (Step α)) : ∀ {pre : List (Step α)},
    body a = pre ++ l → (∀ s ∈ pre, ∃ c, s = .call c ∧ Succeeds body c) →
      ∃ n r, runSteps (run body n) l = some r := by
  induction l with
  | nil => exact fun _ _ => ⟨0, true, rfl⟩
  | cons s l ih =>
      intro pre hbody hpre
      cases s with
      | fail => exact ⟨0, false, rfl⟩
      | call b =>
          obtain ⟨n, q, hq⟩ := hcalls b ⟨pre, l, hbody, hpre⟩
          cases q with
          | false => exact ⟨n, false, by rw [runSteps, hq]; rfl⟩
          | true =>
              obtain ⟨m, r, hr⟩ := @ih (pre ++ [.call b]) (by simpa using hbody) fun s hs => by
                rcases List.mem_append.mp hs with hs | hs
                · exact hpre s hs
                · exact ⟨b, List.mem_singleton.mp hs, succeeds_iff.mpr ⟨n, hq⟩⟩
              refine ⟨max n m, r, ?_⟩
              rw [runSteps, run_mono hq (Nat.le_max_left n m), Option.bind_some, if_pos rfl]
              exact runSteps_mono (fun c p hp => run_mono hp (Nat.le_max_right n m)) l hr

theorem ends_of_calls (hcalls : ∀ b, Calls body a b → Ends body b) : Ends body a := by
  obtain ⟨n, r, h⟩ := runSteps_ends hcalls (body a) (List.nil_append _).symm (fun s hs => absurd hs List.not_mem_nil)
  exact ⟨n + 1, r, h⟩

theorem calls_mem (h : Calls body a b) : .call b ∈ body a := by
  obtain ⟨pre, post, hbody, -⟩ := h
  rw [hbody]
  simp

/-- Over finitely many procedures an order of calls without cycles is well founded: the calls, one behind the other,
are transitive. -/
theorem wellFounded_of_acyclic {β : Type} [Finite β] {r : β → β → Prop} (h : ∀ x, ¬ Relation.TransGen r x x) :
    WellFounded (Function.swap r) := by
  let later : β → β → Prop := fun y x => Relation.TransGen r x y
  have htrans : IsTrans β later := ⟨fun z y x hzy hyx => Relation.TransGen.trans hyx hzy⟩
  have hirrefl : Std.Irrefl later := ⟨h⟩
  have hwf : WellFounded later := Finite.wellFounded_of_trans_of_irrefl later
  exact hwf.mono fun y x hxy => Relation.TransGen.single hxy

/-- A procedure ends exactly when none of those that it reaches leads back to itself. -/
theorem ends_iff {S : Set α} (hfin : S.Finite) (hS : ∀ a b, .call b ∈ body a → b ∈ S) (a : α) :
    Ends body a ↔ ∀ b, Relation.ReflTransGen (Calls body) a b → ¬ Relation.TransGen (Calls body) b b := by
  constructor
  · rintro ⟨n, r, hrun⟩ b hreach hcycle
    rcases Relation.reflTransGen_iff_eq_or_transGen.mp hreach with rfl | hreach
    · rw [run_cycle hcycle] at hrun
      cases hrun
    · obtain ⟨m, q, -, hq⟩ := run_reached hreach hrun
      rw [run_cycle hcycle] at hq
      cases hq
  · intro hacyclic
    -- what is reached is the start, or called
    have hreached : {b | Relation.ReflTransGen (Calls body) a b}.Finite := by
      refine (hfin.insert a).subset fun b hb => ?_
      rcases Relation.ReflTransGen.cases_tail hb with rfl | ⟨c, -, hcall⟩
      · exact Set.mem_insert _ _
      · exact Set.mem_insert_of_mem _ (hS c b (calls_mem hcall))
    have : Finite {b // Relation.ReflTransGen (Calls body) a b} := hreached
    have hlift : ∀ {x y : {b // Relation.ReflTransGen (Calls body) a b}},
        Relation.TransGen (fun x y => Calls body x.1 y.1) x y → Relation.TransGen (Calls body) x.1 y.1 := by
      intro x y hxy
      induction hxy with
      | single h => exact Relation.TransGen.single h
      | tail _ h ih => exact ih.tail h
    have hwf : WellFounded (Function.swap fun x y : {b // Relation.ReflTransGen (Calls body) a b} => Calls body x.1 y.1) :=
      wellFounded_of_acyclic fun x hx => hacyclic x.1 x.2 (hlift hx)
    have hall : ∀ x : {b // Relation.ReflTransGen (Calls body) a b}, Ends body x.1 := by
      intro x
      induction x using hwf.induction with
      | _ x ih => exact ends_of_calls fun b hb => ih ⟨b, x.2.tail hb⟩ hb
    exact hall ⟨a, Relation.ReflTransGen.refl⟩

end Guppy.Calls
