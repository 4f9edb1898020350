import Guppy.Lib.PostOrder
import Guppy.Pkg.PlanOrder

set_option autoImplicit false

/-! # Walking over the components of a plan

`print_unpack_plan` prints the components of a plan in the order in which they would be unpacked,
and `pkg_plan_apply` unpacks them. Both walk over the components in the same way: first from the
component of the requested package, then from all others. An edge leads to an earlier component,
so both are post-order walks (`emitComponent_walk`, `applyComponent_follows`).

The results hold for every graph in the tables of a plan, whether or not `expand` would build it.
-/

namespace Guppy.Pkg

open Vfs Prog Relation

/-! ## Printing the plan -/

/-- The marks of `emit_component`, and the components that were printed. The number of a step is
its place in the list. -/
structure Emission where
  emitted : List Nat
  printed : List Nat

/-- `emit_component`. -/
def emitComponent (p : Plan) (c : Search) : Nat → Nat → Emission → Emission
  | 0, _, e => e
  | fuel + 1, ci, e =>
      match c.comps[ci]? with
      | none => e
      | some members =>
          if ci ∈ e.emitted then e
          else
            let e := (componentDeps p c ci members).foldl (fun e d => emitComponent p c fuel d e)
              { e with emitted := ci :: e.emitted }
            { e with printed := e.printed ++ [ci] }

/-- `print_unpack_plan`. -/
def printUnpackPlan (p : Plan) (c : Search) (root : Option Nat) : List Nat :=
  let emit := emitComponent p c (c.comps.length + 1)
  let e : Emission := ⟨[], []⟩
  let e := (root.bind c.component).elim e (fun ci => emit ci e)
  ((List.range c.comps.length).foldl (fun e i => if i ∈ e.emitted then e else emit i e) e).printed

/-! ## Applying the plan -/

/-- `pkg_plan_apply`, once the plan is there. -/
def applyPlan (unpacks : Entry → Target → Bool) (p : Plan) (c : Search) (root : Option Nat) :
    Prog Applied Unit := do
  forEach (applyComponent unpacks p c (c.comps.length + 1)) (root.bind c.component).toList
  forEach (applyComponent unpacks p c (c.comps.length + 1)) (List.range c.comps.length)

theorem pkgPlanApply_applyPlan {repo : List Entry} {target : Target} {package : Text} {p : Plan}
    (hp : buildPlan repo target package = some p) (unpacks : Entry → Target → Bool) :
    pkgPlanApply unpacks repo target package =
      applyPlan unpacks p (components p) (some 0)
        ⟨[], [], fun i => (p.nodes[i]?).any (·.installed), target⟩ :=
  pkgPlanApply_eq hp unpacks

/-! ## Both are post-order walks -/

section

variable {p : Plan} {c : Search}

/-- The members of a component. -/
def membersOf (c : Search) (ci : Nat) : List Nat := (c.comps[ci]?).getD []

/-- The components that the members of a component depend on. -/
def depsOf (p : Plan) (c : Search) (ci : Nat) : List Nat := componentDeps p c ci (membersOf c ci)

def Emission.walk (e : Emission) : Walk := ⟨e.emitted, e.printed⟩

/-- Printing from a component is a walk over the components. -/
theorem emitComponent_walk (fuel : Nat) : ∀ (ci : Nat) (e : Emission),
    (emitComponent p c fuel ci e).walk = postOrder (depsOf p c) c.comps.length fuel ci e.walk := by
  induction fuel with
  | zero => exact fun _ _ => rfl
  | succ fuel ih =>
      intro ci e
      have hfold : ∀ (ds : List Nat) (e : Emission),
          (ds.foldl (fun e d => emitComponent p c fuel d e) e).walk =
            ds.foldl (fun w d => postOrder (depsOf p c) c.comps.length fuel d w) e.walk := by
        intro ds
        induction ds with
        | nil => exact fun _ => rfl
        | cons d ds ihd =>
            intro e
            rw [List.foldl_cons, List.foldl_cons, ihd, ih]
      unfold emitComponent postOrder
      cases hm : c.comps[ci]? with
      | none =>
          have hlen : c.comps.length ≤ ci := List.getElem?_eq_none_iff.mp hm
          rw [if_pos (Or.inl hlen)]
      | some members =>
          have hlen : ¬ c.comps.length ≤ ci := by
            rw [← List.getElem?_eq_none_iff, hm]
            simp
          have hdeps : componentDeps p c ci members = depsOf p c ci := by
            unfold depsOf membersOf
            rw [hm]
            rfl
          by_cases hem : ci ∈ e.emitted
          · have hyes : c.comps.length ≤ ci ∨ ci ∈ e.walk.marked := Or.inr hem
            rw [if_pos hyes]
            simp only [if_pos hem]
          · have hno : ¬ (c.comps.length ≤ ci ∨ ci ∈ e.walk.marked) := fun h => h.elim hlen hem
            rw [if_neg hno]
            simp only [if_neg hem]
            rw [hdeps]
            have hsame := hfold (depsOf p c ci) { e with emitted := ci :: e.emitted }
            have hdone := congrArg Walk.done hsame
            have hmark := congrArg Walk.marked hsame
            show Walk.mk _ (_ ++ [ci]) = Walk.mk _ (_ ++ [ci])
            congr 1
            exact congrArg (· ++ [ci]) hdone

theorem printUnpackPlan_walk (root : Option Nat) : printUnpackPlan p c root =
    (walkAll (depsOf p c) c.comps.length ((root.bind c.component).toList ++ List.range c.comps.length)
      Walk.start).done := by
  -- a component that has been printed is left alone either way
  have hloop : ∀ (is : List Nat) (e : Emission),
      (is.foldl (fun e i => if i ∈ e.emitted then e else emitComponent p c (c.comps.length + 1) i e) e).walk =
        walkAll (depsOf p c) c.comps.length is e.walk := by
    intro is
    induction is with
    | nil => exact fun _ => rfl
    | cons i is ih =>
        intro e
        unfold walkAll at ih ⊢
        rw [List.foldl_cons, List.foldl_cons, ih]
        congr 1
        by_cases hem : i ∈ e.emitted
        · have hyes : c.comps.length ≤ i ∨ i ∈ e.walk.marked := Or.inr hem
          rw [if_pos hem]
          unfold postOrder
          rw [if_pos hyes]
        · rw [if_neg hem]
          exact emitComponent_walk _ i e
  have happ : ∀ (ks is : List Nat) (w : Walk), walkAll (depsOf p c) c.comps.length (ks ++ is) w =
      walkAll (depsOf p c) c.comps.length is (walkAll (depsOf p c) c.comps.length ks w) :=
    fun ks is w => List.foldl_append
  rw [happ]
  unfold printUnpackPlan
  cases root.bind c.component with
  | none => exact congrArg Walk.done (hloop (List.range c.comps.length) ⟨[], []⟩)
  | some ci =>
      have hfirst := emitComponent_walk (p := p) (c := c) (c.comps.length + 1) ci ⟨[], []⟩
      have hrest := hloop (List.range c.comps.length) (emitComponent p c (c.comps.length + 1) ci ⟨[], []⟩)
      rw [hfirst] at hrest
      exact congrArg Walk.done hrest

/-! ## Applying follows the walk -/

/-- No package of the plan can fail: its path fits the buffer, and the callback succeeds. -/
def NoneFails (unpacks : Entry → Target → Bool) (p : Plan) : Prop :=
  ∀ n ∈ p.nodes, entryPathTooLong n.entry = false ∧ ∀ t, unpacks n.entry t = true

/-- The run has come as far as the walk, and has handled the members of what is done. -/
structure Follows (c : Search) (s : Applied) (w : Walk) : Prop where
  emitted : s.emitted = w.marked
  handled : s.handled = w.done.flatMap (membersOf c)

variable {unpacks : Entry → Target → Bool}

theorem handleMembers_ok (hgo : NoneFails unpacks p) {members : List Nat}
    (hm : ∀ i ∈ members, i < p.nodes.length) (s : Applied) :
    ∃ s', forEach (handleNode unpacks p) members s = .ok () s' ∧ s'.emitted = s.emitted ∧
      s'.handled = s.handled ++ members := by
  induction members generalizing s with
  | nil => exact ⟨s, rfl, rfl, (List.append_nil _).symm⟩
  | cons i members ih =>
      have hlt : i < p.nodes.length := hm i (List.mem_cons_self ..)
      have hi : p.nodes[i]? = some p.nodes[i] := List.getElem?_eq_getElem hlt
      have hends := handleNode_ends unpacks (s := s) hi
      have hstep : ∃ t, handleNode unpacks p i s = .ok () t ∧ t.emitted = s.emitted ∧
          t.handled = s.handled ++ [i] := by
        cases hrun : handleNode unpacks p i s with
        | ok u t =>
            rw [hrun] at hends
            refine ⟨t, rfl, ?_⟩
            rcases hends with ⟨-, rfl⟩ | ⟨-, rfl⟩
            · exact ⟨rfl, rfl⟩
            · exact ⟨rfl, rfl⟩
        | error e t =>
            rw [hrun] at hends
            obtain ⟨hshort, hyes⟩ := hgo _ (List.getElem_mem hlt)
            rcases hends.2 with hlong | ⟨target, hno⟩
            · rw [hshort] at hlong
              cases hlong
            · rw [hyes target] at hno
              cases hno
      obtain ⟨t, hrun, hem, hha⟩ := hstep
      obtain ⟨s', hrun', hem', hha'⟩ := ih (fun j hj => hm j (List.mem_cons_of_mem _ hj)) t
      refine ⟨s', ?_, hem'.trans hem, ?_⟩
      · show (handleNode unpacks p i >>= fun _ => forEach (handleNode unpacks p) members) s = _
        rw [bind_of_ok hrun, hrun']
      · rw [hha', hha, List.append_assoc]
        rfl

variable (hc : IsComponents p.edges p.nodes.length c)
include hc

/-- A component depends on earlier ones only. -/
theorem depsOf_lt (k : Nat) : ∀ d ∈ depsOf p c k, d < k := by
  intro d hd
  obtain ⟨n, hn, j, hj, hcj, hne⟩ := mem_componentDeps.mp hd
  have hnk : c.component n = some k := by
    unfold membersOf at hn
    cases hm : c.comps[k]? with
    | none =>
        rw [hm] at hn
        cases hn
    | some m =>
        rw [hm] at hn
        exact (hc.component n k).mpr ⟨m, hm, hn⟩
  obtain ⟨k', hle, hk'⟩ := hc.edge n j k hj hnk
  rw [hcj] at hk'
  cases hk'
  omega

theorem members_lt {k : Nat} {members : List Nat} (hm : c.comps[k]? = some members) :
    ∀ i ∈ members, i < p.nodes.length := by
  intro i hi
  have hflat : i ∈ c.comps.flatten := List.mem_flatten.mpr ⟨members, List.mem_of_getElem? hm, hi⟩
  exact List.mem_range.mp (hc.nodes.mem_iff.mp hflat)

/-- When no package can fail, applying from a component is a walk over the components. -/
theorem applyComponent_follows (hgo : NoneFails unpacks p) (fuel : Nat) : ∀ {ci : Nat} {s : Applied} {w : Walk},
    ci < fuel → ci < c.comps.length → Follows c s w →
    ∃ s', applyComponent unpacks p c fuel ci s = .ok () s' ∧
      Follows c s' (postOrder (depsOf p c) c.comps.length fuel ci w) := by
  induction fuel with
  | zero =>
      intro ci s w hci
      omega
  | succ fuel ih =>
      intro ci s w hci hlen hs
      have hm : c.comps[ci]? = some c.comps[ci] := List.getElem?_eq_getElem hlen
      have hmembers : membersOf c ci = c.comps[ci] := by
        unfold membersOf
        rw [hm]
        rfl
      unfold applyComponent postOrder
      rw [bind_of_ok (show (get : Prog Applied Applied) s = .ok s s from rfl), hm]
      dsimp only []
      by_cases hem : ci ∈ s.emitted
      · rw [if_pos hem, if_pos (Or.inr (hs.emitted ▸ hem))]
        exact ⟨s, rfl, hs⟩
      have hno : ¬ (c.comps.length ≤ ci ∨ ci ∈ w.marked) := by
        rw [← hs.emitted]
        exact fun h => h.elim (Nat.not_le.mpr hlen) hem
      rw [if_neg hem, if_neg hno, bind_of_ok (show (set _ : Prog Applied Unit) s = .ok () _ from rfl)]
      -- the loop over the dependencies, component by component
      have hfold : ∀ (ds : List Nat) (s : Applied) (w : Walk), (∀ d ∈ ds, d < ci) → Follows c s w →
          ∃ s', forEach (applyComponent unpacks p c fuel) ds s = .ok () s' ∧
            Follows c s' (ds.foldl (fun w d => postOrder (depsOf p c) c.comps.length fuel d w) w) := by
        intro ds
        induction ds with
        | nil => exact fun s w _ hs => ⟨s, rfl, hs⟩
        | cons d ds ihd =>
            intro s w hds hs
            have hd := hds d (List.mem_cons_self ..)
            have hfuel : d < fuel := by omega
            have hcomps : d < c.comps.length := by omega
            obtain ⟨s₁, hrun, hs₁⟩ := ih hfuel hcomps hs
            obtain ⟨s₂, hrun₂, hs₂⟩ := ihd s₁ _ (fun x hx => hds x (List.mem_cons_of_mem _ hx)) hs₁
            refine ⟨s₂, ?_, hs₂⟩
            show (applyComponent unpacks p c fuel d >>= fun _ => forEach (applyComponent unpacks p c fuel) ds) s = _
            rw [bind_of_ok hrun, hrun₂]
      have hdeps : componentDeps p c ci c.comps[ci] = depsOf p c ci := by
        unfold depsOf
        rw [hmembers]
      obtain ⟨s₁, hrun, hs₁⟩ := hfold (depsOf p c ci) { s with emitted := ci :: s.emitted }
        { w with marked := ci :: w.marked } (depsOf_lt hc ci) ⟨by rw [hs.emitted], hs.handled⟩
      obtain ⟨s₂, hrun₂, hem₂, hha₂⟩ := handleMembers_ok hgo (members_lt hc hm) s₁
      refine ⟨s₂, ?_, ⟨hem₂.trans hs₁.emitted, ?_⟩⟩
      · rw [hdeps, bind_of_ok hrun, hrun₂]
      · rw [hha₂, hs₁.handled, List.flatMap_append, List.flatMap_singleton, hmembers]

theorem applyPlan_follows (hgo : NoneFails unpacks p) (root : Option Nat) (s : Applied)
    (hs : Follows c s Walk.start) : ∃ s', applyPlan unpacks p c root s = .ok () s' ∧
      Follows c s' (walkAll (depsOf p c) c.comps.length
        ((root.bind c.component).toList ++ List.range c.comps.length) Walk.start) := by
  have hloop : ∀ (ks : List Nat) (s : Applied) (w : Walk), (∀ k ∈ ks, k < c.comps.length) → Follows c s w →
      ∃ s', forEach (applyComponent unpacks p c (c.comps.length + 1)) ks s = .ok () s' ∧
        Follows c s' (walkAll (depsOf p c) c.comps.length ks w) := by
    intro ks
    induction ks with
    | nil => exact fun s w _ hs => ⟨s, rfl, hs⟩
    | cons k ks ih =>
        intro s w hks hs
        have hk := hks k (List.mem_cons_self ..)
        obtain ⟨s₁, hrun, hs₁⟩ := applyComponent_follows hc hgo (c.comps.length + 1) (by omega) hk hs
        obtain ⟨s₂, hrun₂, hs₂⟩ := ih s₁ _ (fun x hx => hks x (List.mem_cons_of_mem _ hx)) hs₁
        refine ⟨s₂, ?_, hs₂⟩
        show (applyComponent unpacks p c (c.comps.length + 1) k >>= fun _ =>
          forEach (applyComponent unpacks p c (c.comps.length + 1)) ks) s = _
        rw [bind_of_ok hrun, hrun₂]
  have hroot : ∀ k ∈ (root.bind c.component).toList, k < c.comps.length := by
    intro k hk
    rw [Option.mem_toList, Option.bind_eq_some_iff] at hk
    obtain ⟨n, -, hn⟩ := hk
    exact component_lt hc hn
  obtain ⟨s₁, hrun, hs₁⟩ := hloop _ s _ hroot hs
  obtain ⟨s₂, hrun₂, hs₂⟩ := hloop (List.range c.comps.length) s₁ _ (fun k hk => List.mem_range.mp hk) hs₁
  refine ⟨s₂, ?_, ?_⟩
  · unfold applyPlan
    rw [bind_of_ok hrun, hrun₂]
  · unfold walkAll at hs₂ ⊢
    rw [List.foldl_append]
    exact hs₂

/-- The components in `l` are all of them, each once, and each after the components that it has an
edge into. -/
structure Visits (p : Plan) (c : Search) (l : List Nat) : Prop where
  all : l.Perm (List.range c.comps.length)
  after : ∀ pre k post, l = pre ++ k :: post → ∀ a b, Edge p.edges a b → c.component a = some k →
    c.component b ≠ some k → ∃ j ∈ pre, c.component b = some j

/-- A walk over all components visits them in the right order, wherever it starts. -/
theorem visits_walkAll (root : Option Nat) : Visits p c (walkAll (depsOf p c) c.comps.length
    ((root.bind c.component).toList ++ List.range c.comps.length) Walk.start).done := by
  have hroot : ∀ k ∈ (root.bind c.component).toList, k < c.comps.length := by
    intro k hk
    rw [Option.mem_toList, Option.bind_eq_some_iff] at hk
    obtain ⟨n, -, hn⟩ := hk
    exact component_lt hc hn
  obtain ⟨hperm, hordered⟩ := Walk.walkAll_perm (depsOf_lt hc) hroot
  constructor
  · exact hperm
  · intro pre k post hsplit a b hab ha hne
    obtain ⟨j, -, hb⟩ := hc.edge a b k hab ha
    obtain ⟨m, hm, ham⟩ := (hc.component a k).mp ha
    have hjk : j ≠ k := fun h => hne (h ▸ hb)
    -- the edge makes the component of `b` a dependency of `k`
    have hdep : j ∈ depsOf p c k := by
      unfold depsOf membersOf
      rw [hm]
      exact mem_componentDeps.mpr ⟨a, ham, b, hab, hb, hjk⟩
    exact ⟨j, hordered pre k post hsplit j hdep, hb⟩

end

/-! ## Every graph in the tables -/

/-- The texts fit the arrays of `pkg_repo_entry_t`. -/
def Entry.Fits (e : Entry) : Prop := e.repoRoot.length < 512 ∧ e.filename.length < 768

theorem Entry.Fits.path {e : Entry} (h : e.Fits) : entryPathTooLong e = false := by
  obtain ⟨hroot, hfile⟩ := h
  unfold entryPathTooLong
  rw [decide_eq_false_iff_not]
  split
  · rw [List.length_append]
    omega
  · rw [List.length_append, List.length_cons]
    omega

/-- The graph of a plan fits its tables: there is room for the nodes, and edges are between them. -/
structure Plan.InTables (p : Plan) : Prop where
  nodes : p.nodes.length ≤ maxNodes
  edges : ∀ a b, Edge p.edges a b → a < p.nodes.length ∧ b < p.nodes.length
  entries : ∀ n ∈ p.nodes, n.entry.Fits

/-- Nodes have the same number when each reaches the other. -/
theorem component_eq_iff {p : Plan} {c : Search} (hc : IsComponents p.edges p.nodes.length c) {a b : Nat}
    (ha : a < p.nodes.length) (hb : b < p.nodes.length) :
    c.component a = c.component b ↔ Reach p.edges a b ∧ Reach p.edges b a := by
  obtain ⟨k, hk⟩ := exists_component hc ha
  obtain ⟨l, hl⟩ := exists_component hc hb
  -- numbers do not grow along a path
  have hdown : ∀ {x y i : Nat}, Reach p.edges x y → c.component x = some i →
      ∃ j ≤ i, c.component y = some j := by
    intro x y i hxy hx
    induction hxy with
    | refl => exact ⟨i, le_rfl, hx⟩
    | tail _ hyz ih =>
        obtain ⟨j, hji, hj⟩ := ih
        obtain ⟨j', hle, hj'⟩ := hc.edge _ _ j hyz hj
        exact ⟨j', hle.trans hji, hj'⟩
  constructor
  · intro heq
    have hbk : c.component b = some k := heq ▸ hk
    exact ⟨hc.reach a b k hk hbk, hc.reach b a k hbk hk⟩
  · rintro ⟨hab, hba⟩
    obtain ⟨j, hjk, hj⟩ := hdown hab hk
    obtain ⟨i, hil, hi⟩ := hdown hba hl
    rw [hl] at hj
    rw [hk] at hi
    cases hj
    cases hi
    rw [hk, hl, Nat.le_antisymm hil hjk]

/-- The components are the strongly connected ones, `emit_component` prints each once after those it
depends on, and so does `apply_component` handle their members when no callback fails. -/
theorem components_walked {p : Plan} (hp : p.InTables) :
    (∀ a b, a < p.nodes.length → b < p.nodes.length → (components p).component a ≠ none ∧
      ((components p).component a = (components p).component b ↔
        Reach p.edges a b ∧ Reach p.edges b a)) ∧
    (∀ root, Visits p (components p) (printUnpackPlan p (components p) root)) ∧
    (∀ unpacks : Entry → Target → Bool, (∀ n ∈ p.nodes, ∀ t, unpacks n.entry t = true) →
      ∀ root (s : Applied), s.emitted = [] → s.handled = [] →
      ∃ s' l, applyPlan unpacks p (components p) root s = .ok () s' ∧ Visits p (components p) l ∧
        s'.handled = l.flatMap (membersOf (components p))) := by
  have hc : IsComponents p.edges p.nodes.length (components p) :=
    components_spec (fun a b hab => (hp.edges a b hab).2) hp.nodes
  refine ⟨fun a b ha hb => ⟨?_, component_eq_iff hc ha hb⟩, fun root => ?_, ?_⟩
  · obtain ⟨k, hk⟩ := exists_component hc ha
    rw [hk]
    exact Option.some_ne_none k
  · rw [printUnpackPlan_walk]
    exact visits_walkAll hc root
  · intro unpacks hyes root s hem hha
    have hgo : NoneFails unpacks p := fun n hn => ⟨(hp.entries n hn).path, hyes n hn⟩
    obtain ⟨s', hrun, hs'⟩ := applyPlan_follows hc hgo root s ⟨hem, hha⟩
    exact ⟨s', _, hrun, visits_walkAll hc root, hs'.handled⟩

/-- Two packages that depend on each other, one of them on a third. -/
def cyclePlan : Plan :=
  ⟨[⟨plainEntry 114 [] [], false, false, true⟩, ⟨plainEntry 120 [] [], false, false, true⟩,
    ⟨plainEntry 122 [] [], false, false, true⟩], [(1, 0), (1, 2), (0, 1)]⟩

theorem components_walked_cycle : ∃ p : Plan, p.InTables ∧ (components p).comps = [[2], [1, 0]] ∧
    printUnpackPlan p (components p) (some 0) = [0, 1] ∧
    Visits p (components p) (printUnpackPlan p (components p) (some 0)) ∧
    ∃ s' l, applyPlan (fun _ _ => true) p (components p) (some 0) ⟨[], [], fun _ => false, fun _ => none⟩ =
      .ok () s' ∧ Visits p (components p) l ∧ s'.handled = l.flatMap (membersOf (components p)) := by
  have hedges : cyclePlan.edges.all (fun e => e.1 < 3 ∧ e.2 < 3) = true := by decide
  have htables : cyclePlan.InTables := by
    constructor
    · decide
    · intro a b hab
      exact of_decide_eq_true (List.all_eq_true.mp hedges _ hab)
    · unfold Entry.Fits
      decide
  obtain ⟨-, hprint, happly⟩ := components_walked htables
  exact ⟨cyclePlan, htables, by decide +kernel, by decide +kernel, hprint (some 0),
    happly _ (fun _ _ _ => rfl) (some 0) _ rfl rfl⟩

end Guppy.Pkg
