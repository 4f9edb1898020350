import Guppy.Pkg.PlanOrder

set_option autoImplicit false

/-! # The target after an installation

Whether the dependency groups of the planned packages are satisfied when `pkg_plan_apply`
returns. For one group the choice is right at the time it is made: the target, or the entry that
will be unpacked, satisfies the chosen alternative. But a package is in the plan once, for all
that depend on it, and it is left alone as soon as one of them is content with what the target
has. `Steady` says that no choice is undone in this way by another one.
-/

namespace Guppy.Pkg

open Vfs Prog

section

variable (repo : List Entry) (target : Target)

/-- An alternative is satisfied: by its own package, or, when it accepts every version, by a
present package that provides it. -/
def altSatisfied (a : Alt) : Bool :=
  (target a.name).any (fun v => debVersionSatisfies v a.op a.version) ||
    (decide (a.op = [] ∨ a.version = []) && repo.any (fun e => providesName e a.name &&
      (target e.package).any (fun v => debVersionCompare v e.version = 0)))

/-- A dependency group is satisfied. -/
def groupSatisfied (g : List Alt) : Bool := g.any (altSatisfied repo target)

/-- Every dependency group of every planned package is satisfied in `after`. -/
def PlanSatisfied (p : Plan) (after : Target) : Prop :=
  ∀ n ∈ p.nodes, ∃ gs, groupsOf n.entry = some gs ∧ ∀ g ∈ gs, groupSatisfied repo after g = true

/-- A planned package that stays as the target has it: it is the requested one in the version of
the repository, or some planned package depends on it and the target has what it asks for. -/
def Kept (package : Text) (p : Plan) (name : Text) : Prop :=
  (∃ e, findBest repo package [] [] = some e ∧ e.package = name ∧
    (target package).any (fun v => debVersionCompare v e.version = 0) = true) ∨
  ∃ n ∈ p.nodes, ∃ d a, Wants repo target n.entry d a true ∧ d.package = name

/-- No choice for a group of a planned package is undone by another choice:
* `agreed`: a package that is to be unpacked for one group is not kept for another;
* `present`: a package of the target that satisfies a group, and that the repository does not
  have in a fitting version, is not replaced;
* `unversioned`: a package that provides a name is chosen only where every version will do;
* `provides`: if it is to be unpacked, the planned entry of that package provides the name. -/
structure Steady (package : Text) (p : Plan) : Prop where
  agreed : ∀ n ∈ p.nodes, ∀ d a, Wants repo target n.entry d a false → ¬ Kept repo target package p d.package
  present : ∀ n ∈ p.nodes, ∀ gs, groupsOf n.entry = some gs → ∀ g ∈ gs,
    (∃ a, chooseAlt repo target g = .present ∧ chosenAlt repo target g = some a ∧
      ∃ m ∈ p.nodes, m.entry.package = a.name ∧ ¬ Kept repo target package p a.name) → False
  unversioned : ∀ n ∈ p.nodes, ∀ d a inst, Wants repo target n.entry d a inst →
    findBest repo a.name a.op a.version = none → a.op = [] ∨ a.version = []
  provides : ∀ n ∈ p.nodes, ∀ d a, Wants repo target n.entry d a false →
    findBest repo a.name a.op a.version = none → ∀ m ∈ p.nodes, m.entry.package = d.package →
      providesName m.entry a.name = true

end

section

variable {repo : List Entry} {target : Target} {package : Text} {p : Plan}

/-- The nodes that are not unpacked are those that are kept. -/
theorem Plan.Valid.installed_iff (h : p.Valid repo target package) {m : PNode} (hm : m ∈ p.nodes) :
    m.installed = true ↔ Kept repo target package p m.entry.package := by
  obtain ⟨e, r, he, hr, hre, hok, hroot⟩ := h.root
  obtain ⟨j, hj⟩ := List.mem_iff_getElem?.mp hm
  constructor
  · intro hi
    rcases hok.marked hj hi with ⟨rfl, hkept⟩ | ⟨i, n, d, a, hn, hw, hd⟩
    · obtain rfl : r = m := Option.some.inj (hr.symm.trans hj)
      exact Or.inl ⟨e, he, by rw [hre], hkept⟩
    · exact Or.inr ⟨n, List.mem_of_getElem? hn, d, a, hw, hd⟩
  · rintro (⟨e', he', hpkg, hkept⟩ | ⟨n, hn, d, a, hw, hd⟩)
    · obtain rfl : e = e' := Option.some.inj (he.symm.trans he')
      obtain rfl := hok.distinct hr hj (by rw [hre, hpkg])
      obtain rfl : r = m := Option.some.inj (hr.symm.trans hj)
      exact hroot hkept
    · obtain ⟨i, hi⟩ := List.mem_iff_getElem?.mp hn
      obtain ⟨k, m', hm', hacc, -, hinst⟩ := h.recorded hi hw
      obtain rfl := hok.distinct hm' hj (hacc.1.trans hd)
      obtain rfl : m' = m := Option.some.inj (hm'.symm.trans hj)
      exact hinst rfl

/-- A planned package that is kept, and one that is unpacked, after the run. -/
theorem Written.kept {version : Option Text} {name : Text}
    (hw : Written p target (List.range p.nodes.length) name version)
    (hkept : ∀ m ∈ p.nodes, m.entry.package = name → m.installed = true) : version = target name := by
  rcases hw with ⟨i, -, n, hn, hpkg, hinst, -⟩ | ⟨-, hv⟩
  · rw [hkept n (List.mem_of_getElem? hn) hpkg] at hinst
    cases hinst
  · exact hv

theorem Written.unpacked (h : p.Valid repo target package) {version : Option Text} {m : PNode}
    (hm : m ∈ p.nodes) (hw : Written p target (List.range p.nodes.length) m.entry.package version)
    (hinst : m.installed = false) : version = some m.entry.version := by
  obtain ⟨_, _, -, -, -, hok, -⟩ := h.root
  obtain ⟨j, hj⟩ := List.mem_iff_getElem?.mp hm
  rcases hw with ⟨i, -, n, hn, hpkg, -, hv⟩ | ⟨hall, -⟩
  · obtain rfl := hok.distinct hn hj hpkg
    obtain rfl : n = m := Option.some.inj (hn.symm.trans hj)
    exact hv
  · have hlt := (List.getElem?_eq_some_iff.mp hj).1
    rw [hall j (List.mem_range.mpr hlt) m hj rfl] at hinst
    cases hinst

theorem altSatisfied_of_version {after : Target} {a : Alt} {v : Text} (hv : after a.name = some v)
    (hsat : debVersionSatisfies v a.op a.version = true) : altSatisfied repo after a = true := by
  unfold altSatisfied
  rw [hv]
  simp [hsat]

theorem altSatisfied_of_provider {after : Target} {a : Alt} {e : Entry} {v : Text}
    (ha : a.op = [] ∨ a.version = []) (he : e ∈ repo) (hp : providesName e a.name = true)
    (hv : after e.package = some v) (hcmp : debVersionCompare v e.version = 0) :
    altSatisfied repo after a = true := by
  unfold altSatisfied
  rw [Bool.or_eq_true, Bool.and_eq_true]
  refine Or.inr ⟨decide_eq_true ha, List.any_eq_true.mpr ⟨e, he, ?_⟩⟩
  rw [hv]
  simp [hp, hcmp]

section

variable (hv : p.Valid repo target package) (hsteady : Steady repo target package p) {after : Target}
  (hafter : ∀ name, Written p target (List.range p.nodes.length) name (after name))

include hv hafter

/-- The version of a planned package after the run. -/
theorem after_of_installed {m : PNode} (hm : m ∈ p.nodes) (hinst : m.installed = true) :
    after m.entry.package = target m.entry.package := by
  obtain ⟨_, _, -, -, -, hok, -⟩ := hv.root
  refine (hafter _).kept (fun k hk hpkg => ?_)
  rw [hv.installed_iff hk, hpkg, ← hv.installed_iff hm]
  exact hinst

include hsteady

theorem entry_satisfied {n : PNode} (hn : n ∈ p.nodes) {d : Entry} {a : Alt} {inst : Bool}
    (hw : Wants repo target n.entry d a inst) (ht : tryAlt repo target a = .entry d a inst) :
    altSatisfied repo after a = true := by
  obtain ⟨_, _, -, -, -, hok, -⟩ := hv.root
  obtain ⟨i, hi⟩ := List.mem_iff_getElem?.mp hn
  obtain ⟨j, m, hm, ⟨hpkg, hacc⟩, -, hinst⟩ := hv.recorded hi hw
  have hm' := List.mem_of_getElem? hm
  obtain ⟨-, ⟨hbest, hflag⟩ | ⟨hnone, hprov, hflag⟩⟩ := tryAlt_entry ht
  · -- an entry of the package itself
    obtain ⟨-, hname, hsat⟩ := findBest_spec hbest
    cases inst with
    | true =>
        have heq := after_of_installed hv hafter hm' (hinst rfl)
        rw [hpkg, hname] at heq
        obtain ⟨v, htv, hsv⟩ := (Option.any_eq_true _ _).mp hflag.symm
        exact altSatisfied_of_version (heq.trans htv) hsv
    | false =>
        have hnot : m.installed = false := by
          rw [← Bool.not_eq_true, hv.installed_iff hm', hpkg]
          exact hsteady.agreed n hn d a hw
        have heq := (hafter _).unpacked hv hm' hnot
        rw [hpkg, hname] at heq
        refine altSatisfied_of_version heq ?_
        rcases hacc with rfl | hacc
        · exact hsat
        · exact hacc
  · -- an entry that provides it
    obtain ⟨hd, hprov⟩ := findProvider_spec hprov
    have hany := hsteady.unversioned n hn d a inst hw hnone
    cases inst with
    | true =>
        have heq := after_of_installed hv hafter hm' (hinst rfl)
        rw [hpkg] at heq
        obtain ⟨v, htv, hcmp⟩ := (Option.any_eq_true _ _).mp hflag.symm
        exact altSatisfied_of_provider hany hd hprov (heq.trans htv) (of_decide_eq_true hcmp)
    | false =>
        have hnot : m.installed = false := by
          rw [← Bool.not_eq_true, hv.installed_iff hm', hpkg]
          exact hsteady.agreed n hn d a hw
        have heq := (hafter _).unpacked hv hm' hnot
        exact altSatisfied_of_provider hany (hok.known hm) (hsteady.provides n hn d a hw hnone m hm' hpkg) heq
          (debVersionCompare_self _)

theorem group_satisfied {n : PNode} (hn : n ∈ p.nodes) {gs : List (List Alt)} (hgs : groupsOf n.entry = some gs)
    {g : List Alt} (hg : g ∈ gs) : groupSatisfied repo after g = true := by
  obtain ⟨_, _, -, -, -, hok, -⟩ := hv.root
  obtain ⟨i, hi⟩ := List.mem_iff_getElem?.mp hn
  obtain ⟨gs', hgs', hmet⟩ := hok.met hi (hv.done hi)
  obtain rfl : gs = gs' := Option.some.inj (hgs.symm.trans hgs')
  cases hc : chooseAlt repo target g with
  | nothing =>
      have := hmet g hg
      rw [hc] at this
      exact this.elim
  | present =>
      obtain ⟨a, ha, hch, heq⟩ := chooseAlt_eq_tryAlt (g := g) (by rw [hc]; exact Choice.noConfusion)
      have hsat := tryAlt_present (heq.symm.trans hc)
      refine List.any_eq_true.mpr ⟨a, ha, ?_⟩
      have hsame : after a.name = target a.name := by
        refine (hafter _).kept (fun m hm hpkg => ?_)
        by_contra hinst
        rw [hv.installed_iff hm, hpkg] at hinst
        exact hsteady.present n hn gs hgs g hg ⟨a, hc, hch, m, hm, hpkg, hinst⟩
      obtain ⟨v, htv, hsv⟩ := (Option.any_eq_true _ _).mp hsat
      exact altSatisfied_of_version (hsame.trans htv) hsv
  | entry d a inst =>
      obtain ⟨ha, ht⟩ := chooseAlt_entry hc
      exact List.any_eq_true.mpr
        ⟨a, ha, entry_satisfied hv hsteady hafter hn ⟨gs, hgs, g, hg, hc⟩ ht⟩

end

/-- When `pkg_plan_apply` returns and no choice is undone by another one, every dependency group
of every planned package is satisfied in the target. -/
theorem planSatisfied_of_steady (unpacks : Entry → Target → Bool)
    (hp : buildPlan repo target package = some p) (hsteady : Steady repo target package p) {s : Applied}
    (hs : pkgPlanApply unpacks repo target package = .ok () s) : PlanSatisfied repo p s.target := by
  have hv := buildPlan_valid hp
  have hends := pkgPlanApply_ends hp unpacks
  rw [hs] at hends
  obtain ⟨_, _, -, -, -, hok, -⟩ := hv.root
  intro n hn
  obtain ⟨i, hi⟩ := List.mem_iff_getElem?.mp hn
  obtain ⟨gs, hgs, -⟩ := hok.met hi (hv.done hi)
  exact ⟨gs, hgs, fun g hg => group_satisfied hv hsteady hends.2.2 hn hgs hg⟩

/-- With nothing installed no choice can be undone, unless a name is only provided. -/
theorem steady_of_empty (h : ∀ n ∈ p.nodes, ∀ gs, groupsOf n.entry = some gs → ∀ g ∈ gs, ∀ a ∈ g,
    (findBest repo a.name a.op a.version).isSome = true) : Steady repo (fun _ => none) package p := by
  have hbest : ∀ {n d a inst}, n ∈ p.nodes → Wants repo (fun _ => none) n.entry d a inst →
      findBest repo a.name a.op a.version ≠ none := by
    rintro n d a inst hn ⟨gs, hgs, g, hg, hc⟩ hnone
    have := h n hn gs hgs g hg a (chooseAlt_entry hc).1
    rw [hnone] at this
    cases this
  refine ⟨?_, ?_, ?_, ?_⟩
  · rintro n - d a - (⟨e, -, -, hk⟩ | ⟨m, -, d', a', ⟨gs, -, g, -, hc⟩, -⟩)
    · cases hk
    · obtain ⟨-, ⟨-, hi⟩ | ⟨-, -, hi⟩⟩ := tryAlt_entry (chooseAlt_entry hc).2
      · cases hi
      · cases hi
  · rintro n - gs - g - ⟨a, hc, -⟩
    obtain ⟨b, -, -, heq⟩ := chooseAlt_eq_tryAlt (g := g) (by rw [hc]; exact Choice.noConfusion)
    cases tryAlt_present (heq.symm.trans hc)
  · exact fun n hn d a inst hw hnone => absurd hnone (hbest hn hw)
  · exact fun n hn d a hw hnone => absurd hnone (hbest hn hw)

end

theorem planSatisfied_of_steady_three : ∃ p s, buildPlan threeRepo (fun _ => none) [114] = some p ∧
    pkgPlanApply (fun _ _ => true) threeRepo (fun _ => none) [114] = .ok () s ∧ p.nodes.length = 3 ∧
      PlanSatisfied threeRepo p s.target := by
  have heval : (buildPlan threeRepo (fun _ => none) [114]).any (fun p => p.nodes.length = 3 ∧
      p.nodes.all (fun n => !entryPathTooLong n.entry && ((groupsOf n.entry).getD []).all (fun g =>
        g.all (fun a => (findBest threeRepo a.name a.op a.version).isSome)))) = true := by decide +kernel
  obtain ⟨p, hp, h⟩ := (Option.any_eq_true _ _).mp heval
  obtain ⟨hlen, hall⟩ := of_decide_eq_true h
  have hnode : ∀ n ∈ p.nodes, entryPathTooLong n.entry = false ∧ ((groupsOf n.entry).getD []).all (fun g =>
      g.all (fun a => (findBest threeRepo a.name a.op a.version).isSome)) = true := by
    intro n hn
    simpa using List.all_eq_true.mp hall n hn
  obtain ⟨s, hs⟩ := @pkgPlanApply_returns _ _ _ p hp (fun _ _ => true) (fun n hn => ⟨(hnode n hn).1, fun _ => rfl⟩)
  refine ⟨p, s, hp, hs, hlen, planSatisfied_of_steady _ hp (steady_of_empty ?_) hs⟩
  intro n hn gs hgs g hg a ha
  have := (hnode n hn).2
  rw [hgs] at this
  exact List.all_eq_true.mp (List.all_eq_true.mp this g hg) a ha

/-- `r` depends on `a` and `b`, `a` depends on `x` and `b` on `x (>= 2)`. -/
def clashRepo : List Entry :=
  [plainEntry 114 [] [97, 44, 98], plainEntry 97 [] [120], plainEntry 98 [] [120, 32, 40, 62, 61, 32, 50, 41],
    { plainEntry 120 [] [] with version := [50] }]

/-- The target has `x` in version 1: for `a` it stays, and `b` does not get version 2. -/
theorem clashRepo_not_satisfied : ∃ p s,
    buildPlan clashRepo (fun name => if name = [120] then some [49] else none) [114] = some p ∧
    pkgPlanApply (fun _ _ => true) clashRepo (fun name => if name = [120] then some [49] else none) [114] =
      .ok () s ∧ ¬ PlanSatisfied clashRepo p s.target := by
  have heval : (buildPlan clashRepo (fun name => if name = [120] then some [49] else none) [114]).any (fun p =>
      match pkgPlanApply (fun _ _ => true) clashRepo
        (fun name => if name = [120] then some [49] else none) [114] with
      | .ok _ s => p.nodes.any (fun n => (groupsOf n.entry).any (fun gs =>
          gs.any (fun g => !groupSatisfied clashRepo s.target g)))
      | .error _ _ => false) = true := by decide +kernel
  obtain ⟨p, hp, h⟩ := (Option.any_eq_true _ _).mp heval
  cases hs : pkgPlanApply (fun _ _ => true) clashRepo
      (fun name => if name = [120] then some [49] else none) [114] with
  | error _ s =>
      rw [hs] at h
      cases h
  | ok _ s =>
      rw [hs] at h
      obtain ⟨n, hn, hno⟩ := List.any_eq_true.mp h
      obtain ⟨gs, hgs, hno⟩ := (Option.any_eq_true _ _).mp hno
      obtain ⟨g, hg, hno⟩ := List.any_eq_true.mp hno
      refine ⟨p, s, hp, rfl, fun hall => ?_⟩
      obtain ⟨gs', hgs', hsat⟩ := hall n hn
      obtain rfl : gs = gs' := Option.some.inj (hgs.symm.trans hgs')
      rw [hsat g hg] at hno
      cases hno

end Guppy.Pkg
