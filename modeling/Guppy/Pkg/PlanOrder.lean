import Guppy.Pkg.PlanGraph

set_option autoImplicit false

/-! # The order of an installation

`pkg_plan_apply` handles the components of the plan's graph one after the other. A component is
marked as emitted before the components it depends on are handled, so the run is inside some
components that are emitted and not yet handled. `Applied.Ok` says, for the list of those, which
nodes have been handled. An edge leads to the same component or to an earlier one, hence the
recursion never meets a component that it is inside.

The table of edges has room for `maxEdges` of the chosen dependencies. As long as all of them
fit, a chosen dependency is handled before the package that needs it, unless the two are in one
component and depend on each other.
-/

namespace Guppy.Pkg

open Vfs Prog Relation

section

variable {p : Plan} {c : Search}

/-- `j` is handled before every `i` that depends on it, other than within a component. -/
def InOrder (p : Plan) (c : Search) (handled : List Nat) : Prop :=
  ∀ i j, Edge p.edges i j → c.component i ≠ c.component j → i ∈ handled → [j, i].Sublist handled

/-- What holds of the handled nodes however a run ends. -/
structure Applied.Sound (p : Plan) (c : Search) (s : Applied) : Prop where
  nodup : s.handled.Nodup
  order : InOrder p c s.handled

/-- A run fails only when a package cannot be unpacked. -/
structure Applied.Stopped (unpacks : Entry → Target → Bool) (p : Plan) (c : Search) (s : Applied) : Prop
    extends s.Sound p c where
  cause : ∃ n ∈ p.nodes, entryPathTooLong n.entry = true ∨ ∃ target, unpacks n.entry target = false

/-- The version of a package after the nodes in `handled`: that of its entry if it was unpacked,
else the one of the target. -/
def Written (p : Plan) (target : Target) (handled : List Nat) (name : Text) (version : Option Text) : Prop :=
  (∃ i ∈ handled, ∃ n, p.nodes[i]? = some n ∧ n.entry.package = name ∧ n.installed = false ∧
    version = some n.entry.version) ∨
  ((∀ i ∈ handled, ∀ n, p.nodes[i]? = some n → n.entry.package = name → n.installed = true) ∧
    version = target name)

/-- The handled nodes are those of the components that are emitted, except for the components
that the run is inside, and the nodes in `part`. -/
structure Applied.Ok (p : Plan) (c : Search) (target : Target) (busy part : List Nat) (s : Applied) : Prop
    extends s.Sound p c where
  handled : ∀ n, n ∈ s.handled ↔ (∃ k ∈ s.emitted, k ∉ busy ∧ c.component n = some k) ∨ n ∈ part
  installed : ∀ i ∉ s.handled, s.installed i = (p.nodes[i]?).any (·.installed)
  target : ∀ name, Written p target s.handled name (s.target name)

theorem InOrder.snoc {handled : List Nat} (h : InOrder p c handled) {n : Nat}
    (hn : ∀ j, Edge p.edges n j → c.component n ≠ c.component j → j ∈ handled) :
    InOrder p c (handled ++ [n]) := by
  intro i j hij hne hi
  rcases List.mem_append.mp hi with hi | hi
  · exact (h i j hij hne hi).trans (List.sublist_append_left ..)
  · obtain rfl : i = n := by simpa using hi
    exact List.Sublist.append (List.singleton_sublist.mpr (hn j hij hne)) (List.Sublist.refl [i])

/-- The state after a package that was skipped, and after one that was unpacked. -/
def Applied.skip (s : Applied) (i : Nat) : Applied := { s with handled := s.handled ++ [i] }

def Applied.unpack (s : Applied) (i : Nat) (e : Entry) : Applied :=
  { s with
    handled := s.handled ++ [i]
    installed := Function.update s.installed i true
    target := Function.update s.target e.package (some e.version) }

/-- However the callback ends, the node has been handled. -/
theorem handleNode_ends (unpacks : Entry → Target → Bool) {i : Nat} {n : PNode} {s : Applied}
    (hn : p.nodes[i]? = some n) :
    Ends (fun t => (s.installed i = true ∧ t = s.skip i) ∨ (s.installed i = false ∧ t = s.unpack i n.entry))
      (fun t => t = s.skip i ∧ (entryPathTooLong n.entry = true ∨ ∃ target, unpacks n.entry target = false))
      (handleNode unpacks p i s) := by
  unfold handleNode
  rw [bind_of_ok (show (get : Prog Applied Applied) s = .ok s s from rfl), hn]
  dsimp only []
  split
  · rename_i hi
    exact Or.inl ⟨hi, rfl⟩
  · rename_i hi
    rw [bind_of_ok (show (set _ : Prog Applied Unit) s = .ok () (s.skip i) from rfl)]
    refine ends_bind (· = s.skip i) (ends_failIf (fun _ => rfl) (fun hl => ⟨rfl, Or.inl hl⟩)) (fun _ t ht => ?_)
    refine ends_bind (· = s.skip i) (ends_failIf (fun _ => ht) (fun hu => ⟨ht, Or.inr ⟨_, hu⟩⟩)) (fun _ u _ => ?_)
    exact Or.inr ⟨by simpa using hi, rfl⟩

theorem mem_componentDeps {ci k : Nat} {members : List Nat} : k ∈ componentDeps p c ci members ↔
    ∃ n ∈ members, ∃ j, Edge p.edges n j ∧ c.component j = some k ∧ k ≠ ci := by
  unfold componentDeps
  simp only [List.mem_flatMap, List.mem_filterMap]
  constructor
  · rintro ⟨n, hn, ⟨a, j⟩, he, hk⟩
    dsimp only [] at hk
    split at hk
    · rename_i ha
      obtain rfl := ha
      obtain ⟨hc, hne⟩ := Option.filter_eq_some_iff.mp hk
      exact ⟨a, hn, j, he, hc, by simpa using hne⟩
    · cases hk
  · rintro ⟨n, hn, j, he, hc, hne⟩
    refine ⟨n, hn, (n, j), he, ?_⟩
    rw [if_pos rfl, hc]
    simp [Option.filter, hne]

theorem Applied.Sound.snoc {s t : Applied} (h : s.Sound p c) {i : Nat} (hi : i ∉ s.handled)
    (hdeps : ∀ j, Edge p.edges i j → c.component i ≠ c.component j → j ∈ s.handled)
    (ht : t.handled = s.handled ++ [i]) : t.Sound p c := by
  refine ⟨?_, ?_⟩
  · rw [ht]
    exact h.nodup.append (List.nodup_singleton i) (by simpa [List.disjoint_right] using hi)
  · rw [ht]
    exact h.order.snoc hdeps

theorem Written.skip {target : Target} {handled : List Nat} {name : Text} {version : Option Text} {i : Nat}
    {n : PNode} (hn : p.nodes[i]? = some n) (hi : n.entry.package = name → n.installed = true)
    (h : Written p target handled name version) : Written p target (handled ++ [i]) name version := by
  rcases h with ⟨k, hk, m, hm⟩ | ⟨hall, hv⟩
  · exact Or.inl ⟨k, List.mem_append_left _ hk, m, hm⟩
  · refine Or.inr ⟨fun k hk m hm hpkg => ?_, hv⟩
    rcases List.mem_append.mp hk with hk | hk
    · exact hall k hk m hm hpkg
    · obtain rfl : k = i := by simpa using hk
      obtain rfl : n = m := Option.some.inj (hn.symm.trans hm)
      exact hi hpkg

/-- One node of a component, when all that it depends on in other components has been handled. -/
theorem Applied.Ok.handle {target : Target} {busy part : List Nat} {s : Applied} (h : s.Ok p c target busy part)
    (unpacks : Entry → Target → Bool) {i : Nat} (hlt : i < p.nodes.length) (hi : i ∉ s.handled)
    (hdeps : ∀ j, Edge p.edges i j → c.component i ≠ c.component j → j ∈ s.handled) :
    Ends (fun t => t.Ok p c target busy (part ++ [i]) ∧ t.emitted = s.emitted)
      (Applied.Stopped unpacks p c)
      (handleNode unpacks p i s) := by
  have hn := List.getElem?_eq_getElem hlt
  generalize p.nodes[i] = n at hn
  have hinst : s.installed i = n.installed := by
    rw [h.installed i hi, hn]
    rfl
  have hmem : ∀ k, k ∈ s.handled ++ [i] ↔
      (∃ m ∈ s.emitted, m ∉ busy ∧ c.component k = some m) ∨ k ∈ part ++ [i] := by
    intro k
    rw [List.mem_append, List.mem_append, h.handled k]
    exact or_assoc
  refine (handleNode_ends unpacks hn).mono (fun t ht => ?_) (fun t ht => ?_)
  · rcases ht with ⟨hs, rfl⟩ | ⟨hs, rfl⟩
    · refine ⟨⟨h.toSound.snoc hi hdeps rfl, hmem, ?_, ?_⟩, rfl⟩
      · exact fun k hk => h.installed k (fun hk' => hk (List.mem_append_left _ hk'))
      · exact fun name => (h.target name).skip hn (fun _ => hinst.symm.trans hs)
    · refine ⟨⟨h.toSound.snoc hi hdeps rfl, hmem, ?_, ?_⟩, rfl⟩
      · intro k hk
        have hki : k ≠ i := fun hki => hk (by rw [hki]; exact List.mem_append_right _ (List.mem_singleton_self i))
        show Function.update s.installed i true k = _
        rw [Function.update_of_ne hki]
        exact h.installed k (fun hk' => hk (List.mem_append_left _ hk'))
      · intro name
        show Written p target (s.handled ++ [i]) name
          (Function.update s.target n.entry.package (some n.entry.version) name)
        by_cases hname : name = n.entry.package
        · rw [hname, Function.update_self]
          exact Or.inl ⟨i, List.mem_append_right _ (List.mem_singleton_self i), n, hn, rfl,
            hinst.symm.trans hs, rfl⟩
        · rw [Function.update_of_ne hname]
          exact (h.target name).skip hn (fun hpkg => absurd hpkg.symm hname)
  · obtain ⟨rfl, hcause⟩ := ht
    exact ⟨h.toSound.snoc hi hdeps rfl, n, List.mem_of_getElem? hn, hcause⟩

/-! ## A component after those it depends on -/

theorem Applied.Ok.enter {target : Target} {busy : List Nat} {s : Applied} {ci : Nat}
    (h : s.Ok p c target busy []) (hci : ci ∉ s.emitted) :
    Applied.Ok p c target (ci :: busy) [] { s with emitted := ci :: s.emitted } := by
  refine ⟨⟨h.nodup, h.order⟩, fun n => ?_, h.installed, h.target⟩
  rw [h.handled n]
  constructor
  · rintro (⟨k, hk, hkb, hc⟩ | hn)
    · refine Or.inl ⟨k, List.mem_cons_of_mem _ hk, ?_, hc⟩
      rintro hk'
      rcases List.mem_cons.mp hk' with rfl | hk'
      · exact hci hk
      · exact hkb hk'
    · exact Or.inr hn
  · rintro (⟨k, hk, hkb, hc⟩ | hn)
    · have hne : k ≠ ci := fun hkc => hkb (by rw [hkc]; exact List.mem_cons_self ..)
      exact Or.inl ⟨k, (List.mem_cons.mp hk).resolve_left hne, fun hb => hkb (List.mem_cons_of_mem _ hb), hc⟩
    · exact Or.inr hn

/-- The members of a component. -/
theorem handleMembers_ends {target : Target} {busy members : List Nat} {ci : Nat} {s : Applied}
    (hc : IsComponents p.edges p.nodes.length c) (hm : c.comps[ci]? = some members)
    (hbusy : ∀ k ∈ busy, ci < k) (unpacks : Entry → Target → Bool)
    (h : s.Ok p c target (ci :: busy) []) (hci : ci ∈ s.emitted)
    (hdeps : ∀ k ∈ componentDeps p c ci members, k ∈ s.emitted) :
    Ends (fun t => t.Ok p c target busy [] ∧ t.emitted = s.emitted) (Applied.Stopped unpacks p c)
      (forEach (handleNode unpacks p) members s) := by
  have hcomp : ∀ n ∈ members, c.component n = some ci := fun n hn => (hc.component n ci).mpr ⟨members, hm, hn⟩
  have hnodup : members.Nodup := by
    have hflat : c.comps.flatten.Nodup := hc.nodes.nodup_iff.mpr List.nodup_range
    exact (List.nodup_flatten.mp hflat).1 members (List.mem_of_getElem? hm)
  have hrun := @ends_forEach _ (Applied.Stopped unpacks p c) _ (handleNode unpacks p)
    (fun part t => t.Ok p c target (ci :: busy) part ∧ t.emitted = s.emitted) members [] s ⟨h, rfl⟩ (by
      rintro part n rest t hsplit ⟨ht, hem⟩
      rw [List.nil_append] at hsplit
      have hn : n ∈ members := by
        rw [hsplit]
        exact List.mem_append_right _ (List.mem_cons_self ..)
      have hlt : n < p.nodes.length := by
        have := hc.nodes.mem_iff.mp (List.mem_flatten.mpr ⟨members, List.mem_of_getElem? hm, hn⟩)
        simpa using this
      have hnot : n ∉ t.handled := by
        rw [ht.handled n]
        rintro (⟨k, -, hkb, hk⟩ | hpart)
        · rw [hcomp n hn] at hk
          exact hkb (by rw [← Option.some.inj hk]; exact List.mem_cons_self ..)
        · rw [hsplit] at hnodup
          exact (List.nodup_append.mp hnodup).2.2 n hpart n (List.mem_cons_self ..) rfl
      refine (ht.handle unpacks hlt hnot ?_).mono (fun u hu => ⟨hu.1, hu.2.trans hem⟩) (fun u hu => hu)
      -- an edge out of the component leads to an earlier one, which has been emitted
      intro j hj hne
      obtain ⟨k, hkle, hk⟩ := hc.edge n j ci hj (hcomp n hn)
      have hkne : k ≠ ci := by
        rintro rfl
        exact hne ((hcomp n hn).trans hk.symm)
      refine (ht.handled j).mpr (Or.inl ⟨k, ?_, ?_, hk⟩)
      · rw [hem]
        exact hdeps k (mem_componentDeps.mpr ⟨n, hn, j, hj, hk, hkne⟩)
      · intro hkb
        have hk' := hbusy k ((List.mem_cons.mp hkb).resolve_left hkne)
        omega)
  refine hrun.mono (fun t ht => ?_) (fun t ht => ht)
  obtain ⟨ht, hem⟩ := ht
  rw [List.nil_append] at ht
  refine ⟨⟨ht.toSound, fun n => ?_, ht.installed, ht.target⟩, hem⟩
  rw [ht.handled n]
  constructor
  · rintro (⟨k, hk, hkb, hcn⟩ | hn)
    · exact Or.inl ⟨k, hk, fun hb => hkb (List.mem_cons_of_mem _ hb), hcn⟩
    · exact Or.inl ⟨ci, by rw [hem]; exact hci, fun hb => absurd (hbusy ci hb) (lt_irrefl ci), hcomp n hn⟩
  · rintro (⟨k, hk, hkb, hcn⟩ | hn)
    · by_cases hkci : k = ci
      · rw [hkci] at hcn
        obtain ⟨m, hm', hn⟩ := (hc.component n ci).mp hcn
        obtain rfl : members = m := Option.some.inj (hm.symm.trans hm')
        exact Or.inr hn
      · exact Or.inl ⟨k, hk, fun hb => (List.mem_cons.mp hb).elim hkci hkb, hcn⟩
    · cases hn

theorem applyComponent_ends {target : Target} (hc : IsComponents p.edges p.nodes.length c)
    (unpacks : Entry → Target → Bool) (fuel : Nat) :
    ∀ {ci : Nat} {busy : List Nat} {s : Applied}, ci < fuel → (∀ k ∈ busy, ci < k) →
      s.Ok p c target busy [] →
      Ends (fun t => t.Ok p c target busy [] ∧ (∀ k ∈ s.emitted, k ∈ t.emitted) ∧
          (ci < c.comps.length → ci ∈ t.emitted)) (Applied.Stopped unpacks p c)
        (applyComponent unpacks p c fuel ci s) := by
  induction fuel with
  | zero =>
      intro ci busy s hci _ _
      omega
  | succ fuel ih =>
      intro ci busy s hci hbusy hs
      unfold applyComponent
      rw [bind_of_ok (show (get : Prog Applied Applied) s = .ok s s from rfl)]
      cases hm : c.comps[ci]? with
      | none =>
          refine ⟨hs, fun _ hk => hk, fun hlt => ?_⟩
          rw [List.getElem?_eq_getElem hlt] at hm
          cases hm
      | some members =>
          dsimp only []
          split
          · rename_i hem
            exact ⟨hs, fun _ hk => hk, fun _ => hem⟩
          · rename_i hem
            rw [bind_of_ok (show (set _ : Prog Applied Unit) s = .ok () _ from rfl)]
            have hs₁ := hs.enter hem
            generalize hg : ({ s with emitted := ci :: s.emitted } : Applied) = s₁ at hs₁
            have hem₁ : s₁.emitted = ci :: s.emitted := by rw [← hg]
            -- the components of the loop are earlier than `ci`, and so than all that are busy
            have hloop := @ends_forEach _ (Applied.Stopped unpacks p c) _ (applyComponent unpacks p c fuel)
              (fun done t => t.Ok p c target (ci :: busy) [] ∧ (∀ k ∈ s₁.emitted, k ∈ t.emitted) ∧
                ∀ k ∈ done, k ∈ t.emitted) (componentDeps p c ci members) [] s₁
              ⟨hs₁, fun _ hk => hk, fun _ hk => by cases hk⟩ (by
                rintro done k rest t hsplit ⟨ht, hkeep, hdone⟩
                have hk : k ∈ componentDeps p c ci members := by
                  rw [← List.nil_append (componentDeps p c ci members), hsplit]
                  exact List.mem_append_right _ (List.mem_cons_self ..)
                obtain ⟨n, hn, j, hj, hkj, hne⟩ := mem_componentDeps.mp hk
                obtain ⟨k', hle, hk'⟩ := hc.edge n j ci hj ((hc.component n ci).mpr ⟨members, hm, hn⟩)
                obtain rfl : k = k' := Option.some.inj (hkj.symm.trans hk')
                obtain ⟨m', hm', -⟩ := (hc.component j k).mp hkj
                obtain ⟨hklt, -⟩ := List.getElem?_eq_some_iff.mp hm'
                have hsmall : ∀ b ∈ ci :: busy, k < b := by
                  intro b hb
                  rcases List.mem_cons.mp hb with rfl | hb
                  · omega
                  · have := hbusy b hb
                    omega
                refine (ih (by omega) hsmall ht).mono (fun u hu => ?_) (fun u hu => hu)
                refine ⟨hu.1, fun b hb => hu.2.1 b (hkeep b hb), fun b hb => ?_⟩
                rcases List.mem_append.mp hb with hb | hb
                · exact hu.2.1 b (hdone b hb)
                · obtain rfl : b = k := by simpa using hb
                  exact hu.2.2 hklt)
            refine ends_bind _ hloop ?_
            rintro - t ⟨ht, hkeep, hdeps⟩
            have hci' : ci ∈ t.emitted := hkeep ci (by rw [hem₁]; exact List.mem_cons_self ..)
            refine (handleMembers_ends hc hm hbusy unpacks ht hci' hdeps).mono ?_ (fun u hu => hu)
            rintro u ⟨hu, heq⟩
            refine ⟨hu, fun k hk => ?_, fun _ => by rw [heq]; exact hci'⟩
            rw [heq]
            exact hkeep k (by rw [hem₁]; exact List.mem_cons_of_mem _ hk)

end

/-! ## The whole run -/

section

variable {repo : List Entry} {target : Target} {package : Text} {p : Plan}

theorem Plan.Valid.components (h : p.Valid repo target package) :
    IsComponents p.edges p.nodes.length (components p) := by
  obtain ⟨_, _, -, -, -, hok, -⟩ := h.root
  refine components_spec ?_ hok.length
  intro a b hab
  have hmem : (a, b) ∈ p.deps := by simpa using List.mem_of_mem_take hab
  obtain ⟨_, m, _, _, _, -, hm, -⟩ := hok.chosen hmem
  exact (List.getElem?_eq_some_iff.mp hm).1

section

variable {c : Search}

theorem Applied.ok_start : Applied.Ok p c target [] []
    ⟨[], [], fun i => (p.nodes[i]?).any (·.installed), target⟩ := by
  refine ⟨⟨List.nodup_nil, fun i j _ _ hi => by cases hi⟩, fun n => ?_, fun _ _ => rfl, fun name => ?_⟩
  · simp
  · exact Or.inr ⟨fun i hi => (by cases hi), rfl⟩

variable (hc : IsComponents p.edges p.nodes.length c) (unpacks : Entry → Target → Bool)

include hc

/-- Components from the outside, where the run is inside none. -/
theorem applyAll_ends {cs : List Nat} (hcs : ∀ k ∈ cs, k < c.comps.length) {s : Applied}
    (hs : s.Ok p c target [] []) :
    Ends (fun t => t.Ok p c target [] [] ∧ ∀ k ∈ cs, k ∈ t.emitted) (Applied.Stopped unpacks p c)
      (forEach (applyComponent unpacks p c (c.comps.length + 1)) cs s) := by
  refine @ends_forEach _ (Applied.Stopped unpacks p c) _ _
    (fun done t => t.Ok p c target [] [] ∧ ∀ k ∈ done, k ∈ t.emitted) cs [] s
    ⟨hs, fun _ hk => by cases hk⟩ ?_
  rintro done k rest t hsplit ⟨ht, hdone⟩
  have hk : k < c.comps.length := by
    refine hcs k ?_
    rw [← List.nil_append cs, hsplit]
    exact List.mem_append_right _ (List.mem_cons_self ..)
  refine (applyComponent_ends hc unpacks _ (by omega) (fun b hb => by cases hb) ht).mono ?_ (fun u hu => hu)
  intro u hu
  refine ⟨hu.1, fun b hb => ?_⟩
  rcases List.mem_append.mp hb with hb | hb
  · exact hu.2.1 b (hdone b hb)
  · obtain rfl : b = k := by simpa using hb
    exact hu.2.2 hk

theorem component_lt {n k : Nat} (h : c.component n = some k) : k < c.comps.length := by
  obtain ⟨m, hm, -⟩ := (hc.component n k).mp h
  exact (List.getElem?_eq_some_iff.mp hm).1

theorem exists_component {n : Nat} (h : n < p.nodes.length) : ∃ k, c.component n = some k := by
  obtain ⟨m, hm, hn⟩ := List.mem_flatten.mp (hc.nodes.mem_iff.mpr (List.mem_range.mpr h))
  obtain ⟨k, hk⟩ := List.mem_iff_getElem?.mp hm
  exact ⟨k, (hc.component n k).mpr ⟨m, hk, hn⟩⟩

/-- When all components are emitted, all nodes are handled. -/
theorem Applied.Ok.handled_all {s : Applied} (h : s.Ok p c target [] [])
    (hall : ∀ k < c.comps.length, k ∈ s.emitted) : s.handled.Perm (List.range p.nodes.length) := by
  refine (List.perm_ext_iff_of_nodup h.nodup List.nodup_range).mpr (fun n => ?_)
  rw [h.handled n, List.mem_range]
  constructor
  · rintro (⟨k, -, -, hk⟩ | hn)
    · obtain ⟨m, hm, hn⟩ := (hc.component n k).mp hk
      have := hc.nodes.mem_iff.mp (List.mem_flatten.mpr ⟨m, List.mem_of_getElem? hm, hn⟩)
      simpa using this
    · cases hn
  · intro hn
    obtain ⟨k, hk⟩ := exists_component hc hn
    exact Or.inl ⟨k, hall k (component_lt hc hk), List.not_mem_nil, hk⟩

end

/-- `pkg_plan_apply` on a valid plan. -/
theorem pkgPlanApply_eq (hp : buildPlan repo target package = some p) (unpacks : Entry → Target → Bool) :
    pkgPlanApply unpacks repo target package =
      (forEach (applyComponent unpacks p (components p) ((components p).comps.length + 1))
          ((components p).component 0).toList >>= fun _ =>
        forEach (applyComponent unpacks p (components p) ((components p).comps.length + 1))
          (List.range (components p).comps.length) : Prog Applied Unit)
        ⟨[], [], fun i => (p.nodes[i]?).any (·.installed), target⟩ := by
  unfold pkgPlanApply
  rw [hp]

/-- When it returns, every node has been handled. -/
theorem pkgPlanApply_ends (hp : buildPlan repo target package = some p) (unpacks : Entry → Target → Bool) :
    Ends (fun t => t.Sound p (components p) ∧ t.handled.Perm (List.range p.nodes.length) ∧
        ∀ name, Written p target (List.range p.nodes.length) name (t.target name))
      (Applied.Stopped unpacks p (components p)) (pkgPlanApply unpacks repo target package) := by
  have hc := (buildPlan_valid hp).components
  rw [pkgPlanApply_eq hp]
  generalize components p = c at hc ⊢
  refine ends_bind _ (applyAll_ends hc unpacks (fun k hk => ?_) (Applied.ok_start)) (fun _ s hs => ?_)
  · exact component_lt hc (by simpa using hk)
  · refine (applyAll_ends hc unpacks (fun k hk => by simpa using hk) hs.1).mono (fun t ht => ?_) (fun t ht => ht)
    obtain ⟨ht, hall⟩ := ht
    have hperm := ht.handled_all hc (fun k hk => hall k (List.mem_range.mpr hk))
    refine ⟨ht.toSound, hperm, fun name => ?_⟩
    rcases ht.target name with ⟨i, hi, hrest⟩ | ⟨hkept, hver⟩
    · exact Or.inl ⟨i, hperm.mem_iff.mp hi, hrest⟩
    · exact Or.inr ⟨fun i hi => hkept i (hperm.mem_iff.mpr hi), hver⟩

theorem pkgPlanApply_returns (hp : buildPlan repo target package = some p) {unpacks : Entry → Target → Bool}
    (h : ∀ n ∈ p.nodes, entryPathTooLong n.entry = false ∧ ∀ t, unpacks n.entry t = true) :
    ∃ s, pkgPlanApply unpacks repo target package = .ok () s := by
  have hends := pkgPlanApply_ends hp unpacks
  cases hr : pkgPlanApply unpacks repo target package with
  | ok _ s => exact ⟨s, rfl⟩
  | error _ s =>
      rw [hr] at hends
      obtain ⟨n, hn, hlong | ⟨t, hno⟩⟩ := hends.cause
      · rw [(h n hn).1] at hlong
        cases hlong
      · rw [(h n hn).2 t] at hno
        cases hno

/-! ## What the order depends on -/

variable (repo target package) in
/-- The plan is closed, and its packages are handled once and in order: when `pkg_plan_apply`
returns, all of them, and when it fails, those it came to. -/
structure ClosedAndOrdered (unpacks : Entry → Target → Bool) (p : Plan) : Prop where
  packages : (p.nodes.map (fun n => n.entry.package)).Nodup
  closed : ∀ n ∈ p.nodes, ∀ d a inst, Wants repo target n.entry d a inst → ∃ m ∈ p.nodes, Accepts m.entry d a
  once : ∀ s, pkgPlanApply unpacks repo target package = .ok () s →
    s.handled.Perm (List.range p.nodes.length)
  nodup : (left (pkgPlanApply unpacks repo target package)).handled.Nodup
  order : ∀ i j, Chosen repo target p i j → ¬ ReflTransGen (Chosen repo target p) j i →
    i ∈ (left (pkgPlanApply unpacks repo target package)).handled →
    [j, i].Sublist (left (pkgPlanApply unpacks repo target package)).handled

theorem Plan.Ok.nodup {rootKept : Prop} (hok : p.Ok repo target rootKept) :
    (p.nodes.map (fun n => n.entry.package)).Nodup := by
  refine List.nodup_iff_getElem?_ne_getElem?.mpr (fun i j hij hj heq => ?_)
  rw [List.length_map] at hj
  rw [List.getElem?_map, List.getElem?_map, List.getElem?_eq_getElem hj,
    List.getElem?_eq_getElem (show i < p.nodes.length by omega)] at heq
  have := hok.distinct (List.getElem?_eq_getElem (show i < p.nodes.length by omega))
    (List.getElem?_eq_getElem hj) (Option.some.inj heq)
  omega

/-- A dependency that was chosen for a planned package is recorded. -/
theorem Plan.Valid.recorded (h : p.Valid repo target package) {i : Nat} {n : PNode}
    (hn : p.nodes[i]? = some n) {d : Entry} {a : Alt} {inst : Bool} (hw : Wants repo target n.entry d a inst) :
    Met p i (.entry d a inst) := by
  obtain ⟨_, _, -, -, -, hok, -⟩ := h.root
  obtain ⟨gs, hgs, g, hg, hch⟩ := hw
  obtain ⟨gs', hgs', hmet⟩ := hok.met hn (h.done hn)
  obtain rfl : gs = gs' := Option.some.inj (hgs.symm.trans hgs')
  have := hmet g hg
  rwa [hch] at this

theorem Plan.Valid.edge_of_chosen (h : p.Valid repo target package)
    (hroom : (p.nodes.map (fun n => picks repo target n.entry)).sum ≤ maxEdges) {i j : Nat}
    (hc : Chosen repo target p i j) : Edge p.edges i j := by
  obtain ⟨_, _, -, -, -, hok, -⟩ := h.root
  obtain ⟨n, m, d, a, inst, hn, hm, hw, hpkg⟩ := hc
  obtain ⟨k, m', hm', hacc, hdep, -⟩ := h.recorded hn hw
  obtain rfl := hok.distinct hm' hm (hacc.1.trans hpkg)
  show (i, k) ∈ p.deps.reverse.take maxEdges
  rw [List.take_of_length_le (by rw [List.length_reverse, h.count]; exact hroom)]
  exact List.mem_reverse.mpr hdep

theorem Plan.Valid.chosen_of_reach (h : p.Valid repo target package) {i j : Nat}
    (hr : Reach p.edges i j) : ReflTransGen (Chosen repo target p) i j := by
  obtain ⟨_, _, -, -, -, hok, -⟩ := h.root
  refine ReflTransGen.mono (fun a b hab => hok.chosen ?_) _ _ hr
  exact List.mem_reverse.mp (List.mem_of_mem_take hab)

theorem closedAndOrdered_of_room (unpacks : Entry → Target → Bool)
    (hp : buildPlan repo target package = some p)
    (hroom : (p.nodes.map (fun n => picks repo target n.entry)).sum ≤ maxEdges) :
    ClosedAndOrdered repo target package unpacks p := by
  have hv := buildPlan_valid hp
  have hc := hv.components
  have hends := pkgPlanApply_ends hp unpacks
  have hsound : (left (pkgPlanApply unpacks repo target package)).Sound p (components p) := by
    cases hr : pkgPlanApply unpacks repo target package with
    | ok _ s =>
        rw [hr] at hends
        exact hends.1
    | error _ s =>
        rw [hr] at hends
        exact hends.toSound
  obtain ⟨_, _, -, -, -, hok, -⟩ := hv.root
  refine ⟨hok.nodup, ?_, ?_, hsound.nodup, ?_⟩
  · intro n hn d a inst hw
    obtain ⟨i, hi⟩ := List.mem_iff_getElem?.mp hn
    obtain ⟨j, m, hm, hacc, -⟩ := hv.recorded hi hw
    exact ⟨m, List.mem_of_getElem? hm, hacc⟩
  · intro s hs
    rw [hs] at hends
    exact hends.2.1
  · intro i j hch hnot hi
    refine hsound.order i j (hv.edge_of_chosen hroom hch) ?_ hi
    -- two nodes of one component reach each other through recorded dependencies
    intro hsame
    obtain ⟨n, _, _, _, _, hn, -⟩ := id hch
    obtain ⟨k, hik⟩ := exists_component hc (List.getElem?_eq_some_iff.mp hn).1
    exact hnot (hv.chosen_of_reach (hc.reach j i k (hsame.symm.trans hik) hik))

/-- A package with one letter for its name. -/
def plainEntry (name : UInt8) (preDepends depends : Text) : Entry :=
  ⟨[name], [49], preDepends, depends, [], [], []⟩

/-- `r` depends on `x` and `z`, and `x` on `z`. -/
def threeRepo : List Entry := [plainEntry 114 [] [120, 44, 122], plainEntry 120 [] [122], plainEntry 122 [] []]

theorem closedAndOrdered_of_room_three : ∃ p, buildPlan threeRepo (fun _ => none) [114] = some p ∧
    p.nodes.length = 3 ∧ ClosedAndOrdered threeRepo (fun _ => none) [114] (fun _ _ => true) p := by
  have heval : (buildPlan threeRepo (fun _ => none) [114]).any (fun p => p.nodes.length = 3 ∧
      (p.nodes.map (fun n => picks threeRepo (fun _ => none) n.entry)).sum ≤ maxEdges) = true := by
    decide +kernel
  obtain ⟨p, hp, h⟩ := (Option.any_eq_true _ _).mp heval
  obtain ⟨hlen, hroom⟩ := of_decide_eq_true h
  exact ⟨p, hp, hlen, closedAndOrdered_of_room _ hp hroom⟩

/-! ## A dependency that did not fit

A node that no edge leads to is not reached from the requested package. The loop at the end of
`pkg_plan_apply` handles it after everything else.
-/

/-- The handled nodes go on from `first`, and only components in `allowed` are emitted. -/
structure Applied.Within (first : List Nat) (allowed : Nat → Prop) (s : Applied) : Prop where
  handled : first <+: s.handled
  emitted : ∀ k ∈ s.emitted, allowed k

theorem leads_handleNode (unpacks : Entry → Target → Bool) (first : List Nat) (allowed : Nat → Prop) (i : Nat) :
    Leads (Applied.Within first allowed) (Applied.Within first allowed) (handleNode unpacks p i) := by
  intro s hs
  cases hn : p.nodes[i]? with
  | none =>
      have hskip : handleNode unpacks p i s = .ok () s := by
        unfold handleNode
        rw [bind_of_ok (show (get : Prog Applied Applied) s = .ok s s from rfl), hn]
        rfl
      rw [hskip]
      exact hs
  | some n =>
      have hends := handleNode_ends (s := s) unpacks hn
      have hmore : first <+: s.handled ++ [i] := hs.handled.trans (List.prefix_append ..)
      cases hr : handleNode unpacks p i s with
      | ok _ t =>
          rw [hr] at hends
          rcases hends with ⟨-, rfl⟩ | ⟨-, rfl⟩
          · exact ⟨hmore, hs.emitted⟩
          · exact ⟨hmore, hs.emitted⟩
      | error _ t =>
          rw [hr] at hends
          obtain ⟨rfl, -⟩ := hends
          exact ⟨hmore, hs.emitted⟩

/-- A run only adds to the handled nodes, and it emits only components that it is sent to. -/
theorem leads_applyComponent {c : Search} {allowed : Nat → Prop}
    (hall : ∀ n j k, Edge p.edges n j → c.component j = some k → allowed k)
    (unpacks : Entry → Target → Bool) (first : List Nat) (fuel : Nat) :
    ∀ {ci : Nat}, allowed ci → Leads (Applied.Within first allowed) (Applied.Within first allowed)
      (applyComponent unpacks p c fuel ci) := by
  induction fuel with
  | zero => exact fun _ => leads_throw 1
  | succ fuel ih =>
      intro ci hci s hs
      unfold applyComponent
      rw [bind_of_ok (show (get : Prog Applied Applied) s = .ok s s from rfl)]
      cases hm : c.comps[ci]? with
      | none => exact hs
      | some members =>
          dsimp only []
          split
          · exact hs
          · rw [bind_of_ok (show (set _ : Prog Applied Unit) s = .ok () _ from rfl)]
            have hrest : Leads (Applied.Within first allowed) (Applied.Within first allowed)
                (forEach (applyComponent unpacks p c fuel) (componentDeps p c ci members) >>= fun _ =>
                  forEach (handleNode unpacks p) members) := by
              refine leads_bind (leads_forEach (fun k hk => ?_))
                (fun _ => leads_forEach (fun i _ => leads_handleNode unpacks first allowed i)) (fun _ ht => ht)
              obtain ⟨n, -, j, hj, hkj, -⟩ := mem_componentDeps.mp hk
              exact ih (hall n j k hj hkj)
            refine hrest _ ⟨hs.handled, fun k hk => ?_⟩
            rcases List.mem_cons.mp hk with rfl | hk
            · exact hci
            · exact hs.emitted k hk

theorem reach_of_no_edge {edges : List (Nat × Nat)} {i j : Nat} (hj : ∀ a, ¬ Edge edges a j)
    (h : Reach edges i j) : i = j := by
  rcases ReflTransGen.cases_tail h with heq | ⟨a, -, ha⟩
  · exact heq.symm
  · exact absurd ha (hj a)

theorem idxOf_lt_of_sublist {l : List Nat} {a b : Nat} (hl : l.Nodup) (h : [a, b].Sublist l) :
    l.idxOf a < l.idxOf b := by
  obtain ⟨r₁, r₂, rfl, ha, hb⟩ := List.cons_sublist_iff.mp h
  have hb := List.singleton_sublist.mp hb
  have hb₁ : b ∉ r₁ := fun hb₁ => (List.nodup_append.mp hl).2.2 b hb₁ b hb rfl
  rw [List.idxOf_append_of_mem ha, List.idxOf_append_of_notMem hb₁]
  have := List.idxOf_lt_length_of_mem ha
  omega

/-- The components that a run from the component `k₀` can come to. -/
def SentTo (p : Plan) (c : Search) (k₀ k : Nat) : Prop :=
  k = k₀ ∨ ∃ n i, Edge p.edges n i ∧ c.component i = some k

/-- A planned package that no recorded edge leads to is handled after the requested one. -/
theorem root_before_unreached (hp : buildPlan repo target package = some p)
    (unpacks : Entry → Target → Bool) {j : Nat} (hj : j < p.nodes.length) (hj0 : j ≠ 0)
    (hno : ∀ i, ¬ Edge p.edges i j) {s : Applied}
    (hs : pkgPlanApply unpacks repo target package = .ok () s) : [0, j].Sublist s.handled := by
  have hends := pkgPlanApply_ends hp unpacks
  have hc := (buildPlan_valid hp).components
  rw [hs] at hends
  rw [pkgPlanApply_eq hp] at hs
  generalize components p = c at hc hs hends
  obtain ⟨_, t, ht, hst⟩ := bind_ok_iff.mp hs
  obtain ⟨k₀, hk₀⟩ := exists_component hc (show 0 < p.nodes.length by omega)
  obtain ⟨kj, hkj⟩ := exists_component hc hj
  -- the first part of the run
  have hcs : ∀ k ∈ (c.component 0).toList, k < c.comps.length :=
    fun k hk => component_lt hc (by simpa using hk)
  have hok₁ := applyAll_ends hc unpacks hcs (show Applied.Ok p c target [] [] _ from Applied.ok_start)
  rw [ht] at hok₁
  obtain ⟨hok₁, hem₁⟩ := hok₁
  have hin₁ : t.Within [] (SentTo p c k₀) := by
    have hall : ∀ n i k, Edge p.edges n i → c.component i = some k → SentTo p c k₀ k :=
      fun n i k hni hk => Or.inr ⟨n, i, hni, hk⟩
    have hl : Leads (Applied.Within [] (SentTo p c k₀)) (Applied.Within [] (SentTo p c k₀))
        (forEach (applyComponent unpacks p c (c.comps.length + 1)) (c.component 0).toList) := by
      refine leads_forEach (fun k hk => leads_applyComponent hall unpacks [] _ (Or.inl ?_))
      rw [hk₀] at hk
      simpa using hk
    have := hl ⟨[], [], fun i => (p.nodes[i]?).any (·.installed), target⟩
      ⟨List.prefix_refl [], fun k hk => (by cases hk)⟩
    rwa [ht] at this
  have h0 : 0 ∈ t.handled :=
    (hok₁.handled 0).mpr (Or.inl ⟨k₀, hem₁ k₀ (by simp [hk₀]), List.not_mem_nil, hk₀⟩)
  have hnot : j ∉ t.handled := by
    intro hjt
    rcases (hok₁.handled j).mp hjt with ⟨k, hk, -, hkj⟩ | hjt
    · rcases hin₁.emitted k hk with rfl | ⟨n, i, hni, hi⟩
      · exact hj0 (reach_of_no_edge hno (hc.reach 0 j _ hk₀ hkj)).symm
      · exact hno n (reach_of_no_edge hno (hc.reach i j _ hi hkj) ▸ hni)
    · cases hjt
  -- the rest of it only adds nodes
  have hin₂ : s.Within t.handled (fun _ => True) := by
    have hl : Leads (Applied.Within t.handled (fun _ => True)) (Applied.Within t.handled (fun _ => True))
        (forEach (applyComponent unpacks p c (c.comps.length + 1)) (List.range c.comps.length)) :=
      leads_forEach (fun k _ => leads_applyComponent (fun _ _ _ _ _ => trivial) unpacks t.handled _ trivial)
    have := hl t ⟨List.prefix_refl _, fun _ _ => trivial⟩
    rwa [hst] at this
  obtain ⟨rest, hrest⟩ := hin₂.handled
  have hjs : j ∈ t.handled ++ rest := by
    rw [hrest, hends.2.1.mem_iff]
    exact List.mem_range.mpr hj
  rw [← hrest]
  exact List.Sublist.append (List.singleton_sublist.mpr h0)
    (List.singleton_sublist.mpr ((List.mem_append.mp hjs).resolve_left hnot))

end

/-- `z,z,...,z`, as many times as a field may name a package. -/
def manyTimes : Text := (List.replicate 127 [122, 44]).flatten ++ [122]

/-- `r` depends on sixteen packages with 256 dependencies each, and then on `x`. -/
def wideRepo : List Entry :=
  plainEntry 114 [] ((List.range 16).flatMap (fun i => [UInt8.ofNat (97 + i), 44]) ++ [120]) ::
    plainEntry 120 [] [] :: plainEntry 122 [] [] ::
    (List.range 16).map (fun i => plainEntry (UInt8.ofNat (97 + i)) manyTimes manyTimes)

/-- The order in which the packages enter the plan. -/
def widePlanned : List Entry :=
  wideRepo[0]?.toList ++ wideRepo[3]?.toList ++ wideRepo[2]?.toList ++ wideRepo.drop 4 ++ wideRepo[1]?.toList

theorem wideRepo_plan : (buildPlan wideRepo (fun _ => none) [114]).any (fun p =>
    p.nodes.map (·.entry) = widePlanned ∧ p.edges.all (fun e => e.2 ≠ 18)) = true := by
  decide +kernel

theorem wideRepo_short : widePlanned.all (fun e => !entryPathTooLong e) = true := by decide +kernel

theorem wideRepo_wants : (groupsOf (plainEntry 114 [] ((List.range 16).flatMap
    (fun i => [UInt8.ofNat (97 + i), 44]) ++ [120]))).any (fun gs => gs.any (fun g =>
      match chooseAlt wideRepo (fun _ => none) g with
      | .entry d _ _ => d.package = [120]
      | _ => false)) = true := by decide +kernel

/-- The edge from `r` to `x` does not fit, and `r` is unpacked before `x`. -/
theorem wideRepo_not_ordered : ∃ p, buildPlan wideRepo (fun _ => none) [114] = some p ∧
    ¬ ClosedAndOrdered wideRepo (fun _ => none) [114] (fun _ _ => true) p := by
  obtain ⟨p, hp, h⟩ := (Option.any_eq_true _ _).mp wideRepo_plan
  obtain ⟨hnodes, hedges⟩ := of_decide_eq_true h
  have hentry : ∀ (i : Nat) (e : Entry), (p.nodes.map (·.entry))[i]? = some e →
      ∃ n, p.nodes[i]? = some n ∧ n.entry = e := by
    intro i e he
    rw [List.getElem?_map] at he
    simpa using he
  obtain ⟨n, hn, hne⟩ := hentry 0 _ (by rw [hnodes]; exact rfl)
  obtain ⟨m, hm, hme⟩ := hentry 18 _ (by rw [hnodes]; exact rfl)
  refine ⟨p, hp, fun hord => ?_⟩
  -- nothing stops the run
  obtain ⟨s, hs⟩ := @pkgPlanApply_returns _ _ _ p hp (fun _ _ => true) (fun k hk => ⟨by
    have hk' := List.mem_map_of_mem (f := fun n : PNode => n.entry) hk
    rw [hnodes] at hk'
    simpa using List.all_eq_true.mp wideRepo_short k.entry hk', fun _ => rfl⟩)
  have hwants : ∃ d a inst, Wants wideRepo (fun _ => none) n.entry d a inst ∧ d.package = m.entry.package := by
    obtain ⟨gs, hgs, hany⟩ := (Option.any_eq_true _ _).mp wideRepo_wants
    obtain ⟨g, hg, hch⟩ := List.any_eq_true.mp hany
    rw [hne, hme]
    cases hc : chooseAlt wideRepo (fun _ => none) g with
    | entry d a inst =>
        rw [hc] at hch
        exact ⟨d, a, inst, ⟨gs, hgs, g, hg, hc⟩, of_decide_eq_true hch⟩
    | present =>
        rw [hc] at hch
        cases hch
    | nothing =>
        rw [hc] at hch
        cases hch
  obtain ⟨d, a, inst, hw, hpkg⟩ := hwants
  -- `x` needs nothing
  have halone : ¬ ReflTransGen (Chosen wideRepo (fun _ => none) p) 18 0 := by
    intro hr
    rcases ReflTransGen.cases_head hr with heq | ⟨k, hk, -⟩
    · cases heq
    · obtain ⟨m', _, _, _, _, hm', -, ⟨gs, hgs, g, hg, -⟩, -⟩ := hk
      obtain rfl : m = m' := Option.some.inj (hm.symm.trans hm')
      rw [hme] at hgs
      cases hgs
      cases hg
  have hlt : 18 < p.nodes.length := (List.getElem?_eq_some_iff.mp hm).1
  have hafter := root_before_unreached hp (fun _ _ => true) hlt (by omega)
    (fun i hi => by simpa using List.all_eq_true.mp hedges _ hi) hs
  have hbefore := hord.order 0 18 ⟨n, m, d, a, inst, hn, hm, hw, hpkg⟩ halone
  have hnodup := hord.nodup
  rw [hs] at hbefore hnodup
  have h0 : 0 ∈ s.handled := hafter.subset (List.mem_cons_self ..)
  have hlt₁ := idxOf_lt_of_sublist hnodup hafter
  have hlt₂ := idxOf_lt_of_sublist hnodup (hbefore h0)
  omega

end Guppy.Pkg
