import Guppy.Pkg.Plan

set_option autoImplicit false

/-! # The graph of a plan

What `expand` leaves behind. `Grow` is what every step of it keeps: nodes stay where they are,
with their entries, and only those that the search is not inside become done. `Plan.Ok` is the
invariant: the nodes have different packages, every recorded dependency is one that was chosen,
and every group of a node that is done has been met. A node that is neither done nor being
expanded is idle; `expand` makes none and takes one away, so a finished plan has none.

The number of recorded dependencies is counted as well: it is the number of groups, of all the
planned packages, for which an entry of the repository was chosen.
-/

namespace Guppy.Pkg

open Vfs

section

variable (repo : List Entry) (target : Target)

/-- A dependency group of `e` is to be met by `d`, through the alternative `a`. -/
def Wants (e d : Entry) (a : Alt) (inst : Bool) : Prop :=
  ∃ gs, groupsOf e = some gs ∧ ∃ g ∈ gs, chooseAlt repo target g = .entry d a inst

/-- The planned package `j` is a dependency that was chosen for the planned package `i`. -/
def Chosen (p : Plan) (i j : Nat) : Prop :=
  ∃ (n m : PNode) (d : Entry) (a : Alt) (inst : Bool), p.nodes[i]? = some n ∧
    p.nodes[j]? = some m ∧ Wants repo target n.entry d a inst ∧ d.package = m.entry.package

/-- A planned entry will do for the chosen entry `d` and the alternative `a`. -/
def Accepts (e d : Entry) (a : Alt) : Prop :=
  e.package = d.package ∧ (e = d ∨ debVersionSatisfies e.version a.op a.version = true)

/-- The plan has what was chosen for a group of the node `i`. -/
def Met (p : Plan) (i : Nat) : Choice → Prop
  | .present => True
  | .nothing => False
  | .entry d a inst => ∃ j m, p.nodes[j]? = some m ∧ Accepts m.entry d a ∧ (i, j) ∈ p.deps ∧
      (inst = true → m.installed = true)

/-- Why a node is not unpacked: the target has it, as somebody's dependency or as the requested
package. -/
def Marked (rootKept : Prop) (p : Plan) (j : Nat) (m : PNode) : Prop :=
  (j = 0 ∧ rootKept) ∨ ∃ (i : Nat) (n : PNode) (d : Entry) (a : Alt), p.nodes[i]? = some n ∧
    Wants repo target n.entry d a true ∧ d.package = m.entry.package

/-- The groups for which an entry of the repository is chosen. -/
def picked (g : List Alt) : Bool :=
  match chooseAlt repo target g with
  | .entry _ _ _ => true
  | _ => false

def picks (e : Entry) : Nat := ((groupsOf e).getD []).countP (picked repo target)

/-- The recorded dependencies of the nodes that are done. -/
def Plan.total (p : Plan) : Nat :=
  (p.nodes.map (fun n => if n.done = true then picks repo target n.entry else 0)).sum

/-- The invariant of `expand`. -/
structure Plan.Ok (rootKept : Prop) (p : Plan) : Prop where
  length : p.nodes.length ≤ maxNodes
  known : ∀ {i : Nat} {n : PNode}, p.nodes[i]? = some n → n.entry ∈ repo
  distinct : ∀ {i j : Nat} {n m : PNode}, p.nodes[i]? = some n → p.nodes[j]? = some m →
    n.entry.package = m.entry.package → i = j
  chosen : ∀ {i j : Nat}, (i, j) ∈ p.deps → Chosen repo target p i j
  met : ∀ {i : Nat} {n : PNode}, p.nodes[i]? = some n → n.done = true →
    ∃ gs, groupsOf n.entry = some gs ∧ ∀ g ∈ gs, Met p i (chooseAlt repo target g)
  marked : ∀ {j : Nat} {m : PNode}, p.nodes[j]? = some m → m.installed = true →
    Marked repo target rootKept p j m

end

/-! ## What is chosen -/

section

variable {repo : List Entry} {target : Target}

theorem foldl_betterEntry {ok : Entry → Bool} {e : Entry} : ∀ {l : List Entry} {best : Option Entry},
    l.foldl (betterEntry ok) best = some e → best = some e ∨ (e ∈ l ∧ ok e = true) := by
  intro l
  induction l with
  | nil =>
      intro best h
      exact Or.inl h
  | cons b l ih =>
      intro best h
      rcases ih h with hb | ⟨he, hok⟩
      · unfold betterEntry at hb
        split at hb
        · rename_i hbetter
          cases hb
          exact Or.inr ⟨List.mem_cons_self .., hbetter.1⟩
        · exact Or.inl hb
      · exact Or.inr ⟨List.mem_cons_of_mem _ he, hok⟩

theorem findBest_spec {name op version : Text} {e : Entry} (h : findBest repo name op version = some e) :
    e ∈ repo ∧ e.package = name ∧ debVersionSatisfies e.version op version = true := by
  rcases foldl_betterEntry h with hb | ⟨he, hok⟩
  · cases hb
  · exact ⟨he, of_decide_eq_true hok⟩

theorem findProvider_spec {name : Text} {e : Entry} (h : findProvider repo name = some e) :
    e ∈ repo ∧ providesName e name = true := by
  rcases foldl_betterEntry h with hb | hok
  · cases hb
  · exact hok

/-- An entry is chosen for its name, or because it provides the name of a package that the
repository does not have in a version that will do. -/
theorem tryAlt_entry {a a' : Alt} {d : Entry} {inst : Bool} (h : tryAlt repo target a = .entry d a' inst) :
    a' = a ∧
      ((findBest repo a.name a.op a.version = some d ∧
        inst = (target a.name).any (fun v => debVersionSatisfies v a.op a.version)) ∨
      (findBest repo a.name a.op a.version = none ∧ findProvider repo a.name = some d ∧
        inst = (target d.package).any (fun v => debVersionCompare v d.version = 0))) := by
  unfold tryAlt at h
  split at h
  · rename_i hsat
    split at h
    · rename_i e he
      cases h
      exact ⟨rfl, Or.inl ⟨he, hsat.symm⟩⟩
    · cases h
  · rename_i hsat
    split at h
    · rename_i e he
      cases h
      exact ⟨rfl, Or.inl ⟨he, by simpa using hsat⟩⟩
    · rename_i hnone
      split at h
      · rename_i e he
        cases h
        exact ⟨rfl, Or.inr ⟨hnone, he, rfl⟩⟩
      · cases h

theorem tryAlt_present {a : Alt} (h : tryAlt repo target a = .present) :
    (target a.name).any (fun v => debVersionSatisfies v a.op a.version) = true := by
  unfold tryAlt at h
  split at h
  · assumption
  · split at h
    · cases h
    · split at h
      · cases h
      · cases h

variable (repo target) in
/-- The alternative that is chosen (`chosen_alt`). -/
def chosenAlt : List Alt → Option Alt
  | [] => none
  | a :: alts =>
      match tryAlt repo target a with
      | .nothing => chosenAlt alts
      | _ => some a

theorem chooseAlt_eq_tryAlt : ∀ {g : List Alt}, chooseAlt repo target g ≠ .nothing →
    ∃ a ∈ g, chosenAlt repo target g = some a ∧ chooseAlt repo target g = tryAlt repo target a := by
  intro g
  induction g with
  | nil =>
      intro h
      exact absurd rfl h
  | cons a g ih =>
      intro h
      unfold chooseAlt at h ⊢
      unfold chosenAlt
      cases ht : tryAlt repo target a with
      | nothing =>
          rw [ht] at h
          obtain ⟨b, hb, hch, heq⟩ := ih h
          exact ⟨b, List.mem_cons_of_mem _ hb, hch, heq⟩
      | present => exact ⟨a, List.mem_cons_self .., rfl, ht.symm⟩
      | entry d b inst => exact ⟨a, List.mem_cons_self .., rfl, ht.symm⟩

theorem chooseAlt_entry {g : List Alt} {d : Entry} {a : Alt} {inst : Bool}
    (h : chooseAlt repo target g = .entry d a inst) : a ∈ g ∧ tryAlt repo target a = .entry d a inst := by
  obtain ⟨b, hb, -, heq⟩ := chooseAlt_eq_tryAlt (g := g) (by rw [h]; exact Choice.noConfusion)
  rw [h] at heq
  obtain ⟨rfl, -⟩ := tryAlt_entry heq.symm
  exact ⟨hb, heq.symm⟩

theorem Wants.mem_repo {e d : Entry} {a : Alt} {inst : Bool} (h : Wants repo target e d a inst) : d ∈ repo := by
  obtain ⟨gs, -, g, -, hch⟩ := h
  obtain ⟨-, hbest | ⟨-, hprov, -⟩⟩ := tryAlt_entry (chooseAlt_entry hch).2
  · exact (findBest_spec hbest.1).1
  · exact (findProvider_spec hprov).1

end

/-- A node that `expand` has still to visit. -/
def Plan.Idle (p : Plan) (i : Nat) : Prop :=
  ∃ n, p.nodes[i]? = some n ∧ n.done = false ∧ n.visiting = false

/-- A node with the same entry and at least the same marks. -/
structure PNode.Le (n n' : PNode) : Prop where
  entry : n'.entry = n.entry
  done : n.done = true → n'.done = true
  installed : n.installed = true → n'.installed = true

/-- A plan that has all that another one has. -/
structure Plan.Le (p p' : Plan) : Prop where
  node : ∀ {i : Nat} {n : PNode}, p.nodes[i]? = some n → ∃ n', p'.nodes[i]? = some n' ∧ n.Le n'
  deps : ∀ e ∈ p.deps, e ∈ p'.deps

/-- What `expand` keeps of a node: it leaves the nodes alone that the search is inside. -/
structure PNode.Grow (n n' : PNode) : Prop extends n.Le n' where
  visiting : n'.visiting = n.visiting
  inside : n.visiting = true → n'.done = n.done

/-- What `expand` keeps of a plan. -/
structure Grow (p p' : Plan) : Prop where
  node : ∀ {i : Nat} {n : PNode}, p.nodes[i]? = some n → ∃ n', p'.nodes[i]? = some n' ∧ n.Grow n'
  fresh : ∀ {i : Nat} {n' : PNode}, p'.nodes[i]? = some n' → p.nodes[i]? = none → n'.visiting = false
  deps : ∀ e ∈ p.deps, e ∈ p'.deps

theorem PNode.Le.refl (n : PNode) : n.Le n := ⟨rfl, id, id⟩

theorem PNode.Le.trans {n n' n'' : PNode} (h : n.Le n') (h' : n'.Le n'') : n.Le n'' where
  entry := h'.entry.trans h.entry
  done := fun hd => h'.done (h.done hd)
  installed := fun hi => h'.installed (h.installed hi)

theorem PNode.Grow.refl (n : PNode) : n.Grow n := ⟨PNode.Le.refl n, rfl, fun _ => rfl⟩

theorem PNode.Grow.trans {n n' n'' : PNode} (h : n.Grow n') (h' : n'.Grow n'') : n.Grow n'' where
  toLe := h.toLe.trans h'.toLe
  visiting := h'.visiting.trans h.visiting
  inside := fun hv => (h'.inside (h.visiting.trans hv)).trans (h.inside hv)

theorem Grow.le {p q : Plan} (h : Grow p q) : p.Le q where
  node := by
    intro i n hn
    obtain ⟨n', hn', hg⟩ := h.node hn
    exact ⟨n', hn', hg.toLe⟩
  deps := h.deps

theorem Grow.refl (p : Plan) : Grow p p where
  node := fun {_ n} h => ⟨n, h, PNode.Grow.refl n⟩
  fresh := fun h h' => by rw [h] at h'; cases h'
  deps := fun _ h => h

theorem Grow.trans {p q r : Plan} (h : Grow p q) (h' : Grow q r) : Grow p r where
  node := by
    intro i n hn
    obtain ⟨n', hn', hg⟩ := h.node hn
    obtain ⟨n'', hn'', hg'⟩ := h'.node hn'
    exact ⟨n'', hn'', hg.trans hg'⟩
  fresh := by
    intro i n'' hn'' hp
    cases hq : q.nodes[i]? with
    | none => exact h'.fresh hn'' hq
    | some n' =>
        obtain ⟨m, hm, hg⟩ := h'.node hq
        obtain rfl : m = n'' := Option.some.inj (hm.symm.trans hn'')
        rw [hg.visiting]
        exact h.fresh hq hp
  deps := fun e he => h'.deps e (h.deps e he)

/-! ## Single changes -/

@[simp] theorem Plan.modify_deps (p : Plan) (i : Nat) (f : PNode → PNode) : (p.modify i f).deps = p.deps := rfl

theorem Plan.modify_same {p : Plan} {i : Nat} {n : PNode} (f : PNode → PNode) (h : p.nodes[i]? = some n) :
    (p.modify i f).nodes[i]? = some (f n) := by
  show (p.nodes.modify i f)[i]? = _
  rw [List.getElem?_modify, h]
  simp

theorem Plan.modify_other {p : Plan} {i j : Nat} (f : PNode → PNode) (h : i ≠ j) :
    (p.modify i f).nodes[j]? = p.nodes[j]? := by
  show (p.nodes.modify i f)[j]? = _
  rw [List.getElem?_modify]
  simp [h]

@[simp] theorem Plan.modify_length (p : Plan) (i : Nat) (f : PNode → PNode) :
    (p.modify i f).nodes.length = p.nodes.length := List.length_modify ..

/-- A change of one node that leaves its entry alone, seen from the new plan. -/
theorem Plan.of_modify {p : Plan} {i j : Nat} {f : PNode → PNode} {n' : PNode}
    (h : (p.modify i f).nodes[j]? = some n') :
    ∃ n, p.nodes[j]? = some n ∧ ((i = j ∧ n' = f n) ∨ (i ≠ j ∧ n' = n)) := by
  by_cases hij : i = j
  · obtain rfl := hij
    cases hn : p.nodes[i]? with
    | none =>
        have : (p.nodes.modify i f)[i]? = none := by
          rw [List.getElem?_modify, hn]
          rfl
        exact absurd (h.symm.trans this) (by simp)
    | some n =>
        rw [Plan.modify_same f hn] at h
        exact ⟨n, rfl, Or.inl ⟨rfl, (Option.some.inj h).symm⟩⟩
  · rw [Plan.modify_other f hij] at h
    exact ⟨n', h, Or.inr ⟨hij, rfl⟩⟩

theorem sum_map_modify {α : Type} (g : α → Nat) (f : α → α) :
    ∀ (l : List α) (i : Nat) {a : α}, l[i]? = some a →
      ((l.modify i f).map g).sum + g a = (l.map g).sum + g (f a) := by
  intro l
  induction l with
  | nil =>
      intro i a h
      simp at h
  | cons b l ih =>
      intro i a h
      cases i with
      | zero =>
          obtain rfl : b = a := by simpa using h
          simp [List.modify_zero_cons]
          omega
      | succ i =>
          have := ih i (by simpa using h)
          simp only [List.modify_succ_cons, List.map_cons, List.sum_cons]
          omega

section

variable {repo : List Entry} {target : Target} {rootKept : Prop} {p q : Plan}

theorem Met.mono {i : Nat} (h : p.Le q) : ∀ {c : Choice}, Met p i c → Met q i c := by
  intro c hc
  cases c with
  | present => exact trivial
  | nothing => exact hc
  | entry d a inst =>
      obtain ⟨j, m, hm, hacc, hdep, hinst⟩ := hc
      obtain ⟨m', hm', hg⟩ := h.node hm
      refine ⟨j, m', hm', ?_, h.deps _ hdep, fun hi => hg.installed (hinst hi)⟩
      rw [hg.entry]
      exact hacc

theorem Chosen.mono {i j : Nat} (h : p.Le q) (hc : Chosen repo target p i j) :
    Chosen repo target q i j := by
  obtain ⟨n, m, d, a, inst, hn, hm, hw, hd⟩ := hc
  obtain ⟨n', hn', hgn⟩ := h.node hn
  obtain ⟨m', hm', hgm⟩ := h.node hm
  refine ⟨n', m', d, a, inst, hn', hm', ?_, ?_⟩
  · rw [hgn.entry]
    exact hw
  · rw [hgm.entry]
    exact hd

theorem Marked.mono {j : Nat} {m m' : PNode} (h : p.Le q) (hm : m'.entry = m.entry)
    (hc : Marked repo target rootKept p j m) : Marked repo target rootKept q j m' := by
  rcases hc with hroot | ⟨i, n, d, a, hn, hw, hd⟩
  · exact Or.inl hroot
  · obtain ⟨n', hn', hg⟩ := h.node hn
    refine Or.inr ⟨i, n', d, a, hn', ?_, ?_⟩
    · rw [hg.entry]
      exact hw
    · rw [hm]
      exact hd

/-- A plan with one node changed in its marks only. -/
theorem le_modify {i : Nat} {f : PNode → PNode} (hf : ∀ n, p.nodes[i]? = some n → n.Le (f n)) :
    p.Le (p.modify i f) where
  node := by
    intro j n hn
    by_cases hij : i = j
    · obtain rfl := hij
      exact ⟨f n, Plan.modify_same f hn, hf n hn⟩
    · exact ⟨n, (Plan.modify_other f hij).trans hn, PNode.Le.refl n⟩
  deps := fun _ h => h

theorem Plan.Ok.modify (hok : p.Ok repo target rootKept) {i : Nat} {f : PNode → PNode}
    (hf : ∀ n, p.nodes[i]? = some n → n.Le (f n))
    (hmet : ∀ n, p.nodes[i]? = some n → (f n).done = true → n.done = false →
      ∃ gs, groupsOf n.entry = some gs ∧ ∀ g ∈ gs, Met p i (chooseAlt repo target g))
    (hmark : ∀ n, p.nodes[i]? = some n → (f n).installed = true → n.installed = false →
      Marked repo target rootKept p i n) : (p.modify i f).Ok repo target rootKept := by
  have hle : p.Le (p.modify i f) := le_modify hf
  have hentry : ∀ {j : Nat} {n' : PNode}, (p.modify i f).nodes[j]? = some n' →
      ∃ n, p.nodes[j]? = some n ∧ n'.entry = n.entry := by
    intro j n' hn'
    obtain ⟨n, hn, ⟨rfl, rfl⟩ | ⟨-, rfl⟩⟩ := Plan.of_modify hn'
    · exact ⟨n, hn, (hf n hn).entry⟩
    · exact ⟨n', hn, rfl⟩
  refine ⟨?_, ?_, ?_, fun hd => (hok.chosen hd).mono hle, ?_, ?_⟩
  · rw [Plan.modify_length]
    exact hok.length
  · intro j n' hn'
    obtain ⟨n, hn, he⟩ := hentry hn'
    rw [he]
    exact hok.known hn
  · intro j k n m hn hm hnm
    obtain ⟨n₀, hn₀, hne⟩ := hentry hn
    obtain ⟨m₀, hm₀, hme⟩ := hentry hm
    rw [hne, hme] at hnm
    exact hok.distinct hn₀ hm₀ hnm
  · intro j n' hn' hdone
    have hold : ∃ n, p.nodes[j]? = some n ∧ n'.entry = n.entry ∧ ∃ gs, groupsOf n.entry = some gs ∧
        ∀ g ∈ gs, Met p j (chooseAlt repo target g) := by
      obtain ⟨n, hn, ⟨rfl, rfl⟩ | ⟨-, rfl⟩⟩ := Plan.of_modify hn'
      · by_cases hd : n.done = true
        · exact ⟨n, hn, (hf n hn).entry, hok.met hn hd⟩
        · exact ⟨n, hn, (hf n hn).entry, hmet n hn hdone (by simpa using hd)⟩
      · exact ⟨n', hn, rfl, hok.met hn hdone⟩
    obtain ⟨n, hn, he, gs, hgs, h⟩ := hold
    rw [he]
    exact ⟨gs, hgs, fun g hg => (h g hg).mono hle⟩
  · intro j n' hn' hinst
    obtain ⟨n, hn, ⟨rfl, rfl⟩ | ⟨-, rfl⟩⟩ := Plan.of_modify hn'
    · by_cases hi : n.installed = true
      · exact (hok.marked hn hi).mono hle (hf n hn).entry
      · exact (hmark n hn hinst (by simpa using hi)).mono hle (hf n hn).entry
    · exact (hok.marked hn hinst).mono hle rfl

theorem getElem?_snoc {α : Type} {l : List α} {x a : α} {i : Nat} :
    (l ++ [x])[i]? = some a ↔ l[i]? = some a ∨ (i = l.length ∧ a = x) := by
  rcases Nat.lt_trichotomy i l.length with h | h | h
  · rw [List.getElem?_append_left h]
    exact ⟨Or.inl, fun hor => hor.resolve_right (fun hr => by omega)⟩
  · obtain rfl := h
    simp [eq_comm]
  · rw [List.getElem?_eq_none (by simp; omega), List.getElem?_eq_none (by omega)]
    simp
    omega

theorem getElem?_some_of_find {i : Nat} {package : Text} (h : p.find package = some i) :
    ∃ m, p.nodes[i]? = some m ∧ m.entry.package = package := by
  obtain ⟨hlt, hm, -⟩ := List.findIdx?_eq_some_iff_getElem.mp h
  exact ⟨p.nodes[i], List.getElem?_eq_getElem hlt, by simpa using hm⟩

theorem package_ne_of_find {package : Text} (h : p.find package = none) {i : Nat} {m : PNode}
    (hm : p.nodes[i]? = some m) : m.entry.package ≠ package := by
  have := List.findIdx?_eq_none_iff.mp h m (List.mem_of_getElem? hm)
  simpa using this

/-- The node of a package is the one that `clashes` looked at. -/
theorem satisfies_of_not_clashes {a : Alt} (hok : p.Ok repo target rootKept) {i : Nat} {m : PNode}
    (hm : p.nodes[i]? = some m) (h : ¬ clashes p m.entry.package a = true) :
    debVersionSatisfies m.entry.version a.op a.version = true := by
  unfold clashes at h
  cases hf : p.nodes.find? (fun n => n.entry.package = m.entry.package) with
  | none =>
      have := List.find?_eq_none.mp hf m (List.mem_of_getElem? hm)
      simp at this
  | some n =>
      have hn : n.entry.package = m.entry.package := by simpa using List.find?_some hf
      obtain ⟨j, hj⟩ := List.mem_iff_getElem?.mp (List.mem_of_find?_eq_some hf)
      obtain rfl := hok.distinct hj hm hn
      obtain rfl : n = m := Option.some.inj (hj.symm.trans hm)
      rw [hf] at h
      simpa using h

/-- Adding a node for an entry whose package is not planned. -/
theorem Plan.Ok.snoc (hok : p.Ok repo target rootKept) {e : Entry} (he : e ∈ repo) (hlen : p.nodes.length < maxNodes)
    (hfind : p.find e.package = none) {r : Plan} (hr : r = { p with nodes := p.nodes ++ [⟨e, false, false, false⟩] }) :
    Grow p r ∧ r.Ok repo target rootKept := by
  have hnodes : ∀ {i : Nat} {n : PNode}, r.nodes[i]? = some n ↔
      p.nodes[i]? = some n ∨ (i = p.nodes.length ∧ n = ⟨e, false, false, false⟩) := by
    rw [hr]
    exact getElem?_snoc
  have hdeps : r.deps = p.deps := by rw [hr]
  have hgrow : Grow p r := by
    refine ⟨fun {i n} hn => ⟨n, hnodes.mpr (Or.inl hn), PNode.Grow.refl n⟩, ?_, by rw [hdeps]; exact fun _ h => h⟩
    intro i n' hn' hp
    rcases hnodes.mp hn' with h | ⟨-, rfl⟩
    · rw [hp] at h
      cases h
    · rfl
  refine ⟨hgrow, ?_, ?_, ?_, ?_, ?_, ?_⟩
  · rw [hr]
    simp
    omega
  · intro i n hn
    rcases hnodes.mp hn with hn | ⟨-, rfl⟩
    · exact hok.known hn
    · exact he
  · intro i j n m hn hm hnm
    rcases hnodes.mp hn with hn | ⟨rfl, rfl⟩
    · rcases hnodes.mp hm with hm | ⟨rfl, rfl⟩
      · exact hok.distinct hn hm hnm
      · exact absurd hnm (package_ne_of_find hfind hn)
    · rcases hnodes.mp hm with hm | ⟨rfl, rfl⟩
      · exact absurd hnm.symm (package_ne_of_find hfind hm)
      · rfl
  · intro i j hd
    rw [hdeps] at hd
    exact (hok.chosen hd).mono hgrow.le
  · intro i n hn hdone
    rcases hnodes.mp hn with hn | ⟨rfl, rfl⟩
    · obtain ⟨gs, hgs, h⟩ := hok.met hn hdone
      exact ⟨gs, hgs, fun g hg => (h g hg).mono hgrow.le⟩
    · cases hdone
  · intro j m hm hinst
    rcases hnodes.mp hm with hm | ⟨rfl, rfl⟩
    · exact (hok.marked hm hinst).mono hgrow.le rfl
    · cases hinst

theorem nodeFor_spec (hok : p.Ok repo target rootKept) {d : Entry} (hd : d ∈ repo) {di : Nat}
    (h : nodeFor p d = some (q, di)) :
    Grow p q ∧ q.Ok repo target rootKept ∧ q.deps = p.deps ∧ q.total repo target = p.total repo target ∧
      (∀ i, q.Idle i → p.Idle i ∨ i = di) ∧
      ∃ m, q.nodes[di]? = some m ∧ m.entry.package = d.package ∧ (m.entry = d ∨ p.nodes[di]? = some m) := by
  unfold nodeFor at h
  cases hfind : p.find d.package with
  | some i =>
      rw [hfind] at h
      cases h
      obtain ⟨m, hm, hpkg⟩ := getElem?_some_of_find hfind
      exact ⟨Grow.refl p, hok, rfl, rfl, fun i hi => Or.inl hi, m, hm, hpkg, Or.inr hm⟩
  | none =>
      rw [hfind] at h
      dsimp only [] at h
      split at h
      · cases h
      · cases h
        obtain ⟨hgrow, hok'⟩ := hok.snoc hd (by omega) hfind rfl
        refine ⟨hgrow, hok', rfl, ?_, ?_, _, getElem?_snoc.mpr (Or.inr ⟨rfl, rfl⟩), rfl, Or.inl rfl⟩
        · simp [Plan.total]
        · rintro i ⟨n, hn, hidle⟩
          rcases getElem?_snoc.mp hn with hn | ⟨rfl, -⟩
          · exact Or.inl ⟨n, hn, hidle⟩
          · exact Or.inr rfl

theorem Plan.Ok.addEdge (hok : p.Ok repo target rootKept) {i j : Nat}
    (hc : Chosen repo target p i j) : (addEdge p i j).Ok repo target rootKept := by
  have hle : p.Le (Guppy.Pkg.addEdge p i j) :=
    ⟨fun {_ n} hn => ⟨n, hn, PNode.Le.refl n⟩, fun _ he => List.mem_cons_of_mem _ he⟩
  refine ⟨hok.length, hok.known, hok.distinct, ?_, ?_, fun hm hi => (hok.marked hm hi).mono hle rfl⟩
  · intro a b hab
    rcases List.mem_cons.mp hab with hab | hab
    · cases hab
      exact hc.mono hle
    · exact (hok.chosen hab).mono hle
  · intro a n hn hdone
    obtain ⟨gs, hgs, h⟩ := hok.met hn hdone
    exact ⟨gs, hgs, fun g hg => (h g hg).mono hle⟩

theorem grow_addEdge (p : Plan) (i j : Nat) : Grow p (addEdge p i j) where
  node := fun {_ n} hn => ⟨n, hn, PNode.Grow.refl n⟩
  fresh := fun hn hp => by
    rw [show p.nodes = (addEdge p i j).nodes from rfl, hn] at hp
    cases hp
  deps := fun _ he => List.mem_cons_of_mem _ he

theorem grow_modify {i : Nat} {f : PNode → PNode} (hf : ∀ n, p.nodes[i]? = some n → n.Grow (f n)) :
    Grow p (p.modify i f) where
  node := by
    intro j n hn
    by_cases hij : i = j
    · obtain rfl := hij
      exact ⟨f n, Plan.modify_same f hn, hf n hn⟩
    · exact ⟨n, (Plan.modify_other f hij).trans hn, PNode.Grow.refl n⟩
  fresh := by
    intro j n' hn' hp
    obtain ⟨n, hn, -⟩ := Plan.of_modify hn'
    rw [hn] at hp
    cases hp
  deps := fun _ h => h

/-- The mark of a package that the target has. -/
def keepNode (inst : Bool) (n : PNode) : PNode := if inst = true then { n with installed := true } else n

theorem keepNode_grow (inst : Bool) (n : PNode) : n.Grow (keepNode inst n) := by
  unfold keepNode
  split
  · exact ⟨⟨rfl, id, fun _ => rfl⟩, rfl, fun _ => rfl⟩
  · exact PNode.Grow.refl n

theorem modify_keepNode (p : Plan) (i : Nat) (inst : Bool) :
    (if inst = true then p.modify i (fun n => { n with installed := true }) else p) =
      p.modify i (keepNode inst) := by
  cases inst with
  | true => rfl
  | false =>
      have : keepNode false = id := rfl
      rw [this]
      simp [Plan.modify]

/-- What the loop does for one group before it goes on with the node of the chosen entry. -/
theorem link_spec (hok : p.Ok repo target rootKept) {n : PNode} {d : Entry} {a : Alt} {inst : Bool}
    {ni di : Nat} (hn : p.nodes[ni]? = some n) (hw : Wants repo target n.entry d a inst)
    (hcl : ¬ clashes p d.package a = true) (h : nodeFor p d = some (q, di)) {r : Plan}
    (hr : r = addEdge (q.modify di (keepNode inst)) ni di) :
    Grow p r ∧ r.Ok repo target rootKept ∧ Met r ni (.entry d a inst) ∧ (∃ m, r.nodes[di]? = some m) ∧
      (∀ i, r.Idle i → p.Idle i ∨ i = di) ∧ r.deps.length = p.deps.length + 1 ∧
      r.total repo target = p.total repo target := by
  obtain ⟨hgq, hokq, hdeps, htot, hidle, m, hm, hpkg, hacc⟩ := nodeFor_spec hok hw.mem_repo h
  obtain ⟨n', hn', hgn⟩ := hgq.node hn
  have hw' : Wants repo target n'.entry d a inst := by
    rw [hgn.entry]
    exact hw
  have hgm : Grow q (q.modify di (keepNode inst)) := grow_modify (fun n _ => keepNode_grow inst n)
  have hokm : (q.modify di (keepNode inst)).Ok repo target rootKept := by
    refine hokq.modify (fun n _ => (keepNode_grow inst n).toLe) ?_ ?_
    · intro k _ hk hk'
      rw [show (keepNode inst k).done = k.done by unfold keepNode; split <;> rfl, hk'] at hk
      cases hk
    · intro k hk hi hi'
      obtain rfl : m = k := Option.some.inj (hm.symm.trans hk)
      cases inst with
      | true => exact Or.inr ⟨ni, n', d, a, hn', hw', hpkg.symm⟩
      | false => exact absurd (hi'.symm.trans hi) (by simp)
  have hchosen : Chosen repo target (q.modify di (keepNode inst)) ni di := by
    refine Chosen.mono hgm.le ⟨n', m, d, a, inst, hn', hm, hw', hpkg.symm⟩
  have hmr : r.nodes[di]? = some (keepNode inst m) := by
    rw [hr]
    exact Plan.modify_same _ hm
  refine ⟨?_, ?_, ?_, ⟨_, hmr⟩, ?_, ?_, ?_⟩
  · rw [hr]
    exact (hgq.trans hgm).trans (grow_addEdge _ ni di)
  · rw [hr]
    exact hokm.addEdge hchosen
  · refine ⟨di, keepNode inst m, hmr, ?_, ?_, ?_⟩
    · rw [(keepNode_grow inst m).entry]
      refine ⟨hpkg, ?_⟩
      rcases hacc with hacc | hacc
      · exact Or.inl hacc
      · exact Or.inr (satisfies_of_not_clashes hok hacc (by rwa [hpkg]))
    · rw [hr]
      exact List.mem_cons_self ..
    · rintro rfl
      rfl
  · rintro i ⟨k', hk', hki⟩
    rw [hr] at hk'
    obtain ⟨k, hk, hor⟩ := Plan.of_modify (show (q.modify di (keepNode inst)).nodes[i]? = some k' from hk')
    refine hidle i ⟨k, hk, ?_⟩
    rcases hor with ⟨-, rfl⟩ | ⟨-, rfl⟩
    · unfold keepNode at hki
      split at hki <;> exact hki
    · exact hki
  · rw [hr]
    simp [Guppy.Pkg.addEdge, hdeps]
  · rw [hr, ← htot]
    have hsum := sum_map_modify (fun n => if n.done = true then picks repo target n.entry else 0)
      (keepNode inst) q.nodes di hm
    have hsame : (if (keepNode inst m).done = true then picks repo target (keepNode inst m).entry else 0) =
        (if m.done = true then picks repo target m.entry else 0) := by
      unfold keepNode
      split <;> rfl
    rw [hsame] at hsum
    exact Nat.add_right_cancel hsum

/-! ## The search -/

variable (repo target rootKept) in
/-- What expanding the node `ni` comes to. -/
structure Expanded (p p' : Plan) (ni : Nat) : Prop where
  grow : Grow p p'
  ok : p'.Ok repo target rootKept
  idle : ∀ i, p'.Idle i → p.Idle i ∧ i ≠ ni
  count : p'.deps.length + p.total repo target = p.deps.length + p'.total repo target

/-- The loop over the groups, given what expanding a node does. -/
theorem expandGroups_spec {ex : Plan → Nat → Option Plan}
    (hex : ∀ {p p' : Plan} {ni : Nat}, p.Ok repo target rootKept → ex p ni = some p' →
      Expanded repo target rootKept p p' ni) {ni : Nat} {e : Entry} {all : List (List Alt)}
    (hall : groupsOf e = some all) :
    ∀ (gs : List (List Alt)) {p p' : Plan} {n : PNode}, (∀ g ∈ gs, g ∈ all) →
      p.Ok repo target rootKept → p.nodes[ni]? = some n → n.entry = e →
      expandGroups repo target ex ni gs p = some p' →
      Grow p p' ∧ p'.Ok repo target rootKept ∧ (∀ g ∈ gs, Met p' ni (chooseAlt repo target g)) ∧
        (∀ i, p'.Idle i → p.Idle i) ∧
        p'.deps.length + p.total repo target =
          p.deps.length + p'.total repo target + gs.countP (picked repo target) := by
  intro gs
  induction gs with
  | nil =>
      intro p p' n _ hok _ _ h
      cases h
      exact ⟨Grow.refl p, hok, fun g hg => by simp at hg, fun _ hi => hi, by simp⟩
  | cons g gs ih =>
      intro p p' n hsub hok hn he h
      unfold expandGroups at h
      have hgs : ∀ g ∈ gs, g ∈ all := fun g hg => hsub g (List.mem_cons_of_mem _ hg)
      cases hc : chooseAlt repo target g with
      | nothing =>
          rw [hc] at h
          cases h
      | present =>
          rw [hc] at h
          obtain ⟨hgrow, hok', hmet, hidle, hcount⟩ := ih hgs hok hn he h
          refine ⟨hgrow, hok', ?_, hidle, ?_⟩
          · intro g' hg'
            rcases List.mem_cons.mp hg' with rfl | hg'
            · rw [hc]
              exact trivial
            · exact hmet g' hg'
          · have hp : picked repo target g = false := by
              unfold picked
              rw [hc]
            rw [List.countP_cons_of_neg (by simp [hp])]
            exact hcount
      | entry d a inst =>
          rw [hc] at h
          dsimp only [] at h
          split at h
          · cases h
          · rename_i hcl
            obtain ⟨⟨q, di⟩, hq, h⟩ := Option.bind_eq_some_iff.mp h
            dsimp only [] at h
            rw [modify_keepNode] at h
            obtain ⟨t, ht, h⟩ := Option.bind_eq_some_iff.mp h
            have hw : Wants repo target n.entry d a inst :=
              ⟨all, by rw [he]; exact hall, g, hsub g (List.mem_cons_self ..), hc⟩
            obtain ⟨hgr, hokr, hmetr, -, hidler, hdepsr, htotr⟩ := link_spec hok hn hw hcl hq rfl
            have hexp := hex hokr ht
            obtain ⟨n', hn', hgn⟩ := (hgr.trans hexp.grow).node hn
            obtain ⟨hgrow, hok', hmet, hidle, hcount⟩ :=
              ih hgs hexp.ok hn' (hgn.entry.trans he) h
            refine ⟨(hgr.trans hexp.grow).trans hgrow, hok', ?_, ?_, ?_⟩
            · intro g' hg'
              rcases List.mem_cons.mp hg' with rfl | hg'
              · rw [hc]
                exact (hmetr.mono hexp.grow.le).mono hgrow.le
              · exact hmet g' hg'
            · -- the node that was added is expanded at once
              intro i hi
              obtain ⟨hi, hne⟩ := hexp.idle i (hidle i hi)
              exact (hidler i hi).resolve_right hne
            · have hp : picked repo target g = true := by
                unfold picked
                rw [hc]
              have := hexp.count
              rw [List.countP_cons_of_pos hp]
              omega

theorem expand_spec (fuel : Nat) : ∀ {p p' : Plan} {ni : Nat}, p.Ok repo target rootKept →
    expand repo target fuel p ni = some p' → Expanded repo target rootKept p p' ni := by
  induction fuel with
  | zero =>
      intro p p' ni _ h
      cases h
  | succ fuel ih =>
      intro p p' ni hok h
      unfold expand at h
      cases hn : p.nodes[ni]? with
      | none =>
          rw [hn] at h
          cases h
      | some n =>
          rw [hn] at h
          dsimp only [] at h
          split at h
          · rename_i hbusy
            cases h
            refine ⟨Grow.refl p, hok, fun i hi => ⟨hi, ?_⟩, rfl⟩
            rintro rfl
            obtain ⟨m, hm, hdone, hvis⟩ := hi
            obtain rfl : n = m := Option.some.inj (hn.symm.trans hm)
            rw [hdone, hvis] at hbusy
            simp at hbusy
          · rename_i hfree
            obtain ⟨hdone, hvis⟩ : n.done = false ∧ n.visiting = false := by simpa using hfree
            obtain ⟨all, hall, h⟩ := Option.bind_eq_some_iff.mp h
            obtain ⟨t, ht, h⟩ := Option.bind_eq_some_iff.mp h
            cases h
            -- the node is being expanded while the loop over its groups runs
            have hle₁ : p.Le (p.modify ni (fun n => { n with visiting := true })) :=
              le_modify (fun n _ => ⟨rfl, id, id⟩)
            have hok₁ : (p.modify ni (fun n => { n with visiting := true })).Ok repo target rootKept :=
              hok.modify (fun n _ => ⟨rfl, id, id⟩)
                (fun n _ hd hd' => absurd (hd'.symm.trans hd) (by simp))
                (fun n _ hi hi' => absurd (hi'.symm.trans hi) (by simp))
            have hn₁ := Plan.modify_same (fun n => { n with visiting := true }) hn
            have htot₁ : (p.modify ni (fun n => { n with visiting := true })).total repo target =
                p.total repo target := by
              have := sum_map_modify (fun n => if n.done = true then picks repo target n.entry else 0)
                (fun n => { n with visiting := true }) p.nodes ni hn
              exact Nat.add_right_cancel this
            obtain ⟨hgrow, hok₂, hmet, hidle, hcount⟩ :=
              expandGroups_spec (fun hok hx => ih hok hx) hall all (fun _ hg => hg) hok₁ hn₁ rfl ht
            obtain ⟨n₂, hn₂, hg₂⟩ := hgrow.node hn₁
            have hdone₂ : n₂.done = false := (hg₂.inside rfl).trans hdone
            have hn₃ := Plan.modify_same (fun n => { n with visiting := false, done := true }) hn₂
            refine ⟨⟨?_, ?_, ?_⟩, ?_, ?_, ?_⟩
            · intro i k hk
              by_cases hi : ni = i
              · obtain rfl := hi
                obtain rfl : n = k := Option.some.inj (hn.symm.trans hk)
                refine ⟨_, hn₃, ⟨⟨hg₂.entry, fun _ => rfl, hg₂.installed⟩, hvis.symm, fun hv => ?_⟩⟩
                rw [hvis] at hv
                cases hv
              · rw [Plan.modify_other _ hi]
                exact hgrow.node ((Plan.modify_other _ hi).trans hk)
            · intro i k hk hp
              have hi : ni ≠ i := by
                rintro rfl
                rw [hn] at hp
                cases hp
              rw [Plan.modify_other _ hi] at hk
              exact hgrow.fresh hk ((Plan.modify_other _ hi).trans hp)
            · exact hgrow.deps
            · refine hok₂.modify (fun k _ => ⟨rfl, fun _ => rfl, id⟩) ?_ ?_
              · intro k hk _ _
                obtain rfl : n₂ = k := Option.some.inj (hn₂.symm.trans hk)
                exact ⟨all, by rw [hg₂.entry]; exact hall, hmet⟩
              · exact fun k _ hi hi' => absurd (hi'.symm.trans hi) (by simp)
            · rintro i ⟨k, hk, hkd, hkv⟩
              have hi : ni ≠ i := by
                rintro rfl
                obtain rfl := Option.some.inj (hn₃.symm.trans hk)
                cases hkd
              rw [Plan.modify_other _ hi] at hk
              obtain ⟨m, hm, hmi⟩ := hidle i ⟨k, hk, hkd, hkv⟩
              rw [Plan.modify_other _ hi] at hm
              exact ⟨⟨m, hm, hmi⟩, hi.symm⟩
            · have hsum := sum_map_modify (fun n => if n.done = true then picks repo target n.entry else 0)
                (fun n => { n with visiting := false, done := true }) t.nodes ni hn₂
              have hpicks : picks repo target n₂.entry = all.countP (picked repo target) := by
                unfold picks
                rw [hg₂.entry, show groupsOf _ = some all from hall]
                rfl
              rw [if_neg (by simp [hdone₂]), if_pos rfl, hpicks] at hsum
              have htot : (t.modify ni (fun n => { n with visiting := false, done := true })).total repo target =
                  t.total repo target + all.countP (picked repo target) := hsum
              rw [htot₁] at hcount
              rw [htot, Plan.modify_deps, hcount, Plan.modify_deps]
              omega

/-! ## The recursion ends

A node that is being expanded is not expanded again, so with `maxNodes` nodes the recursion is at
most that deep and the fuel of `buildPlan` is never used up.
-/

/-- The number of nodes that the search is inside. -/
def Plan.depth (p : Plan) : Nat := (p.nodes.map (·.visiting)).count true

theorem Grow.map_visiting (h : Grow p q) : ∃ k, q.nodes.map (·.visiting) =
    p.nodes.map (·.visiting) ++ List.replicate k false := by
  refine ⟨q.nodes.length - p.nodes.length, List.ext_getElem? (fun i => ?_)⟩
  have hlen : p.nodes.length ≤ q.nodes.length := by
    by_contra hlt
    obtain ⟨n', hn', -⟩ := h.node (List.getElem?_eq_getElem (l := p.nodes) (i := q.nodes.length) (by omega))
    rw [List.getElem?_eq_none (le_refl _)] at hn'
    cases hn'
  rw [List.getElem?_map]
  by_cases hi : i < p.nodes.length
  · obtain ⟨n', hn', hg⟩ := h.node (List.getElem?_eq_getElem hi)
    rw [List.getElem?_append_left (by simpa using hi), List.getElem?_map, hn', List.getElem?_eq_getElem hi]
    simp [hg.visiting]
  · rw [List.getElem?_append_right (by simp; omega), List.length_map]
    by_cases hq : i < q.nodes.length
    · have hv := h.fresh (List.getElem?_eq_getElem hq) (List.getElem?_eq_none (by omega))
      rw [List.getElem?_eq_getElem hq, List.getElem?_replicate, if_pos (by omega)]
      simp [hv]
    · rw [List.getElem?_eq_none (by omega), List.getElem?_eq_none (by simp; omega)]
      rfl

theorem Grow.depth (h : Grow p q) : q.depth = p.depth := by
  obtain ⟨k, hk⟩ := h.map_visiting
  unfold Plan.depth
  rw [hk, List.count_append, List.count_replicate]
  simp

theorem Plan.Ok.depth_le (hok : p.Ok repo target rootKept) : p.depth ≤ maxNodes := by
  have := List.count_le_length (a := true) (l := p.nodes.map (·.visiting))
  rw [List.length_map] at this
  exact this.trans hok.length

theorem depth_enter {ni : Nat} {n : PNode} (hn : p.nodes[ni]? = some n) (hv : n.visiting = false) :
    (p.modify ni (fun n => { n with visiting := true })).depth = p.depth + 1 := by
  have hcount : ∀ l : List PNode, (l.map (·.visiting)).count true =
      (l.map (fun n => if n.visiting = true then 1 else 0)).sum := by
    intro l
    induction l with
    | nil => rfl
    | cons b l ih =>
        rw [List.map_cons, List.map_cons, List.sum_cons, List.count_cons, ih]
        cases b.visiting <;> simp [Nat.add_comm]
  have hsum := sum_map_modify (fun n => if n.visiting = true then 1 else 0)
    (fun n => { n with visiting := true }) p.nodes ni hn
  rw [if_neg (by simp [hv]), if_pos rfl] at hsum
  unfold Plan.depth
  rw [hcount, hcount]
  exact hsum

/-- Two ways to expand that agree on every plan the loop can hand to them. -/
theorem expandGroups_congr {ex ex' : Plan → Nat → Option Plan}
    (hex : ∀ {p p' : Plan} {ni : Nat}, p.Ok repo target rootKept → ex p ni = some p' →
      Expanded repo target rootKept p p' ni) {depth ni : Nat}
    (heq : ∀ {p : Plan} {i : Nat}, p.Ok repo target rootKept → p.depth = depth → ex' p i = ex p i)
    {e : Entry} {all : List (List Alt)} (hall : groupsOf e = some all) :
    ∀ (gs : List (List Alt)) {p : Plan} {n : PNode}, (∀ g ∈ gs, g ∈ all) →
      p.Ok repo target rootKept → p.depth = depth → p.nodes[ni]? = some n → n.entry = e →
      expandGroups repo target ex' ni gs p = expandGroups repo target ex ni gs p := by
  intro gs
  induction gs with
  | nil =>
      intro p n _ _ _ _ _
      rfl
  | cons g gs ih =>
      intro p n hsub hok hdepth hn he
      have hgs : ∀ g ∈ gs, g ∈ all := fun g hg => hsub g (List.mem_cons_of_mem _ hg)
      unfold expandGroups
      cases hc : chooseAlt repo target g with
      | nothing => rfl
      | present => exact ih hgs hok hdepth hn he
      | entry d a inst =>
          dsimp only []
          split
          · rfl
          · rename_i hcl
            cases hq : nodeFor p d with
            | none => rfl
            | some qd =>
                obtain ⟨q, di⟩ := qd
                have hw : Wants repo target n.entry d a inst :=
                  ⟨all, by rw [he]; exact hall, g, hsub g (List.mem_cons_self ..), hc⟩
                obtain ⟨hgr, hokr, -⟩ := link_spec hok hn hw hcl hq rfl
                simp only [Option.bind_eq_bind, Option.bind_some, modify_keepNode]
                rw [heq hokr (hgr.depth.trans hdepth)]
                cases ht : ex (addEdge (q.modify di (keepNode inst)) ni di) di with
                | none => rfl
                | some t =>
                    have hexp := hex hokr ht
                    obtain ⟨n', hn', hgn⟩ := (hgr.trans hexp.grow).node hn
                    exact ih hgs hexp.ok ((hgr.trans hexp.grow).depth.trans hdepth) hn' (hgn.entry.trans he)

/-- More fuel than there are nodes left to enter makes no difference. -/
theorem expand_fuel (fuel : Nat) : ∀ {more : Nat} {p : Plan} {ni : Nat}, p.Ok repo target rootKept →
    maxNodes < fuel + p.depth → fuel ≤ more → expand repo target more p ni = expand repo target fuel p ni := by
  induction fuel with
  | zero =>
      intro more p ni hok h _
      have := hok.depth_le
      omega
  | succ fuel ih =>
      intro more p ni hok h hmore
      obtain ⟨more, rfl⟩ : ∃ k, more = k + 1 := ⟨more - 1, by omega⟩
      unfold expand
      cases hn : p.nodes[ni]? with
      | none => rfl
      | some n =>
          dsimp only []
          split
          · rfl
          · rename_i hfree
            obtain ⟨-, hvis⟩ : n.done = false ∧ n.visiting = false := by simpa using hfree
            cases hall : groupsOf n.entry with
            | none => rfl
            | some all =>
                simp only [Option.bind_eq_bind, Option.bind_some]
                have hok₁ : (p.modify ni (fun n => { n with visiting := true })).Ok repo target rootKept :=
                  hok.modify (fun n _ => ⟨rfl, id, id⟩)
                    (fun n _ hd hd' => absurd (hd'.symm.trans hd) (by simp))
                    (fun n _ hi hi' => absurd (hi'.symm.trans hi) (by simp))
                have hn₁ := Plan.modify_same (fun n => { n with visiting := true }) hn
                rw [expandGroups_congr (fun hok hx => expand_spec fuel hok hx) (fun hok hd =>
                  ih hok (by rw [hd, depth_enter hn hvis]; omega) (by omega)) hall all (fun _ hg => hg)
                  hok₁ rfl hn₁ rfl]

/-! ## A valid plan -/

variable (repo target) in
/-- A finished plan: every node is done and the table of dependencies has what was chosen. -/
structure Plan.Valid (package : Text) (p : Plan) : Prop where
  root : ∃ e n, findBest repo package [] [] = some e ∧ p.nodes[0]? = some n ∧ n.entry = e ∧
    p.Ok repo target ((target package).any (fun v => debVersionCompare v e.version = 0) = true) ∧
    ((target package).any (fun v => debVersionCompare v e.version = 0) = true → n.installed = true)
  done : ∀ {i : Nat} {n : PNode}, p.nodes[i]? = some n → n.done = true
  count : p.deps.length = (p.nodes.map (fun n => picks repo target n.entry)).sum

end

/-- The plan that `build_plan` starts with. -/
def rootPlan (target : Target) (package : Text) (e : Entry) : Plan :=
  ⟨[⟨e, (target package).any (fun v => debVersionCompare v e.version = 0), false, false⟩], []⟩

section

variable {repo : List Entry} {target : Target} {package : Text}

theorem rootPlan_ok {e : Entry} (he : e ∈ repo) : (rootPlan target package e).Ok repo target
    ((target package).any (fun v => debVersionCompare v e.version = 0) = true) := by
  have hnode : ∀ {i : Nat} {n : PNode}, (rootPlan target package e).nodes[i]? = some n →
      i = 0 ∧ n = ⟨e, (target package).any (fun v => debVersionCompare v e.version = 0), false, false⟩ := by
    intro i n hn
    cases i with
    | zero => exact ⟨rfl, (Option.some.inj hn).symm⟩
    | succ i => cases hn
  refine ⟨by show 1 ≤ 512; omega, ?_, ?_, ?_, ?_, ?_⟩
  · intro i n hn
    rw [(hnode hn).2]
    exact he
  · intro i j n m hn hm _
    rw [(hnode hn).1, (hnode hm).1]
  · intro i j h
    cases h
  · intro i n hn hd
    rw [(hnode hn).2] at hd
    cases hd
  · intro j m hm hi
    obtain ⟨rfl, rfl⟩ := hnode hm
    exact Or.inl ⟨rfl, hi⟩

theorem buildPlan_eq (repo : List Entry) (target : Target) (package : Text) :
    buildPlan repo target package = (findBest repo package [] []).bind
      (fun e => expand repo target (maxNodes + 1) (rootPlan target package e) 0) := rfl

theorem buildPlan_valid {p : Plan} (h : buildPlan repo target package = some p) :
    p.Valid repo target package := by
  rw [buildPlan_eq] at h
  obtain ⟨e, he, h⟩ := Option.bind_eq_some_iff.mp h
  have hexp := expand_spec _ (rootPlan_ok (findBest_spec he).1) h
  obtain ⟨n, hn, hg⟩ := hexp.grow.node (show (rootPlan target package e).nodes[0]? = some _ from rfl)
  -- only the root was there before, and it has been expanded
  have hidle : ∀ i, ¬ p.Idle i := by
    intro i hi
    obtain ⟨⟨m, hm, -⟩, hne⟩ := hexp.idle i hi
    cases i with
    | zero => exact hne rfl
    | succ i => cases hm
  have hdone : ∀ {i : Nat} {n : PNode}, p.nodes[i]? = some n → n.done = true := by
    intro i m hm
    by_contra hd
    refine hidle i ⟨m, hm, by simpa using hd, ?_⟩
    cases i with
    | zero =>
        obtain rfl : n = m := Option.some.inj (hn.symm.trans hm)
        exact hg.visiting
    | succ i => exact hexp.grow.fresh hm rfl
  refine ⟨⟨e, n, he, hn, hg.entry, hexp.ok, fun hk => hg.installed hk⟩, hdone, ?_⟩
  have hcount := hexp.count
  have htotal : p.total repo target = (p.nodes.map (fun n => picks repo target n.entry)).sum := by
    unfold Plan.total
    refine congrArg List.sum (List.map_congr_left (fun m hm => ?_))
    obtain ⟨i, hi⟩ := List.mem_iff_getElem?.mp hm
    rw [if_pos (hdone hi)]
  have hzero : (rootPlan target package e).total repo target = 0 := by simp [Plan.total, rootPlan]
  rw [hzero, htotal] at hcount
  simpa [rootPlan] using hcount

/-- `build_plan` does not depend on the bound of the recursion. -/
theorem buildPlan_fuel {more : Nat} (hmore : maxNodes < more) :
    buildPlan repo target package = (findBest repo package [] []).bind
      (fun e => expand repo target more (rootPlan target package e) 0) := by
  rw [buildPlan_eq]
  cases he : findBest repo package [] [] with
  | none => rfl
  | some e => exact (expand_fuel _ (rootPlan_ok (findBest_spec he).1) (by omega) (by omega)).symm

end

end Guppy.Pkg
