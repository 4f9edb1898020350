import Guppy.Lib.Prog
import Guppy.Lib.Tarjan
import Guppy.Pkg.Depends

set_option autoImplicit false

/-! # Planning an installation

`src/pkg_plan.c` with the lookups of `src/pkg_repo.c` that it uses. `expand` chooses, for every
dependency group of a package, a package that satisfies it, and goes on with that one. The
packages of the plan are the nodes of a graph with the chosen dependencies as edges; its strongly
connected components are unpacked one after the other, a component after those it depends on.

The repository is the list of its index entries. The target is a map from package names to the
versions that are installed, which is what `pkg_state_lookup` reads of it.
-/

namespace Guppy.Pkg

open Vfs Prog

/-! ## The repository -/

/-- `pkg_repo_entry_t`. -/
structure Entry where
  package : Text
  version : Text
  preDepends : Text
  depends : Text
  provides : Text
  repoRoot : Text
  filename : Text
  deriving DecidableEq

/-- The installed packages with their versions. -/
abbrev Target := Text → Option Text

/-- A better candidate than the best one so far. -/
def betterEntry (ok : Entry → Bool) (best : Option Entry) (e : Entry) : Option Entry :=
  if ok e = true ∧ (∀ b ∈ best, 0 < debVersionCompare e.version b.version) then some e else best

/-- `pkg_repo_find_best`. -/
def findBest (repo : List Entry) (name op version : Text) : Option Entry :=
  repo.foldl (betterEntry (fun e => e.package = name ∧ debVersionSatisfies e.version op version)) none

/-- A character that ends a name in a `Provides` field. -/
def endsName : Option UInt8 → Bool
  | none => true
  | some c => c = 44 ∨ c = 32 ∨ c = 9 ∨ c = 40

/-- `provides_name`. -/
def providesFrom (name : Text) : Nat → Text → Bool
  | 0, _ => false
  | fuel + 1, s =>
      if s = [] then false
      else
        let s := s.dropWhile (fun c => c = 32 ∨ c = 9 ∨ c = 44)
        if name <+: s ∧ endsName s[name.length]? = true then true
        else providesFrom name fuel ((s.dropWhile (· ≠ 44)).drop 1)

def providesName (e : Entry) (name : Text) : Bool := providesFrom name (e.provides.length + 1) e.provides

/-- `pkg_repo_find_provider`. -/
def findProvider (repo : List Entry) (name : Text) : Option Entry :=
  repo.foldl (betterEntry (fun e => providesName e name)) none

/-! ## Choosing an alternative -/

/-- How a dependency group is satisfied: by a package of the target that the repository does not
have (`isinst == 2`), by a repository entry for an alternative, which may be installed already
(`isinst`), or not at all. -/
inductive Choice
  | present
  | entry (e : Entry) (alt : Alt) (installed : Bool)
  | nothing

/-- What one alternative comes to; nothing when the next one is to be tried. -/
def tryAlt (repo : List Entry) (target : Target) (a : Alt) : Choice :=
  if (target a.name).any (fun v => debVersionSatisfies v a.op a.version) = true then
    match findBest repo a.name a.op a.version with
    | some e => .entry e a true
    | none => .present
  else
    match findBest repo a.name a.op a.version with
    | some e => .entry e a false
    | none =>
        match findProvider repo a.name with
        | some e => .entry e a ((target e.package).any (fun v => debVersionCompare v e.version = 0))
        | none => .nothing

/-- `choose_alt`. -/
def chooseAlt (repo : List Entry) (target : Target) : List Alt → Choice
  | [] => .nothing
  | a :: alts =>
      match tryAlt repo target a with
      | .nothing => chooseAlt repo target alts
      | c => c

/-! ## The plan -/

/-- `MAX_NODES` and `MAX_EDGES`. -/
def maxNodes : Nat := 512
def maxEdges : Nat := 4096

/-- `node_t`, as far as `expand` uses it. -/
structure PNode where
  entry : Entry
  installed : Bool
  visiting : Bool
  done : Bool

/-- `plan_t`. `deps` has a pair for every call of `add_edge`, the last one first. -/
structure Plan where
  nodes : List PNode
  deps : List (Nat × Nat)

/-- The table of edges: `add_edge` does nothing when it is full. -/
def Plan.edges (p : Plan) : List (Nat × Nat) := p.deps.reverse.take maxEdges

/-- The node of a package. -/
def Plan.find (p : Plan) (package : Text) : Option Nat :=
  p.nodes.findIdx? (fun n => n.entry.package = package)

/-- `node_for`; there may be no room. -/
def nodeFor (p : Plan) (e : Entry) : Option (Plan × Nat) :=
  match p.find e.package with
  | some i => some (p, i)
  | none =>
      if maxNodes ≤ p.nodes.length then none
      else some ({ p with nodes := p.nodes ++ [⟨e, false, false, false⟩] }, p.nodes.length)

/-- Change a node. -/
def Plan.modify (p : Plan) (i : Nat) (f : PNode → PNode) : Plan := { p with nodes := p.nodes.modify i f }

/-- `add_edge`. -/
def addEdge (p : Plan) (a b : Nat) : Plan := { p with deps := (a, b) :: p.deps }

/-- A package that is in the plan with a version that the alternative does not accept. -/
def clashes (p : Plan) (package : Text) (alt : Alt) : Bool :=
  (p.nodes.find? (fun n => n.entry.package = package)).any
    (fun n => !debVersionSatisfies n.entry.version alt.op alt.version)

/-- The dependency groups of a package, those of `Pre-Depends` first. A field that cannot be
parsed makes the plan invalid, whatever comes before it. -/
def groupsOf (e : Entry) : Option (List (List Alt)) := do
  let pre ← debDepParse e.preDepends
  let dep ← debDepParse e.depends
  some (pre ++ dep)

/-- The loop of `expand` over the groups of the node `ni`; no result where the plan becomes
invalid. -/
def expandGroups (repo : List Entry) (target : Target) (expand : Plan → Nat → Option Plan) (ni : Nat) :
    List (List Alt) → Plan → Option Plan
  | [], p => some p
  | g :: gs, p =>
      match chooseAlt repo target g with
      | .present => expandGroups repo target expand ni gs p
      | .nothing => none
      | .entry d alt installed =>
          if clashes p d.package alt = true then none
          else do
            let (p, di) ← nodeFor p d
            let p := if installed = true then p.modify di (fun n => { n with installed := true }) else p
            let p ← expand (addEdge p ni di) di
            expandGroups repo target expand ni gs p

/-- `expand`. A node that is being expanded is left alone, so the recursion is never deeper than
the number of nodes. -/
def expand (repo : List Entry) (target : Target) : Nat → Plan → Nat → Option Plan
  | 0, _, _ => none
  | fuel + 1, p, ni =>
      match p.nodes[ni]? with
      | none => none
      | some n =>
          if n.done = true ∨ n.visiting = true then some p
          else do
            let groups ← groupsOf n.entry
            let p := p.modify ni (fun n => { n with visiting := true })
            let p ← expandGroups repo target (expand repo target fuel) ni groups p
            some (p.modify ni (fun n => { n with visiting := false, done := true }))

/-- `build_plan`: the nodes and edges of a valid plan; the requested package is node 0. -/
def buildPlan (repo : List Entry) (target : Target) (package : Text) : Option Plan := do
  let e ← findBest repo package [] []
  let p : Plan := ⟨[⟨e, false, false, false⟩], []⟩
  let installed := (target package).any (fun v => debVersionCompare v e.version = 0)
  let p := p.modify 0 (fun n => { n with installed := installed })
  expand repo target (maxNodes + 1) p 0

/-- `build_components`. -/
def components (p : Plan) : Search := buildComponents p.edges maxNodes p.nodes.length

/-! ## Applying it -/

/-- The state of `pkg_plan_apply`: the components that are emitted, the nodes that were handled,
in order, which of them are installed, and the target. -/
structure Applied where
  emitted : List Nat
  handled : List Nat
  installed : Nat → Bool
  target : Target

section Apply

variable (unpacks : Entry → Target → Bool)

/-- `entry_path` with its buffer of 1400 bytes. -/
def entryPathTooLong (e : Entry) : Bool :=
  1400 ≤ (if e.repoRoot.getLast? = some slash then e.repoRoot ++ e.filename
    else e.repoRoot ++ slash :: e.filename).length

/-- One package: skip it, or unpack it. The callback may fail; when it succeeds the target has
the package in that version. -/
def handleNode (p : Plan) (i : Nat) : Prog Applied Unit := do
  let s ← get
  match p.nodes[i]? with
  | none => pure ()
  | some n =>
      if s.installed i = true then set { s with handled := s.handled ++ [i] }
      else do
        set { s with handled := s.handled ++ [i] }
        failIf (entryPathTooLong n.entry = true) 1
        failIf (unpacks n.entry s.target = false) 1
        set { s with
          handled := s.handled ++ [i]
          installed := Function.update s.installed i true
          target := Function.update s.target n.entry.package (some n.entry.version) }

/-- The components that the members of a component depend on, in the order of the edge table. -/
def componentDeps (p : Plan) (c : Search) (ci : Nat) (members : List Nat) : List Nat :=
  members.flatMap (fun n => p.edges.filterMap (fun e =>
    if e.1 = n then (c.component e.2).filter (· ≠ ci) else none))

/-- `apply_component`. -/
def applyComponent (p : Plan) (c : Search) : Nat → Nat → Prog Applied Unit
  | 0, _ => throw 1
  | fuel + 1, ci => do
      let s ← get
      match c.comps[ci]? with
      | none => pure ()
      | some members =>
          if ci ∈ s.emitted then pure ()
          else do
            set { s with emitted := ci :: s.emitted }
            forEach (applyComponent p c fuel) (componentDeps p c ci members)
            forEach (handleNode unpacks p) members

/-- `pkg_plan_apply`. -/
def pkgPlanApply (repo : List Entry) (target : Target) (package : Text) :
    EStateM.Result Int Applied Unit :=
  match buildPlan repo target package with
  | none => .error 1 ⟨[], [], fun _ => false, target⟩
  | some p =>
      let c := components p
      let installed := fun i => (p.nodes[i]?).any (·.installed)
      (do
        forEach (applyComponent unpacks p c (c.comps.length + 1)) ((c.component 0).toList)
        forEach (applyComponent unpacks p c (c.comps.length + 1)) (List.range c.comps.length) :
          Prog Applied Unit) ⟨[], [], installed, target⟩

end Apply

end Guppy.Pkg
