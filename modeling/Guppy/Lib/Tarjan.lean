import Mathlib.Tactic
import Mathlib.Logic.Relation

set_option autoImplicit false

/-! # Strongly connected components

The depth-first search that finds the strongly connected components of a graph on `0, ..., n - 1`
given by a list of edges, with an index and a low link for each node and one stack. A node whose
low link is its own index closes a component: everything above it on the stack.

The invariant `Search.Ok` says what the stack is for. A node of the stack reaches every node
above it (`up`), and, unless the search is still inside it, some node below it (`down`). Of the
closed components it says that an edge never leads to a later one, and that two members reach
each other. `tarjan_spec` is the step, by induction on the fuel, with the fold over the edges of
the node as an inner induction; `components_spec` is the result for the whole graph.
-/

namespace Guppy

open Relation

/-- The state of the search: indices and low links, the stack with its top first, and the
components found so far. -/
structure Search where
  index : Nat → Option Nat
  low : Nat → Nat
  stack : List Nat
  onstack : Nat → Bool
  component : Nat → Option Nat
  comps : List (List Nat)
  nextIndex : Nat

namespace Search

def empty : Search := ⟨fun _ => none, fun _ => 0, [], fun _ => false, fun _ => none, [], 0⟩

/-- Number a node and push it. -/
def enter (s : Search) (v : Nat) : Search :=
  { s with
    index := Function.update s.index v (some s.nextIndex)
    low := Function.update s.low v s.nextIndex
    stack := v :: s.stack
    onstack := Function.update s.onstack v true
    nextIndex := s.nextIndex + 1 }

/-- Lower the low link of `v` to `x`. -/
def lower (s : Search) (v x : Nat) : Search :=
  if x < s.low v then { s with low := Function.update s.low v x } else s

/-- The top of the stack down to `v`, and the rest. -/
def popTo (v : Nat) : List Nat → List Nat × List Nat
  | [] => ([], [])
  | w :: st => if w = v then ([w], st) else (w :: (popTo v st).1, (popTo v st).2)

/-- Pop a component, if the table of components has room for it. -/
def close (s : Search) (maxComps v : Nat) : Search :=
  if maxComps ≤ s.comps.length then s
  else
    let members := (popTo v s.stack).1
    { s with
      stack := (popTo v s.stack).2
      onstack := fun w => if w ∈ members then false else s.onstack w
      component := fun w => if w ∈ members then some s.comps.length else s.component w
      comps := s.comps ++ [members] }

/-- One iteration of the loop over the edges, for an edge that may leave `v`. -/
def visit (dfs : Nat → Search → Search) (v : Nat) (s : Search) (e : Nat × Nat) : Search :=
  if e.1 = v then
    match s.index e.2 with
    | none => (dfs e.2 s).lower v ((dfs e.2 s).low e.2)
    | some i => if s.onstack e.2 = true then s.lower v i else s
  else s

end Search

/-- The search from `v`. -/
def tarjan (edges : List (Nat × Nat)) (maxComps : Nat) : Nat → Nat → Search → Search
  | 0, _, s => s
  | fuel + 1, v, s =>
      let s := edges.foldl (Search.visit (tarjan edges maxComps fuel) v) (s.enter v)
      if s.index v = some (s.low v) then s.close maxComps v else s

/-- The search from every node that has no index yet. -/
def buildComponents (edges : List (Nat × Nat)) (maxComps n : Nat) : Search :=
  (List.range n).foldl (fun s v => if s.index v = none then tarjan edges maxComps n v s else s)
    Search.empty

/-! ## The invariant -/

section Spec

variable {edges : List (Nat × Nat)} {n : Nat}

/-- There is an edge. -/
def Edge (edges : List (Nat × Nat)) (a b : Nat) : Prop := (a, b) ∈ edges

/-- There is a path. -/
def Reach (edges : List (Nat × Nat)) : Nat → Nat → Prop := ReflTransGen (Edge edges)

/-- The index of a node that has one. -/
def Search.num (s : Search) (v : Nat) : Nat := (s.index v).getD 0

/-- The invariant of the search, while it is inside the nodes with `gray`. -/
structure Search.Ok (edges : List (Nat × Nat)) (n : Nat) (gray : Nat → Prop) (s : Search) : Prop where
  index_lt : ∀ v i, s.index v = some i → i < s.nextIndex
  numbered : ∀ v, s.index v ≠ none ↔ v ∈ s.comps.flatten ∨ v ∈ s.stack
  nodup : (s.comps.flatten ++ s.stack).Nodup
  node_lt : ∀ v, s.index v ≠ none → v < n
  onstack : ∀ v, s.onstack v = true ↔ v ∈ s.stack
  component : ∀ v c, s.component v = some c ↔ ∃ m, s.comps[c]? = some m ∧ v ∈ m
  comps_ne : ∀ m ∈ s.comps, m ≠ []
  sorted : s.stack.Pairwise (fun a b => s.num b < s.num a)
  gray_stack : ∀ v, gray v → v ∈ s.stack
  succ : ∀ a b, Edge edges a b → s.index a ≠ none → ¬ gray a → s.index b ≠ none
  comp_edge : ∀ a b c, Edge edges a b → s.component a = some c → ∃ c' ≤ c, s.component b = some c'
  comp_reach : ∀ a b c, s.component a = some c → s.component b = some c → Reach edges a b
  up : ∀ a ∈ s.stack, ∀ b ∈ s.stack, s.num a < s.num b → Reach edges a b
  down : ∀ a ∈ s.stack, ¬ gray a → ∃ b ∈ s.stack, s.num b < s.num a ∧ Reach edges a b

/-- What a later state of the search keeps of an earlier one. -/
structure Search.Later (s s' : Search) : Prop where
  index : ∀ v i, s.index v = some i → s'.index v = some i
  fresh : ∀ v i, s.index v = none → s'.index v = some i → s.nextIndex ≤ i
  low : ∀ v, s.index v ≠ none → s'.low v = s.low v
  next : s.nextIndex ≤ s'.nextIndex
  stack : ∃ new, s'.stack = new ++ s.stack

namespace Search

variable {s s' s'' : Search} {gray : Nat → Prop} {v : Nat}

theorem num_of {i : Nat} (h : s.index v = some i) : s.num v = i := by
  unfold num
  rw [h]
  rfl

theorem Ok.index_some (h : s.Ok edges n gray) (hv : v ∈ s.stack) : s.index v = some (s.num v) := by
  have hne := (h.numbered v).mpr (Or.inr hv)
  cases hi : s.index v with
  | none => exact absurd hi hne
  | some i => rw [num_of hi]

theorem Ok.num_lt (h : s.Ok edges n gray) (hv : v ∈ s.stack) : s.num v < s.nextIndex :=
  h.index_lt v _ (h.index_some hv)

/-- What is above a node of the stack has a larger index, and what is below a smaller one. -/
theorem Ok.above (h : s.Ok edges n gray) {new old : List Nat} (hs : s.stack = new ++ v :: old) {w : Nat} :
    (w ∈ new → s.num v < s.num w) ∧ (w ∈ old → s.num w < s.num v) := by
  have hsort := h.sorted
  rw [hs, List.pairwise_append, List.pairwise_cons] at hsort
  exact ⟨fun hw => hsort.2.2 w hw v (List.mem_cons_self ..), fun hw => hsort.2.1.1 w hw⟩

theorem Ok.mem_old (h : s.Ok edges n gray) {new old : List Nat} (hs : s.stack = new ++ v :: old) {w : Nat}
    (hw : w ∈ s.stack) (hlt : s.num w < s.num v) : w ∈ old := by
  rw [hs] at hw
  rcases List.mem_append.mp hw with hw | hw
  · have := (h.above hs).1 hw
    omega
  · rcases List.mem_cons.mp hw with rfl | hw
    · exact absurd hlt (lt_irrefl _)
    · exact hw

theorem Later.refl (s : Search) : s.Later s :=
  ⟨fun _ _ h => h, fun v i h h' => absurd (h.symm.trans h') (by simp), fun _ _ => rfl, le_refl _, [], rfl⟩

theorem Later.trans (h : s.Later s') (h' : s'.Later s'') : s.Later s'' := by
  refine ⟨fun v i hv => h'.index v i (h.index v i hv), ?_, ?_, le_trans h.next h'.next, ?_⟩
  · intro v i hv hv''
    cases hv' : s'.index v with
    | none => exact le_trans h.next (h'.fresh v i hv' hv'')
    | some j =>
        have hj := h'.index v j hv'
        rw [hj] at hv''
        cases hv''
        exact h.fresh v _ hv hv'
  · intro v hv
    obtain ⟨j, hj⟩ := Option.ne_none_iff_exists'.mp hv
    have hj' := h.index v j hj
    rw [h'.low v (by rw [hj']; simp), h.low v hv]
  · obtain ⟨new, hnew⟩ := h.stack
    obtain ⟨new', hnew'⟩ := h'.stack
    exact ⟨new' ++ new, by rw [hnew', hnew, List.append_assoc]⟩

/-- A later state numbers the nodes of the stack as before. -/
theorem Later.num_eq (h : s.Later s') (hok : s.Ok edges n gray) (hv : v ∈ s.stack) :
    s'.num v = s.num v := num_of (h.index v _ (hok.index_some hv))

theorem Later.mem_stack (h : s.Later s') (hv : v ∈ s.stack) : v ∈ s'.stack := by
  obtain ⟨new, hnew⟩ := h.stack
  rw [hnew]
  exact List.mem_append_right _ hv

/-! ### Entering a node -/

theorem enter_index {w : Nat} : (s.enter v).index w = if w = v then some s.nextIndex else s.index w := by
  unfold enter
  by_cases h : w = v
  · rw [if_pos h, h]
    exact Function.update_self ..
  · rw [if_neg h]
    exact Function.update_of_ne h ..

theorem enter_num {w : Nat} : (s.enter v).num w = if w = v then s.nextIndex else s.num w := by
  unfold num
  rw [enter_index]
  split
  · rfl
  · rfl

theorem later_enter (hv : s.index v = none) : s.Later (s.enter v) := by
  have hne : ∀ {w}, s.index w ≠ none → w ≠ v := fun h he => h (he ▸ hv)
  refine ⟨?_, ?_, ?_, Nat.le_succ _, [v], rfl⟩
  · intro w i hw
    rw [enter_index, if_neg (hne (by rw [hw]; simp)), hw]
  · intro w i hw hi
    rw [enter_index] at hi
    split at hi
    · cases hi
      exact le_refl _
    · rw [hw] at hi
      cases hi
  · intro w hw
    exact Function.update_of_ne (hne hw) ..

theorem Ok.enter (h : s.Ok edges n gray) (hv : s.index v = none) (hn : v < n)
    (hreach : ∀ a ∈ s.stack, Reach edges a v) :
    (s.enter v).Ok edges n (fun w => gray w ∨ w = v) := by
  have hout : v ∉ s.comps.flatten ∧ v ∉ s.stack := by
    have := (h.numbered v).not
    rw [not_not] at this
    exact not_or.mp (this.mp hv)
  have hne : ∀ {w}, w ∈ s.stack → w ≠ v := fun hw he => hout.2 (he ▸ hw)
  have hnum : ∀ {w}, w ∈ s.stack → (s.enter v).num w = s.num w := by
    intro w hw
    rw [enter_num, if_neg (hne hw)]
  have hnumv : (s.enter v).num v = s.nextIndex := by
    rw [enter_num, if_pos rfl]
  have hstack : (s.enter v).stack = v :: s.stack := rfl
  constructor
  · intro w i hi
    show i < s.nextIndex + 1
    rw [enter_index] at hi
    split at hi
    · cases hi
      exact Nat.lt_succ_self _
    · exact Nat.lt_succ_of_lt (h.index_lt w i hi)
  · intro w
    rw [enter_index, hstack]
    show _ ↔ w ∈ s.comps.flatten ∨ _
    by_cases hw : w = v
    · rw [if_pos hw]
      simp [hw]
    · rw [if_neg hw, h.numbered w]
      simp [hw]
  · show (s.comps.flatten ++ v :: s.stack).Nodup
    rw [List.nodup_middle, List.nodup_cons]
    exact ⟨by simp [hout.1, hout.2], h.nodup⟩
  · intro w hw
    rw [enter_index] at hw
    split at hw
    · rename_i he
      exact he ▸ hn
    · exact h.node_lt w hw
  · intro w
    rw [hstack]
    show Function.update s.onstack v true w = true ↔ _
    by_cases hw : w = v
    · rw [hw]
      simp
    · rw [Function.update_of_ne hw, h.onstack w]
      simp [hw]
  · exact h.component
  · exact h.comps_ne
  · rw [hstack, List.pairwise_cons]
    constructor
    · intro b hb
      rw [hnum hb, hnumv]
      exact h.num_lt hb
    · refine h.sorted.imp_of_mem ?_
      intro a b ha hb hlt
      rw [hnum ha, hnum hb]
      exact hlt
  · rintro w (hw | hw)
    · exact List.mem_cons_of_mem _ (h.gray_stack w hw)
    · rw [hw]
      exact List.mem_cons_self ..
  · intro a b he ha hg
    have hav : a ≠ v := fun hc => hg (Or.inr hc)
    rw [enter_index, if_neg hav] at ha
    have hb := h.succ a b he ha (fun hc => hg (Or.inl hc))
    rw [enter_index]
    split
    · simp
    · exact hb
  · exact h.comp_edge
  · exact h.comp_reach
  · intro a ha b hb hlt
    rw [hstack] at ha hb
    rcases List.mem_cons.mp hb with hbv | hb
    · rcases List.mem_cons.mp ha with hav | ha
      · rw [hav, hbv] at hlt
        exact absurd hlt (lt_irrefl _)
      · rw [hbv]
        exact hreach a ha
    · rcases List.mem_cons.mp ha with hav | ha
      · -- nothing of the old stack has a larger index
        rw [hav, hnumv, hnum hb] at hlt
        exact absurd (h.num_lt hb) (by omega)
      · rw [hnum ha, hnum hb] at hlt
        exact h.up a ha b hb hlt
  · intro a ha hg
    rw [hstack] at ha
    rcases List.mem_cons.mp ha with rfl | ha
    · exact absurd (Or.inr rfl) hg
    · obtain ⟨b, hb, hlt, hr⟩ := h.down a ha (fun hc => hg (Or.inl hc))
      refine ⟨b, List.mem_cons_of_mem _ hb, ?_, hr⟩
      rw [hnum ha, hnum hb]
      exact hlt

/-! ### Lowering a link -/

theorem lower_low (x : Nat) : (s.lower v x).low v = min x (s.low v) := by
  unfold lower
  split
  · rename_i hlt
    rw [min_eq_left (le_of_lt hlt)]
    exact Function.update_self ..
  · rename_i hle
    rw [min_eq_right (Nat.le_of_not_lt hle)]

/-- Only a low link changes. -/
theorem lower_same (x : Nat) : (s.lower v x).index = s.index ∧ (s.lower v x).stack = s.stack ∧
    (s.lower v x).nextIndex = s.nextIndex ∧ ∀ w, w ≠ v → (s.lower v x).low w = s.low w := by
  unfold lower
  split
  · exact ⟨rfl, rfl, rfl, fun w hw => Function.update_of_ne hw ..⟩
  · exact ⟨rfl, rfl, rfl, fun _ _ => rfl⟩

theorem Ok.lower (h : s.Ok edges n gray) (x : Nat) : (s.lower v x).Ok edges n gray := by
  unfold Search.lower
  split
  · exact ⟨h.index_lt, h.numbered, h.nodup, h.node_lt, h.onstack, h.component, h.comps_ne, h.sorted,
      h.gray_stack, h.succ, h.comp_edge, h.comp_reach, h.up, h.down⟩
  · exact h

/-! ### The loop over the edges of a node -/

/-- What holds while the search is inside `v`, which it entered in the state `s₀`, after the
edges `seen`: no edge from the new part of the stack goes below `bound`. -/
structure Inside (edges : List (Nat × Nat)) (n : Nat) (gray : Nat → Prop) (s₀ : Search) (v : Nat)
    (seen : List (Nat × Nat)) (bound : Nat) (s : Search) : Prop where
  ok : s.Ok edges n (fun w => gray w ∨ w = v)
  later : s₀.Later s
  white : s₀.index v = none
  index : s.index v = some s₀.nextIndex
  stack : ∃ new, s.stack = new ++ v :: s₀.stack
  low_le : s.low v ≤ s₀.nextIndex
  low_reach : s.low v = s₀.nextIndex ∨ ∃ x ∈ s₀.stack, s.num x = s.low v ∧ Reach edges v x
  above : ∀ y ∈ s.stack, y ∉ s₀.stack → y ≠ v → ∀ z ∈ s₀.stack, Edge edges y z → bound ≤ s.num z
  seen : ∀ b, (v, b) ∈ seen → s.index b ≠ none ∧ (b ∈ s₀.stack → bound ≤ s.num b)

/-- What the search from `v` does. It closes a component and leaves the stack alone, or it leaves
`v` on the stack with a low link that is the index of a node below, which `v` reaches, and that
no edge from the new part of the stack goes below. -/
structure Searched (edges : List (Nat × Nat)) (n : Nat) (gray : Nat → Prop) (s : Search) (v : Nat)
    (s' : Search) : Prop where
  ok : s'.Ok edges n gray
  later : s.Later s'
  index : s'.index v ≠ none
  low : s.nextIndex ≤ s'.low v ∨ ∃ x ∈ s.stack, s'.num x = s'.low v ∧ Reach edges v x
  above : ∀ y ∈ s'.stack, y ∉ s.stack → ∀ z ∈ s.stack, Edge edges y z → s'.low v ≤ s'.num z

section Inside

variable {s₀ : Search} {seen : List (Nat × Nat)} {bound : Nat}

theorem Inside.mem_stack (h : Inside edges n gray s₀ v seen bound s) : v ∈ s.stack := by
  obtain ⟨new, hstack⟩ := h.stack
  rw [hstack]
  simp

/-- Every node of the stack reaches the node that the search is inside of. -/
theorem Inside.reach (h : Inside edges n gray s₀ v seen bound s) (hgray : ∀ w, gray w → w ∈ s₀.stack) :
    ∀ a ∈ s.stack, Reach edges a v := by
  obtain ⟨new, hstack⟩ := h.stack
  -- by strong induction on the index: a node above `v` reaches one with a smaller index
  have hind : ∀ k, ∀ a ∈ s.stack, s.num a = k → Reach edges a v := by
    intro k
    induction k using Nat.strong_induction_on with
    | _ k ih =>
        intro a ha hk
        by_cases hav : a = v
        · rw [hav]
          exact ReflTransGen.refl
        · by_cases hg : gray a
          · exact h.ok.up a ha v h.mem_stack ((h.ok.above hstack).2 (hgray a hg))
          · obtain ⟨b, hb, hlt, hr⟩ := h.ok.down a ha (fun hc => hc.elim hg hav)
            exact hr.trans (ih _ (hk ▸ hlt) b hb rfl)
  exact fun a ha => hind _ a ha rfl

theorem inside_enter (h : s₀.Ok edges n gray) (hv : s₀.index v = none) (hn : v < n)
    (hreach : ∀ a ∈ s₀.stack, Reach edges a v) (bound : Nat) :
    Inside edges n gray s₀ v [] bound (s₀.enter v) := by
  have hlow : (s₀.enter v).low v = s₀.nextIndex := Function.update_self ..
  refine ⟨h.enter hv hn hreach, later_enter hv, hv, ?_, ⟨[], rfl⟩, le_of_eq hlow, Or.inl hlow, ?_, ?_⟩
  · rw [enter_index, if_pos rfl]
  · intro y hy hold hne
    exact absurd (List.mem_cons.mp hy) (not_or.mpr ⟨hne, hold⟩)
  · intro b hb
    exact absurd hb (List.not_mem_nil)

theorem Inside.weaken (h : Inside edges n gray s₀ v seen bound s) {bound' : Nat} (hle : bound' ≤ bound) :
    Inside edges n gray s₀ v seen bound' s :=
  ⟨h.ok, h.later, h.white, h.index, h.stack, h.low_le, h.low_reach,
    fun y hy hold hne z hz he => le_trans hle (h.above y hy hold hne z hz he),
    fun b hb => ⟨(h.seen b hb).1, fun hz => le_trans hle ((h.seen b hb).2 hz)⟩⟩

/-- One more edge has been seen. -/
theorem Inside.see (h : Inside edges n gray s₀ v seen bound s) {e : Nat × Nat}
    (he : e.1 = v → s.index e.2 ≠ none ∧ (e.2 ∈ s₀.stack → bound ≤ s.num e.2)) :
    Inside edges n gray s₀ v (seen ++ [e]) bound s := by
  refine ⟨h.ok, h.later, h.white, h.index, h.stack, h.low_le, h.low_reach, h.above, ?_⟩
  intro b hb
  rcases List.mem_append.mp hb with hb | hb
  · exact h.seen b hb
  · have hbe : (v, b) = e := by simpa using hb
    rw [← hbe] at he
    exact he rfl

/-- The low link of `v` is lowered to an index of the stack that `v` reaches. -/
theorem Inside.lower {x : Nat} (h : Inside edges n gray s₀ v seen (min x (s.low v)) s)
    (hx : x < s.low v → ∃ y ∈ s₀.stack, s.num y = x ∧ Reach edges v y) :
    Inside edges n gray s₀ v seen ((s.lower v x).low v) (s.lower v x) := by
  obtain ⟨hindex, hstack, hnext, hlows⟩ := @lower_same s v x
  have hnum : ∀ w, (s.lower v x).num w = s.num w := by
    intro w
    unfold num
    rw [hindex]
  rw [lower_low]
  refine ⟨h.ok.lower x, ⟨?_, ?_, ?_, ?_, ?_⟩, h.white, ?_, ?_, ?_, ?_, ?_, ?_⟩
  · rw [hindex]
    exact h.later.index
  · rw [hindex]
    exact h.later.fresh
  · intro w hw
    have hne : w ≠ v := fun he => hw (he ▸ h.white)
    rw [hlows w hne]
    exact h.later.low w hw
  · rw [hnext]
    exact h.later.next
  · rw [hstack]
    exact h.later.stack
  · rw [hindex]
    exact h.index
  · rw [hstack]
    exact h.stack
  · rw [lower_low]
    exact le_trans (min_le_right _ _) h.low_le
  · rw [lower_low]
    by_cases hlt : x < s.low v
    · obtain ⟨y, hy, hynum, hr⟩ := hx hlt
      exact Or.inr ⟨y, hy, by rw [hnum, hynum, min_eq_left (le_of_lt hlt)], hr⟩
    · rw [min_eq_right (Nat.le_of_not_lt hlt)]
      rcases h.low_reach with h₁ | ⟨y, hy, hynum, hr⟩
      · exact Or.inl h₁
      · exact Or.inr ⟨y, hy, by rw [hnum, hynum], hr⟩
  · intro y hy hold hne z hz he
    rw [hstack] at hy
    rw [hnum]
    exact h.above y hy hold hne z hz he
  · intro b hb
    rw [hindex, hnum]
    exact h.seen b hb

/-- The state after the search from a new node `b`, before the low link of `v` is lowered. -/
theorem Inside.searched (h : Inside edges n gray s₀ v seen (s.low v) s) {b : Nat}
    (hs : Searched edges n (fun w => gray w ∨ w = v) s b s') (hb : s.index b = none) :
    Inside edges n gray s₀ v (seen ++ [(v, b)]) (min (s'.low b) (s'.low v)) s' := by
  obtain ⟨new, hstack⟩ := h.stack
  obtain ⟨new', hnew'⟩ := hs.later.stack
  have hold : ∀ {z}, z ∈ s₀.stack → z ∈ s.stack := fun hz => h.later.mem_stack hz
  have hnum : ∀ {z}, z ∈ s.stack → s'.num z = s.num z := fun hz => hs.later.num_eq h.ok hz
  have hlowv : s'.low v = s.low v := hs.later.low v (by rw [h.index]; simp)
  have hle : min (s'.low b) (s'.low v) ≤ s.low v := hlowv ▸ min_le_right _ _
  have hbout : b ∉ s₀.stack := by
    intro hz
    rw [h.ok.index_some (hold hz)] at hb
    cases hb
  refine Inside.see ⟨hs.ok, h.later.trans hs.later, h.white, ?_, ?_, ?_, ?_, ?_, ?_⟩
    (fun _ => ⟨hs.index, fun hz => absurd hz hbout⟩)
  · exact hs.later.index v _ h.index
  · rw [hnew', hstack]
    exact ⟨new' ++ new, by rw [List.append_assoc]⟩
  · rw [hlowv]
    exact h.low_le
  · rw [hlowv]
    rcases h.low_reach with h₁ | ⟨y, hy, hynum, hr⟩
    · exact Or.inl h₁
    · exact Or.inr ⟨y, hy, by rw [hnum (hold hy), hynum], hr⟩
  · intro y hy hyold hyv z hz hyz
    by_cases hys : y ∈ s.stack
    · rw [hnum (hold hz)]
      exact le_trans hle (h.above y hys hyold hyv z hz hyz)
    · exact le_trans (min_le_left _ _) (hs.above y hy hys z (hold hz) hyz)
  · intro c hc
    obtain ⟨hc₁, hc₂⟩ := h.seen c hc
    obtain ⟨j, hj⟩ := Option.ne_none_iff_exists'.mp hc₁
    refine ⟨by rw [hs.later.index c j hj]; simp, fun hz => ?_⟩
    rw [hnum (hold hz)]
    exact le_trans hle (hc₂ hz)

/-- A low link below that of `v` is the index of a node below `v`. -/
theorem Inside.searched_low (h : Inside edges n gray s₀ v seen bound s) {b : Nat}
    (hs : Searched edges n (fun w => gray w ∨ w = v) s b s') (he : Edge edges v b)
    (hlt : s'.low b < s'.low v) : ∃ y ∈ s₀.stack, s'.num y = s'.low b ∧ Reach edges v y := by
  obtain ⟨new, hstack⟩ := h.stack
  have hlowv : s'.low v = s.low v := hs.later.low v (by rw [h.index]; simp)
  have hnumv : s.num v = s₀.nextIndex := num_of h.index
  have hle := h.low_le
  rcases hs.low with hge | ⟨x, hx, hxnum, hr⟩
  · -- a component was closed: its indices are larger
    have := h.later.next
    omega
  · have hnum := hs.later.num_eq h.ok hx
    exact ⟨x, h.ok.mem_old hstack hx (by omega), hxnum, ReflTransGen.head he hr⟩

/-! ### The nodes without an index -/

end Inside

/-- How many nodes have no index yet. -/
def whites (n : Nat) (s : Search) : Nat := ((Finset.range n).filter (fun w => s.index w = none)).card

theorem Later.whites_lt (h : s.Later s') (hv : s.index v = none) (hv' : s'.index v ≠ none) (hn : v < n) :
    whites n s' + 1 ≤ whites n s := by
  apply Finset.card_lt_card
  rw [Finset.ssubset_iff_of_subset]
  · refine ⟨v, ?_, ?_⟩
    · rw [Finset.mem_filter, Finset.mem_range]
      exact ⟨hn, hv⟩
    · rw [Finset.mem_filter]
      exact fun hc => hv' hc.2
  · intro w hw
    rw [Finset.mem_filter] at hw ⊢
    refine ⟨hw.1, ?_⟩
    by_contra hne
    obtain ⟨j, hj⟩ := Option.ne_none_iff_exists'.mp hne
    rw [h.index w j hj] at hw
    cases hw.2

/-- A search that does what it should from every node without an index, as long as no more than
`fuel` nodes are left. -/
def Spec (edges : List (Nat × Nat)) (n fuel : Nat) (dfs : Nat → Search → Search) : Prop :=
  ∀ (gray : Nat → Prop) (s : Search) (w : Nat), s.Ok edges n gray → s.index w = none → w < n →
    (∀ a ∈ s.stack, Reach edges a w) → whites n s ≤ fuel → Searched edges n gray s w (dfs w s)

section Inside

variable {s₀ : Search} {seen : List (Nat × Nat)} {bound : Nat}

/-- One iteration of the loop. -/
theorem Inside.visit {dfs : Nat → Search → Search} {fuel : Nat} {e : Nat × Nat}
    (h : Inside edges n gray s₀ v seen (s.low v) s) (hdfs : Spec edges n fuel dfs)
    (hgray : ∀ w, gray w → w ∈ s₀.stack) (hn : ∀ a b, Edge edges a b → b < n) (he : e ∈ edges)
    (hv : v < n) (hfuel : whites n s₀ ≤ fuel + 1) :
    Inside edges n gray s₀ v (seen ++ [e]) ((visit dfs v s e).low v) (visit dfs v s e) := by
  unfold Search.visit
  by_cases hev : e.1 = v
  · rw [if_pos hev]
    have hedge : Edge edges v e.2 := by
      rw [← hev]
      exact he
    have hpair : e = (v, e.2) := Prod.ext hev rfl
    cases hi : s.index e.2 with
    | none =>
        have hreach : ∀ a ∈ s.stack, Reach edges a e.2 :=
          fun a ha => ReflTransGen.tail (h.reach hgray a ha) hedge
        have hwhites := h.later.whites_lt h.white (by rw [h.index]; simp) hv
        have hs := hdfs _ s e.2 h.ok hi (hn v e.2 hedge) hreach (by omega)
        have hin := h.searched hs hi
        rw [← hpair] at hin
        exact hin.lower (h.searched_low hs hedge)
    | some i =>
        have hnum : s.num e.2 = i := num_of hi
        dsimp only []
        split
        · rename_i hon
          refine Inside.lower ((h.weaken (min_le_right _ _)).see (fun _ => ⟨by rw [hi]; simp, fun _ => ?_⟩)) ?_
          · rw [hnum]
            exact min_le_left _ _
          · intro hlt
            obtain ⟨new, hstack⟩ := h.stack
            have hv := num_of h.index
            have hle := h.low_le
            have hmem := h.ok.mem_old hstack ((h.ok.onstack e.2).mp hon) (by omega)
            exact ⟨e.2, hmem, hnum, ReflTransGen.single hedge⟩
        · rename_i hoff
          refine h.see (fun _ => ⟨by rw [hi]; simp, fun hz => ?_⟩)
          exact absurd ((h.ok.onstack e.2).mpr (h.later.mem_stack hz)) hoff
  · rw [if_neg hev]
    exact h.see (fun hc => absurd hc hev)

/-- The whole loop. -/
theorem Inside.visitAll {dfs : Nat → Search → Search} {fuel : Nat} (hdfs : Spec edges n fuel dfs)
    (hgray : ∀ w, gray w → w ∈ s₀.stack) (hn : ∀ a b, Edge edges a b → b < n) (hv : v < n)
    (hfuel : whites n s₀ ≤ fuel + 1) (rest : List (Nat × Nat)) :
    ∀ {seen : List (Nat × Nat)} {s : Search}, seen ++ rest = edges →
      Inside edges n gray s₀ v seen (s.low v) s →
      Inside edges n gray s₀ v edges ((rest.foldl (Search.visit dfs v) s).low v)
        (rest.foldl (Search.visit dfs v) s) := by
  induction rest with
  | nil =>
      intro seen s hseen h
      rw [List.append_nil] at hseen
      subst hseen
      exact h
  | cons e rest ih =>
      intro seen s hseen h
      have hmem : e ∈ edges := by
        rw [← hseen]
        simp
      have hstep := h.visit hdfs hgray hn hmem hv hfuel
      exact ih (by rw [List.append_assoc]; exact hseen) hstep

/-! ### Closing a component -/

theorem popTo_append {new old : List Nat} (hv : v ∉ new) : popTo v (new ++ v :: old) = (new ++ [v], old) := by
  induction new with
  | nil =>
      show popTo v (v :: old) = _
      unfold popTo
      rw [if_pos rfl]
      rfl
  | cons w new ih =>
      have hw : w ≠ v := fun he => hv (he ▸ List.mem_cons_self ..)
      show popTo v (w :: (new ++ v :: old)) = _
      unfold popTo
      rw [if_neg hw, ih (fun hc => hv (List.mem_cons_of_mem _ hc))]
      rfl

theorem Ok.mem_flatten (h : s.Ok edges n gray) {a : Nat} :
    a ∈ s.comps.flatten ↔ ∃ c, s.component a = some c := by
  rw [List.mem_flatten]
  constructor
  · rintro ⟨m, hm, ha⟩
    obtain ⟨c, hc⟩ := List.getElem?_of_mem hm
    exact ⟨c, (h.component a c).mpr ⟨m, hc, ha⟩⟩
  · rintro ⟨c, hc⟩
    obtain ⟨m, hm, ha⟩ := (h.component a c).mp hc
    exact ⟨m, List.mem_of_getElem? hm, ha⟩

/-- There are fewer components than nodes, as long as something is on the stack. -/
theorem Ok.comps_lt (h : s.Ok edges n gray) (hv : v ∈ s.stack) : s.comps.length < n := by
  have hflat : s.comps.length ≤ s.comps.flatten.length := by
    have hne := h.comps_ne
    generalize s.comps = comps at hne
    induction comps with
    | nil => simp
    | cons m comps ih =>
        have hm := List.length_pos_of_ne_nil (hne m (List.mem_cons_self ..))
        have := ih (fun m' hm' => hne m' (List.mem_cons_of_mem _ hm'))
        rw [List.flatten_cons, List.length_append, List.length_cons]
        omega
  have hsub : (s.comps.flatten ++ s.stack).toFinset ⊆ Finset.range n := by
    intro w hw
    rw [List.mem_toFinset, List.mem_append] at hw
    exact Finset.mem_range.mpr (h.node_lt w ((h.numbered w).mpr hw))
  have hcard := Finset.card_le_card hsub
  rw [List.toFinset_card_of_nodup h.nodup, Finset.card_range, List.length_append] at hcard
  have := List.length_pos_of_mem hv
  omega

/-- The new part of the stack and the closed components, when nothing goes below `v`: no edge
leaves them. -/
theorem Inside.closed (h : Inside edges n gray s₀ v edges s₀.nextIndex s)
    (hgray : ∀ w, gray w → w ∈ s₀.stack) {new : List Nat} (hstack : s.stack = new ++ v :: s₀.stack)
    {a b : Nat} (ha : a ∈ s.comps.flatten ∨ a ∈ new ++ [v]) (he : Edge edges a b) :
    b ∈ s.comps.flatten ∨ b ∈ new ++ [v] := by
  have hnodup := h.ok.nodup
  rw [hstack] at hnodup
  rcases ha with ha | ha
  · obtain ⟨c, hc⟩ := h.ok.mem_flatten.mp ha
    obtain ⟨c', -, hc'⟩ := h.ok.comp_edge a b c he hc
    exact Or.inl (h.ok.mem_flatten.mpr ⟨c', hc'⟩)
  · have hnew : a ∈ new → a ∉ s₀.stack ∧ a ≠ v := by
      intro hmem
      rw [List.nodup_append, List.nodup_append] at hnodup
      have hdisj := hnodup.2.1.2.2 a hmem
      exact ⟨fun hc => hdisj a (List.mem_cons_of_mem _ hc) rfl, hdisj v (List.mem_cons_self ..)⟩
    have hamem : a ∈ s.stack := by
      rw [hstack]
      rcases List.mem_append.mp ha with hmem | hmem
      · exact List.mem_append_left _ hmem
      · rw [List.mem_singleton.mp hmem]
        simp
    -- the target has an index, and it is not below `v`
    have hb : s.index b ≠ none ∧ (b ∈ s₀.stack → s₀.nextIndex ≤ s.num b) := by
      rcases List.mem_append.mp ha with hmem | hmem
      · obtain ⟨hout, hne⟩ := hnew hmem
        refine ⟨h.ok.succ a b he ((h.ok.numbered a).mpr (Or.inr hamem)) ?_, ?_⟩
        · rintro (hg | hg)
          · exact hout (hgray a hg)
          · exact hne hg
        · exact fun hz => h.above a hamem hout hne b hz he
      · rw [List.mem_singleton.mp hmem] at he
        exact h.seen b he
    rcases (h.ok.numbered b).mp hb.1 with hmem | hmem
    · exact Or.inl hmem
    · rw [hstack, List.append_cons] at hmem
      rcases List.mem_append.mp hmem with hmem | hmem
      · exact Or.inr hmem
      · have hlt := (h.ok.above hstack).2 hmem
        rw [num_of h.index] at hlt
        exact absurd (hb.2 hmem) (by omega)

/-- Every node of the new part reaches `v`. -/
theorem Inside.back (h : Inside edges n gray s₀ v edges s₀.nextIndex s)
    (hgray : ∀ w, gray w → w ∈ s₀.stack) {new : List Nat} (hstack : s.stack = new ++ v :: s₀.stack) :
    ∀ a ∈ new ++ [v], Reach edges a v := by
  have hmem : ∀ {a}, a ∈ new ++ [v] → a ∈ s.stack := by
    intro a ha
    rw [hstack, List.append_cons]
    exact List.mem_append_left _ ha
  have hnodup := h.ok.nodup
  rw [hstack, List.append_cons, ← List.append_assoc, List.nodup_append] at hnodup
  -- a path from the new part stays there or in closed components
  have hstay : ∀ {a x}, a ∈ new ++ [v] → Reach edges a x → x ∈ s.comps.flatten ∨ x ∈ new ++ [v] := by
    intro a x ha hr
    induction hr with
    | refl => exact Or.inr ha
    | tail _ he ih => exact h.closed hgray hstack ih he
  have hind : ∀ k, ∀ a ∈ new ++ [v], s.num a = k → Reach edges a v := by
    intro k
    induction k using Nat.strong_induction_on with
    | _ k ih =>
        intro a ha hk
        rcases List.mem_append.mp ha with hnew | hv
        · have hout : ∀ b ∈ s₀.stack, a ≠ b := hnodup.2.2 a (List.mem_append_right _ ha)
          have hne : a ≠ v := by
            rintro rfl
            exact absurd ((h.ok.above hstack).1 hnew) (lt_irrefl _)
          obtain ⟨b, hb, hlt, hr⟩ := h.ok.down a (hmem ha) (by
            rintro (hg | hg)
            · exact hout a (hgray a hg) rfl
            · exact hne hg)
          rw [hstack, List.append_cons] at hb
          rcases List.mem_append.mp hb with hb | hb
          · exact hr.trans (ih _ (hk ▸ hlt) b hb rfl)
          · exact absurd rfl (hnodup.2.2 b (List.mem_append.mpr (hstay ha hr)) b hb)
        · rw [List.mem_singleton.mp hv]
          exact ReflTransGen.refl
  exact fun a ha => hind _ a ha rfl

/-- Closing the component of `v`. -/
theorem Inside.close {maxComps : Nat} (h : Inside edges n gray s₀ v edges s₀.nextIndex s)
    (h₀ : s₀.Ok edges n gray) (hmax : n ≤ maxComps) :
    (s.close maxComps v).Ok edges n gray ∧ (s.close maxComps v).stack = s₀.stack ∧
      (s.close maxComps v).index = s.index ∧ (s.close maxComps v).low = s.low ∧
      (s.close maxComps v).nextIndex = s.nextIndex := by
  obtain ⟨new, hstack⟩ := h.stack
  have hback := h.back h₀.gray_stack hstack
  have hroom : ¬ maxComps ≤ s.comps.length := by
    have := h.ok.comps_lt h.mem_stack
    omega
  have hnodup := h.ok.nodup
  rw [hstack, List.append_cons, ← List.append_assoc, List.nodup_append, List.nodup_append] at hnodup
  obtain ⟨⟨hflat, hnewv, hdisj⟩, hold, hout⟩ := hnodup
  have hvnew : v ∉ new := fun hc => absurd ((h.ok.above hstack).1 hc) (lt_irrefl _)
  have hclose : s.close maxComps v = { s with
      stack := s₀.stack
      onstack := fun w => if w ∈ new ++ [v] then false else s.onstack w
      component := fun w => if w ∈ new ++ [v] then some s.comps.length else s.component w
      comps := s.comps ++ [new ++ [v]] } := by
    unfold Search.close
    rw [if_neg hroom, hstack, popTo_append hvnew]
  rw [hclose]
  refine ⟨?_, rfl, rfl, rfl, rfl⟩
  have hmemv : ∀ {a}, a ∈ new ++ [v] → a ∈ s.stack := by
    intro a ha
    rw [hstack, List.append_cons]
    exact List.mem_append_left _ ha
  have holds : ∀ {a}, a ∈ s₀.stack → a ∈ s.stack := fun ha => h.later.mem_stack ha
  have hnotmem : ∀ {a}, a ∈ s₀.stack → a ∉ new ++ [v] :=
    fun ha hc => hout _ (List.mem_append_right _ hc) _ ha rfl
  have hcomp : ∀ {a c}, s.component a = some c → a ∉ new ++ [v] ∧ c < s.comps.length := by
    intro a c hc
    refine ⟨fun hm => hdisj a (h.ok.mem_flatten.mpr ⟨c, hc⟩) a hm rfl, ?_⟩
    obtain ⟨m, hm, -⟩ := (h.ok.component a c).mp hc
    exact (List.getElem?_eq_some_iff.mp hm).1
  -- the component of a node in the new state
  have hcomp' : ∀ {a c}, (if a ∈ new ++ [v] then some s.comps.length else s.component a) = some c →
      (a ∈ new ++ [v] ∧ c = s.comps.length) ∨ (a ∉ new ++ [v] ∧ s.component a = some c) := by
    intro a c hc
    split at hc
    · rename_i ha
      cases hc
      exact Or.inl ⟨ha, rfl⟩
    · rename_i ha
      exact Or.inr ⟨ha, hc⟩
  constructor
  · exact h.ok.index_lt
  · intro w
    show s.index w ≠ none ↔ w ∈ (s.comps ++ [new ++ [v]]).flatten ∨ w ∈ s₀.stack
    rw [h.ok.numbered w, hstack, List.append_cons, List.flatten_append]
    simp [or_assoc]
  · show ((s.comps ++ [new ++ [v]]).flatten ++ s₀.stack).Nodup
    have hnd := h.ok.nodup
    rw [hstack, List.append_cons, ← List.append_assoc] at hnd
    simpa using hnd
  · exact h.ok.node_lt
  · intro w
    show (if w ∈ new ++ [v] then false else s.onstack w) = true ↔ w ∈ s₀.stack
    by_cases hw : w ∈ new ++ [v]
    · rw [if_pos hw]
      exact ⟨fun hc => absurd hc (by simp), fun hc => absurd hw (hnotmem hc)⟩
    · rw [if_neg hw, h.ok.onstack w, hstack, List.append_cons, List.mem_append]
      exact ⟨fun hc => hc.resolve_left hw, Or.inr⟩
  · intro w c
    show (if w ∈ new ++ [v] then some s.comps.length else s.component w) = some c ↔
      ∃ m, (s.comps ++ [new ++ [v]])[c]? = some m ∧ w ∈ m
    constructor
    · intro hc
      rcases hcomp' hc with ⟨hw, rfl⟩ | ⟨hw, hc⟩
      · exact ⟨new ++ [v], by simp, hw⟩
      · obtain ⟨m, hm, hwm⟩ := (h.ok.component w c).mp hc
        exact ⟨m, by rw [List.getElem?_append_left (hcomp hc).2]; exact hm, hwm⟩
    · rintro ⟨m, hm, hw⟩
      rcases Nat.lt_or_ge c s.comps.length with hlt | hge
      · rw [List.getElem?_append_left hlt] at hm
        have hc := (h.ok.component w c).mpr ⟨m, hm, hw⟩
        rw [if_neg (hcomp hc).1, hc]
      · rw [List.getElem?_append_right hge] at hm
        obtain ⟨hz, hm⟩ : c - s.comps.length = 0 ∧ new ++ [v] = m := by
          rw [List.getElem?_singleton] at hm
          split at hm
          · rename_i hz
            exact ⟨hz, Option.some.inj hm⟩
          · cases hm
        rw [← hm] at hw
        rw [if_pos hw]
        congr 1
        omega
  · intro m hm
    rcases List.mem_append.mp hm with hm | hm
    · exact h.ok.comps_ne m hm
    · rw [List.mem_singleton.mp hm]
      simp
  · have hsort := h.ok.sorted
    rw [hstack, List.pairwise_append, List.pairwise_cons] at hsort
    exact hsort.2.1.2
  · exact h₀.gray_stack
  · intro a b he ha hg
    by_cases hav : a = v
    · rw [hav] at he
      exact (h.seen b he).1
    · exact h.ok.succ a b he ha (fun hc => hc.elim hg hav)
  · intro a b c he hc
    show ∃ c' ≤ c, (if b ∈ new ++ [v] then some s.comps.length else s.component b) = some c'
    rcases hcomp' hc with ⟨ha, rfl⟩ | ⟨ha, hc⟩
    · -- an edge out of the new component
      rcases h.closed h₀.gray_stack hstack (Or.inr ha) he with hb | hb
      · obtain ⟨c', hc'⟩ := h.ok.mem_flatten.mp hb
        exact ⟨c', le_of_lt (hcomp hc').2, by rw [if_neg (hcomp hc').1, hc']⟩
      · exact ⟨s.comps.length, le_refl _, if_pos hb⟩
    · obtain ⟨c', hle, hc'⟩ := h.ok.comp_edge a b c he hc
      exact ⟨c', hle, by rw [if_neg (hcomp hc').1, hc']⟩
  · intro a b c hca hcb
    rcases hcomp' hca with ⟨ha, hc⟩ | ⟨-, ha⟩
    · rcases hcomp' hcb with ⟨hb, -⟩ | ⟨-, hb⟩
      · have hvb : Reach edges v b := by
          rcases List.mem_append.mp hb with hbn | hbv
          · exact h.ok.up v h.mem_stack b (hmemv hb) ((h.ok.above hstack).1 hbn)
          · rw [List.mem_singleton.mp hbv]
            exact ReflTransGen.refl
        exact (hback a ha).trans hvb
      · have := (hcomp hb).2
        omega
    · rcases hcomp' hcb with ⟨-, hc⟩ | ⟨-, hb⟩
      · have := (hcomp ha).2
        omega
      · exact h.ok.comp_reach a b c ha hb
  · intro a ha b hb
    exact h.ok.up a (holds ha) b (holds hb)
  · intro a ha hg
    have hlt := (h.ok.above hstack).2 ha
    obtain ⟨b, hb, hba, hr⟩ := h.ok.down a (holds ha) (by
      rintro (hc | hc)
      · exact hg hc
      · exact hnotmem ha (by rw [hc]; simp))
    exact ⟨b, h.ok.mem_old hstack hb (by omega), hba, hr⟩

end Inside

/-! ### The search -/

theorem tarjan_spec (hn : ∀ a b, Edge edges a b → b < n) {maxComps : Nat} (hmax : n ≤ maxComps)
    (fuel : Nat) : Spec edges n fuel (tarjan edges maxComps fuel) := by
  induction fuel with
  | zero =>
      intro gray s w _ hw hlt _ hfuel
      -- `w` has no index, so some node is left
      have hpos : 0 < whites n s := Finset.card_pos.mpr
        ⟨w, Finset.mem_filter.mpr ⟨Finset.mem_range.mpr hlt, hw⟩⟩
      omega
  | succ fuel ih =>
      intro gray s v h hv hlt hreach hfuel
      have hin := Inside.visitAll ih h.gray_stack hn hlt hfuel edges (List.nil_append _)
        (inside_enter h hv hlt hreach _)
      unfold tarjan
      dsimp only []
      generalize edges.foldl (Search.visit (tarjan edges maxComps fuel) v) (s.enter v) = s' at hin ⊢
      by_cases hclose : s'.index v = some (s'.low v)
      · -- nothing goes below `v`
        have hlow : s'.low v = s.nextIndex := by
          rw [hin.index] at hclose
          exact (Option.some.inj hclose).symm
        rw [if_pos hclose]
        rw [hlow] at hin
        obtain ⟨hok, hstack, hindex, hlows, hnext⟩ := hin.close h hmax
        refine ⟨hok, ⟨?_, ?_, ?_, ?_, ⟨[], hstack⟩⟩, ?_, Or.inl ?_, ?_⟩
        · rw [hindex]
          exact hin.later.index
        · rw [hindex]
          exact hin.later.fresh
        · rw [hlows]
          exact hin.later.low
        · rw [hnext]
          exact hin.later.next
        · rw [hindex, hin.index]
          simp
        · rw [hlows, hlow]
        · intro y hy hold
          rw [hstack] at hy
          exact absurd hy hold
      · rw [if_neg hclose]
        have hlow : s'.low v ≠ s.nextIndex := by
          intro hc
          exact hclose (by rw [hin.index, hc])
        have hreach' := hin.low_reach.resolve_left hlow
        obtain ⟨x, hx, hxnum, hr⟩ := hreach'
        obtain ⟨new, hstack⟩ := hin.stack
        have hok := hin.ok
        refine ⟨?_, hin.later, by rw [hin.index]; simp, Or.inr ⟨x, hx, hxnum, hr⟩, ?_⟩
        · refine ⟨hok.index_lt, hok.numbered, hok.nodup, hok.node_lt, hok.onstack, hok.component,
            hok.comps_ne, hok.sorted, ?_, ?_, hok.comp_edge, hok.comp_reach, hok.up, ?_⟩
          · intro w hw
            exact hok.gray_stack w (Or.inl hw)
          · intro a b he ha hg
            by_cases hav : a = v
            · rw [hav] at he
              exact (hin.seen b he).1
            · exact hok.succ a b he ha (fun hc => hc.elim hg hav)
          · intro a ha hg
            by_cases hav : a = v
            · have hle := hin.low_le
              refine ⟨x, hin.later.mem_stack hx, ?_, hav ▸ hr⟩
              rw [hav, num_of hin.index, hxnum]
              omega
            · exact hok.down a ha (fun hc => hc.elim hg hav)
        · intro y hy hold z hz he
          by_cases hyv : y = v
          · rw [hyv] at he
            exact (hin.seen z he).2 hz
          · exact hin.above y hy hold hyv z hz he

theorem Ok.stack_nil (h : s.Ok edges n (fun _ => False)) : s.stack = [] := by
  have hind : ∀ k, ∀ a ∈ s.stack, s.num a = k → False := by
    intro k
    induction k using Nat.strong_induction_on with
    | _ k ih =>
        intro a ha hk
        obtain ⟨b, hb, hlt, -⟩ := h.down a ha id
        exact ih _ (hk ▸ hlt) b hb rfl
  exact List.eq_nil_iff_forall_not_mem.mpr (fun a ha => hind _ a ha rfl)

theorem ok_empty : empty.Ok edges n (fun _ => False) := by
  constructor <;> simp [empty, num]

end Search

/-- The components of a graph: every node is in exactly one, an edge leads to the same component
or to an earlier one, and two nodes of one component reach each other. -/
structure IsComponents (edges : List (Nat × Nat)) (n : Nat) (s : Search) : Prop where
  nodes : s.comps.flatten.Perm (List.range n)
  component : ∀ v c, s.component v = some c ↔ ∃ m, s.comps[c]? = some m ∧ v ∈ m
  edge : ∀ a b c, Edge edges a b → s.component a = some c → ∃ c' ≤ c, s.component b = some c'
  reach : ∀ a b c, s.component a = some c → s.component b = some c → Reach edges a b

theorem components_spec (hn : ∀ a b, Edge edges a b → b < n) {maxComps : Nat} (hmax : n ≤ maxComps) :
    IsComponents edges n (buildComponents edges maxComps n) := by
  -- after the nodes below `k`, the stack is empty and they all have an index
  have hind : ∀ k, k ≤ n → ∀ s, s = (List.range k).foldl
      (fun s v => if s.index v = none then tarjan edges maxComps n v s else s) Search.empty →
      s.Ok edges n (fun _ => False) ∧ ∀ v < k, s.index v ≠ none := by
    intro k
    induction k with
    | zero =>
        intro _ s hs
        rw [hs]
        exact ⟨Search.ok_empty, fun v hv => by omega⟩
    | succ k ih =>
        intro hk s hs
        rw [List.range_succ, List.foldl_append] at hs
        obtain ⟨hok, hall⟩ := ih (by omega) _ rfl
        generalize (List.range k).foldl
          (fun s v => if s.index v = none then tarjan edges maxComps n v s else s) Search.empty = t at hok hall hs
        simp only [List.foldl_cons, List.foldl_nil] at hs
        rw [hs]
        split
        · rename_i hw
          have hwhites : Search.whites n t ≤ n := by
            have := Finset.card_filter_le (Finset.range n) (fun w => t.index w = none)
            rwa [Finset.card_range] at this
          have hsearch := Search.tarjan_spec hn hmax n _ t k hok hw hk
            (by rw [hok.stack_nil]; simp) hwhites
          refine ⟨hsearch.ok, fun v hv => ?_⟩
          rcases Nat.lt_succ_iff_lt_or_eq.mp hv with hv | rfl
          · obtain ⟨j, hj⟩ := Option.ne_none_iff_exists'.mp (hall v hv)
            rw [hsearch.later.index v j hj]
            simp
          · exact hsearch.index
        · rename_i hw
          refine ⟨hok, fun v hv => ?_⟩
          rcases Nat.lt_succ_iff_lt_or_eq.mp hv with hv | rfl
          · exact hall v hv
          · exact hw
  obtain ⟨hok, hall⟩ := hind n (le_refl n) _ rfl
  refine ⟨?_, hok.component, hok.comp_edge, hok.comp_reach⟩
  have hnodup := hok.nodup
  have hnil := hok.stack_nil
  rw [hnil, List.append_nil] at hnodup
  refine (List.perm_ext_iff_of_nodup hnodup List.nodup_range).mpr (fun v => ?_)
  rw [List.mem_range]
  have hnum := hok.numbered v
  rw [hnil] at hnum
  simp only [List.not_mem_nil, or_false] at hnum
  exact ⟨fun hv => hok.node_lt v (hnum.mpr hv), fun hv => hnum.mp (hall v hv)⟩

end Spec

end Guppy
