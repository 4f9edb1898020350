import Mathlib.Tactic
import Mathlib.Data.List.Nodup

set_option autoImplicit false

/-! # Post-order walks

A walk over the nodes `0, ..., n - 1` that marks a node when it comes to it, walks to its children,
and then records the node as done. When the children of a node are smaller than the node, the walk
is inside larger nodes only, so a smaller node that has a mark is done already. That is the whole
invariant (`Walk.Ready`): every node is done once, behind its children (`walkAll_spec`).
-/

namespace Guppy

/-- The nodes that have a mark, and those that are done, in order. -/
structure Walk where
  marked : List Nat
  done : List Nat

/-- The walk from the node `k`. -/
def postOrder (children : Nat → List Nat) (n : Nat) : Nat → Nat → Walk → Walk
  | 0, _, w => w
  | fuel + 1, k, w =>
      if n ≤ k ∨ k ∈ w.marked then w
      else
        let w := (children k).foldl (fun w d => postOrder children n fuel d w) { w with marked := k :: w.marked }
        { w with done := w.done ++ [k] }

/-- The walks from several nodes, one after the other. -/
def walkAll (children : Nat → List Nat) (n : Nat) (ks : List Nat) (w : Walk) : Walk :=
  ks.foldl (fun w k => postOrder children n (n + 1) k w) w

namespace Walk

variable {children : Nat → List Nat} {n b : Nat} {w w' w'' : Walk}

/-- No node has been visited. -/
def start : Walk := ⟨[], []⟩

/-- Every node stands behind its children. -/
def Ordered (children : Nat → List Nat) (l : List Nat) : Prop :=
  ∀ pre k post, l = pre ++ k :: post → ∀ d ∈ children k, d ∈ pre

theorem ordered_nil : Ordered children [] := by
  intro pre k post h
  simp at h

theorem Ordered.snoc {l : List Nat} (h : Ordered children l) {k : Nat} (hk : ∀ d ∈ children k, d ∈ l) :
    Ordered children (l ++ [k]) := by
  intro pre j post hsplit d hd
  rcases List.eq_nil_or_concat post with rfl | ⟨post', x, rfl⟩
  · -- the last node is `k`
    obtain ⟨rfl, hjk⟩ := List.append_inj' hsplit rfl
    simp only [List.cons.injEq, and_true] at hjk
    subst hjk
    exact hk d hd
  · rw [List.concat_eq_append, ← List.cons_append, ← List.append_assoc] at hsplit
    obtain ⟨rfl, -⟩ := List.append_inj' hsplit rfl
    exact h pre j post' rfl d hd

/-- The state before a walk to nodes below `b`: those that have a mark are done. -/
structure Ready (children : Nat → List Nat) (n b : Nat) (w : Walk) : Prop where
  nodup : w.done.Nodup
  lt : ∀ k ∈ w.done, k < n
  ordered : Ordered children w.done
  marked : ∀ k ∈ w.done, k ∈ w.marked
  below : ∀ k, k < b → k ∈ w.marked → k ∈ w.done

/-- What a walk to nodes below `b` adds. -/
def Grown (b : Nat) (w w' : Walk) : Prop :=
  ∃ new, w'.done = w.done ++ new ∧ (∀ k ∈ new, k < b) ∧ ∀ k, k ∈ w'.marked ↔ k ∈ w.marked ∨ k ∈ new

theorem Ready.mono {b' : Nat} (h : Ready children n b w) (hb : b' ≤ b) : Ready children n b' w :=
  { h with below := fun k hk => h.below k (lt_of_lt_of_le hk hb) }

theorem Grown.mono {b' : Nat} (h : Grown b w w') (hb : b ≤ b') : Grown b' w w' := by
  obtain ⟨new, hdone, hlt, hmark⟩ := h
  exact ⟨new, hdone, fun k hk => lt_of_lt_of_le (hlt k hk) hb, hmark⟩

theorem Grown.refl (b : Nat) (w : Walk) : Grown b w w := ⟨[], by simp, by simp, by simp⟩

theorem Grown.trans (h : Grown b w w') (h' : Grown b w' w'') : Grown b w w'' := by
  obtain ⟨new, hdone, hlt, hmark⟩ := h
  obtain ⟨new', hdone', hlt', hmark'⟩ := h'
  refine ⟨new ++ new', by rw [hdone', hdone, List.append_assoc], fun k hk => ?_, fun k => ?_⟩
  · exact (List.mem_append.mp hk).elim (hlt k) (hlt' k)
  · rw [hmark', hmark, List.mem_append, or_assoc]

theorem Grown.mem (h : Grown b w w') {k : Nat} (hk : k ∈ w.done) : k ∈ w'.done := by
  obtain ⟨new, hdone, -⟩ := h
  rw [hdone]
  exact List.mem_append_left _ hk

variable (hc : ∀ k, ∀ d ∈ children k, d < k)
include hc

/-- A walk visits its node, unless it was visited before, and nodes below it. -/
theorem postOrder_spec (fuel : Nat) : ∀ {k : Nat} {w : Walk}, k < fuel → k < n → k < b → Ready children n b w →
    Ready children n b (postOrder children n fuel k w) ∧ Grown (k + 1) w (postOrder children n fuel k w) ∧
      k ∈ (postOrder children n fuel k w).done := by
  induction fuel generalizing b with
  | zero =>
      intro k w hk
      omega
  | succ fuel ih =>
      intro k w hfuel hn hb hw
      unfold postOrder
      by_cases hm : k ∈ w.marked
      · rw [if_pos (Or.inr hm)]
        exact ⟨hw, Grown.refl _ w, hw.below k hb hm⟩
      rw [if_neg (by simp [hm, hn])]
      -- inside `k`, the marks below `k` are those of nodes that are done
      have hin : Ready children n k { w with marked := k :: w.marked } := by
        refine ⟨hw.nodup, hw.lt, hw.ordered, fun j hj => List.mem_cons_of_mem _ (hw.marked j hj), fun j hj hjm => ?_⟩
        rcases List.mem_cons.mp hjm with rfl | hjm
        · omega
        · exact hw.below j (by omega) hjm
      have hfold : ∀ (ds : List Nat) (u : Walk), (∀ d ∈ ds, d < k) → Ready children n k u →
          Ready children n k (ds.foldl (fun u d => postOrder children n fuel d u) u) ∧
          Grown k u (ds.foldl (fun u d => postOrder children n fuel d u) u) ∧
          ∀ d ∈ ds, d ∈ (ds.foldl (fun u d => postOrder children n fuel d u) u).done := by
        intro ds
        induction ds with
        | nil => exact fun u _ hu => ⟨hu, Grown.refl _ u, by simp⟩
        | cons d ds ihd =>
            intro u hds hu
            have hd : d < k := hds d (List.mem_cons_self ..)
            obtain ⟨hr, hg, hdone⟩ := ih (by omega) (by omega) hd hu
            obtain ⟨hr', hg', hall⟩ := ihd _ (fun x hx => hds x (List.mem_cons_of_mem _ hx)) hr
            refine ⟨hr', (hg.mono (by omega)).trans hg', fun x hx => ?_⟩
            rcases List.mem_cons.mp hx with rfl | hx
            · exact hg'.mem hdone
            · exact hall x hx
      obtain ⟨hr, ⟨new, hdone, hlt, hmark⟩, hall⟩ := hfold (children k) _ (hc k) hin
      generalize (children k).foldl (fun u d => postOrder children n fuel d u) { w with marked := k :: w.marked } = u
        at hr hdone hmark hall
      simp only [List.mem_cons] at hmark
      have hknew : k ∉ u.done := by
        rw [hdone, List.mem_append]
        rintro (hk | hk)
        · exact hm (hw.marked k hk)
        · exact absurd (hlt k hk) (lt_irrefl k)
      refine ⟨⟨?_, ?_, hr.ordered.snoc hall, ?_, ?_⟩, ⟨new ++ [k], ?_, ?_, ?_⟩, ?_⟩
      · exact List.Nodup.append hr.nodup (List.nodup_singleton k) (List.disjoint_singleton.mpr hknew)
      · intro j hj
        rcases List.mem_append.mp hj with hj | hj
        · exact hr.lt j hj
        · rw [List.mem_singleton.mp hj]
          exact hn
      · intro j hj
        rcases List.mem_append.mp hj with hj | hj
        · exact hr.marked j hj
        · exact (hmark j).mpr (Or.inl (Or.inl (List.mem_singleton.mp hj)))
      · intro j hj hjm
        show j ∈ u.done ++ [k]
        rw [hdone, List.append_assoc]
        rcases (hmark j).mp hjm with (rfl | hjw) | hjn
        · simp
        · exact List.mem_append_left _ (hw.below j hj hjw)
        · simp [hjn]
      · show u.done ++ [k] = w.done ++ (new ++ [k])
        rw [hdone, List.append_assoc]
      · intro j hj
        rcases List.mem_append.mp hj with hj | hj
        · exact lt_trans (hlt j hj) (Nat.lt_succ_self k)
        · rw [List.mem_singleton.mp hj]
          exact Nat.lt_succ_self k
      · intro j
        show j ∈ u.marked ↔ _
        rw [hmark, List.mem_append, List.mem_singleton]
        tauto
      · simp

/-- Walks from several nodes leave all of them done. -/
theorem walkAll_spec {ks : List Nat} (hks : ∀ k ∈ ks, k < n) {w : Walk} (hw : Ready children n n w) :
    Ready children n n (walkAll children n ks w) ∧ (∀ k ∈ w.done, k ∈ (walkAll children n ks w).done) ∧
      ∀ k ∈ ks, k ∈ (walkAll children n ks w).done := by
  induction ks generalizing w with
  | nil => exact ⟨hw, fun _ hk => hk, by simp⟩
  | cons k ks ih =>
      have hk : k < n := hks k (List.mem_cons_self ..)
      obtain ⟨hr, hg, hdone⟩ := postOrder_spec hc (n + 1) (by omega) hk hk hw
      obtain ⟨hr', hkeep, hall⟩ := ih (fun x hx => hks x (List.mem_cons_of_mem _ hx)) hr
      refine ⟨hr', fun x hx => hkeep x (hg.mem hx), fun x hx => ?_⟩
      rcases List.mem_cons.mp hx with rfl | hx
      · exact hkeep x hdone
      · exact hall x hx

omit hc in
theorem ready_start (children : Nat → List Nat) (n b : Nat) : Ready children n b start :=
  ⟨List.nodup_nil, by simp [start], ordered_nil, by simp [start], by simp [start]⟩

/-- A walk that ends with walks from all nodes visits each of them once. -/
theorem walkAll_perm {ks : List Nat} (hks : ∀ k ∈ ks, k < n) :
    (walkAll children n (ks ++ List.range n) start).done.Perm (List.range n) ∧
      Ordered children (walkAll children n (ks ++ List.range n) start).done := by
  have hall : ∀ k ∈ ks ++ List.range n, k < n := by
    intro k hk
    rcases List.mem_append.mp hk with hk | hk
    · exact hks k hk
    · exact List.mem_range.mp hk
  obtain ⟨hr, -, hdone⟩ := walkAll_spec hc hall (ready_start children n n)
  refine ⟨(List.perm_ext_iff_of_nodup hr.nodup List.nodup_range).mpr (fun k => ?_), hr.ordered⟩
  rw [List.mem_range]
  exact ⟨hr.lt k, fun hk => hdone k (List.mem_append_right _ (List.mem_range.mpr hk))⟩

end Walk

end Guppy
