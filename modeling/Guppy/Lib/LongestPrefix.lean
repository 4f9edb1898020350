import Mathlib.Data.List.Infix

set_option autoImplicit false

/-! # The longest prefix

A table of keys that are lists, in which a list is looked up by the longest key that is a prefix of it. There
is at most one such key, and there is one as soon as any key is a prefix. It stays the one when other keys are
taken away.
-/

namespace LongestPrefix

variable {β : Type}

/-- `k` is the longest key that is a prefix of `p`. -/
structure Best (keys : List (List β)) (p k : List β) : Prop where
  mem : k ∈ keys
  isPrefix : k <+: p
  longest : ∀ k' ∈ keys, k' <+: p → k'.length ≤ k.length

theorem Best.unique {keys : List (List β)} {p k k' : List β} (h : Best keys p k) (h' : Best keys p k') : k = k' := by
  have hle := h.longest k' h'.mem h'.isPrefix
  have hge := h'.longest k h.mem h.isPrefix
  exact (List.prefix_of_prefix_length_le h.isPrefix h'.isPrefix hge).eq_of_length (le_antisymm hge hle)

theorem exists_best {keys : List (List β)} {p : List β} (h : ∃ k ∈ keys, k <+: p) : ∃ k, Best keys p k := by
  induction keys with
  | nil =>
      obtain ⟨k, hk, -⟩ := h
      exact absurd hk List.not_mem_nil
  | cons k₀ keys ih =>
      by_cases hrest : ∃ k ∈ keys, k <+: p
      · obtain ⟨k, hmem, hpre, hlong⟩ := ih hrest
        by_cases hlonger : k₀ <+: p ∧ k.length < k₀.length
        · refine ⟨k₀, List.mem_cons_self .., hlonger.1, fun k' hk' hpre' => ?_⟩
          rcases List.mem_cons.mp hk' with rfl | hk'
          · exact le_rfl
          · exact (hlong k' hk' hpre').trans (le_of_lt hlonger.2)
        · refine ⟨k, List.mem_cons_of_mem _ hmem, hpre, fun k' hk' hpre' => ?_⟩
          rcases List.mem_cons.mp hk' with rfl | hk'
          · exact not_lt.mp (fun hlt => hlonger ⟨hpre', hlt⟩)
          · exact hlong k' hk' hpre'
      · obtain ⟨k, hk, hpre⟩ := h
        have hfirst : ∀ k' ∈ k₀ :: keys, k' <+: p → k' = k₀ := fun k' hk' hpre' =>
          (List.mem_cons.mp hk').elim id (fun hk' => absurd ⟨k', hk', hpre'⟩ hrest)
        obtain rfl := hfirst k hk hpre
        exact ⟨k, List.mem_cons_self .., hpre, fun k' hk' hpre' => le_of_eq (congrArg _ (hfirst k' hk' hpre'))⟩

/-- The best key stays the best when other keys are taken away. -/
theorem Best.mono {keys keys' : List (List β)} {p k : List β} (h : Best keys p k) (hsub : keys' ⊆ keys)
    (hk : k ∈ keys') : Best keys' p k :=
  ⟨hk, h.isPrefix, fun k' hk' => h.longest k' (hsub hk')⟩

end LongestPrefix
