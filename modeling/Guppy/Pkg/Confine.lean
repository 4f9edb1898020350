import Guppy.Pkg.Install

set_option autoImplicit false

/-! # What an archive can touch

A member's destination is the root, a slash and a path without `..`, so it starts below the
root. Where it ends depends on the links of the tree, which earlier members may have made.
`unpack_confined` says that while the root contains its links, every object that is created
or overwritten lies at or below the root; `absolute_link_escapes` is an archive of two
members, a link to `/` and a file below it, that overwrites a file outside.
-/

namespace Guppy.Pkg

open Vfs Prog

/-- A path text that names nothing, or a location at or below `R` before links are
followed. -/
def StartsInside (cwd : Text) (R : Loc) (path : Text) : Prop :=
  vfsNormalizePath cwd path ≠ [] →
    Names (segments (vfsNormalizePath cwd path)) ∧ R <+: segments (vfsNormalizePath cwd path)

/-- A path text that names nothing, or a directory on the way to `R`. -/
def LeadsTo (cwd : Text) (R : Loc) (path : Text) : Prop :=
  vfsNormalizePath cwd path ≠ [] → segments (vfsNormalizePath cwd path) <+: R

/-- Everything that was touched lies at or below `R`. -/
def TouchedInside (R : Loc) (w : World) : Prop := ∀ l ∈ w.touched, R <+: l

/-- The root contains its links, and everything that was touched lies at or below it. -/
def Confining (R : Loc) (w : World) : Prop := Contained w.tree R ∧ TouchedInside R w

section Calls

variable {outcome : Tree → Loc → Outcome} {cwd : Text} {R : Loc}

theorem get_run (w : World) : (get : Prog World World) w = .ok w w := rfl

/-- A change at or below the root is a touch at or below the root. -/
theorem leads_change {P Q : World → Prop} {loc : Loc} {node : Option Node} (hloc : R <+: loc)
    (hP : ∀ w, P w → TouchedInside R w) (hQ : ∀ w, P w → Q w)
    (hset : ∀ w, P w → TouchedInside R ⟨setNode w.tree loc node, w.touched ++ [loc]⟩ →
      Q ⟨setNode w.tree loc node, w.touched ++ [loc]⟩) :
    Leads P Q (change outcome loc node) := by
  intro w hw
  have htouch : TouchedInside R ⟨setNode w.tree loc node, w.touched ++ [loc]⟩ := by
    intro l hl
    rcases List.mem_append.mp hl with hl | hl
    · exact hP w hw l hl
    · rw [List.mem_singleton.mp hl]
      exact hloc
  unfold change
  rw [bind_of_ok (get_run w)]
  cases outcome w.tree loc with
  | done => exact hset w hw htouch
  | refused => exact hQ w hw
  | half => exact hset w hw htouch

theorem resolve_eq (w : World) (path : Text) (follow : Bool) :
    resolve cwd path follow w = match vfsResolvePathEx w.tree cwd path follow with
      | none => .error (-1) w
      | some r => .ok r w := by
  have hres : resolve cwd path follow w = (match vfsResolvePathEx w.tree cwd path follow with
      | none => throw (-1)
      | some r => pure r : Prog World PathRes) w := rfl
  rw [hres]
  cases vfsResolvePathEx w.tree cwd path follow with
  | none => rfl
  | some r => rfl

theorem normalize_of_resolved {t : Tree} {path : Text} {follow : Bool} {r : PathRes}
    (hr : vfsResolvePathEx t cwd path follow = some r) : vfsNormalizePath cwd path ≠ [] := by
  intro h0
  unfold vfsResolvePathEx at hr
  split at hr
  · cases hr
  · simp only [] at hr
    rw [if_pos h0] at hr
    cases hr

/-- What is known of a resolved path: it is at or below the root, and the tree agrees. -/
theorem resolve_run {path : Text} {follow : Bool} (hpath : StartsInside cwd R path) {w : World}
    (hw : Confining R w) :
    (∃ e, resolve cwd path follow w = .error e w) ∨
      ∃ r, resolve cwd path follow w = .ok r w ∧ Within w.tree R r := by
  rw [resolve_eq]
  cases hr : vfsResolvePathEx w.tree cwd path follow with
  | none => exact Or.inl ⟨_, rfl⟩
  | some r =>
      obtain ⟨hnames, hR⟩ := hpath (normalize_of_resolved hr)
      exact Or.inr ⟨r, rfl, resolve_inside hw.1 hnames hR hr⟩

theorem leads_resolve {α : Type} {Q : World → Prop} {path : Text} {follow : Bool}
    {f : PathRes → Prog World α} (hpath : StartsInside cwd R path)
    (hf : ∀ w r, Confining R w → Within w.tree R r → Q (left (f r w)))
    (hQ : ∀ w, Confining R w → Q w) :
    Leads (Confining R) Q (resolve cwd path follow >>= f) := by
  intro w hw
  rcases resolve_run hpath hw with ⟨e, hr⟩ | ⟨r, hr, hin⟩
  · rw [bind_of_error hr]
    exact hQ w hw
  · rw [bind_of_ok hr]
    exact hf w r hw hin

theorem leads_vfsMkdir {path : Text} (hpath : StartsInside cwd R path) :
    Leads (Confining R) (Confining R) (vfsMkdir outcome cwd path) := by
  refine leads_resolve hpath (fun w r hw hr => ?_) (fun _ h => h)
  show Confining R (left ((failIf (w.tree.node r.dir ≠ some .dir ∨ r.leaf = []) (-1) >>= fun _ => _) w))
  by_cases hc : w.tree.node r.dir ≠ some .dir ∨ r.leaf = []
  · rw [bind_of_error (failIf_of hc)]
    exact hw
  · rw [bind_of_ok (failIf_of_not hc)]
    push Not at hc
    cases hn : r.node with
    | some n =>
        cases n with
        | dir => exact hw
        | reg d => exact hw
        | symlink s => exact hw
        | device => exact hw
    | none =>
        have hnone := hr.node_eq hc.1
        rw [hn] at hnone
        refine leads_change (P := fun w' => w' = w) hr.inside ?_ ?_ ?_ w rfl
        · rintro w' rfl
          exact hw.2
        · rintro w' rfl
          exact hw
        · rintro w' rfl ht
          exact ⟨hw.1.setNode (Or.inr rfl) (fun t h0 => by cases h0), ht⟩

/-- On the way to the root there is nothing to make. -/
theorem leads_vfsMkdir_ancestor {path : Text} (hpath : LeadsTo cwd R path) :
    Leads (Confining R) (Confining R) (vfsMkdir outcome cwd path) := by
  intro w hw
  unfold vfsMkdir
  cases hr : vfsResolvePathEx w.tree cwd path true with
  | none =>
      rw [bind_of_error (by rw [resolve_eq, hr])]
      exact hw
  | some r =>
      rw [bind_of_ok (by rw [resolve_eq, hr])]
      have hdir := resolve_ancestor hw.1 (hpath (normalize_of_resolved hr)) hr
      show Confining R
        (left ((failIf (w.tree.node r.dir ≠ some .dir ∨ r.leaf = []) (-1) >>= fun _ => _) w))
      by_cases hc : w.tree.node r.dir ≠ some .dir ∨ r.leaf = []
      · rw [bind_of_error (failIf_of hc)]
        exact hw
      · rw [bind_of_ok (failIf_of_not hc)]
        simp only [hdir]
        exact hw

theorem leads_mkdirOrStat {path : Text} (hpath : StartsInside cwd R path ∨ LeadsTo cwd R path) :
    Leads (Confining R) (Confining R) (mkdirOrStat outcome cwd path) := by
  refine leads_orRun ?_ ?_
  · rcases hpath with h | h
    · exact leads_vfsMkdir h
    · exact leads_vfsMkdir_ancestor h
  · intro w hw
    exact leads_failIf (P := Confining R) (vfsStat cwd w.tree path = none) 1 w hw

/-- A new link lies at or below the root and may point anywhere; when there is none, nothing
has changed. -/
theorem vfsSymlink_run {target path : Text} (hpath : StartsInside cwd R path) {w : World}
    (hw : Confining R w) :
    (∃ w', vfsSymlink outcome cwd target path w = .ok () w' ∧ TouchedInside R w') ∨
      ∃ e, vfsSymlink outcome cwd target path w = .error e w := by
  by_cases h0 : target = []
  · exact Or.inr ⟨_, bind_of_error (failIf_of h0)⟩
  have hstart : vfsSymlink outcome cwd target path w = (resolve cwd path false >>= fun r => do
      let w ← get
      failIf (r.node ≠ none ∨ w.tree.node r.dir ≠ some .dir ∨ r.leaf = [] ∨ 60 < target.length)
        (-1)
      changeLink outcome r.loc target) w := bind_of_ok (failIf_of_not h0)
  rw [hstart]
  rcases resolve_run hpath hw with ⟨e, hr⟩ | ⟨r, hr, hin⟩
  · exact Or.inr ⟨e, bind_of_error hr⟩
  rw [bind_of_ok hr]
  show (∃ w', (failIf (r.node ≠ none ∨ w.tree.node r.dir ≠ some .dir ∨ r.leaf = [] ∨
    60 < target.length) (-1) >>= fun _ => changeLink outcome r.loc target) w = .ok () w' ∧ _) ∨
    ∃ e, (failIf (r.node ≠ none ∨ w.tree.node r.dir ≠ some .dir ∨ r.leaf = [] ∨
    60 < target.length) (-1) >>= fun _ => changeLink outcome r.loc target) w = .error e w
  by_cases hc : r.node ≠ none ∨ w.tree.node r.dir ≠ some .dir ∨ r.leaf = [] ∨ 60 < target.length
  · exact Or.inr ⟨_, bind_of_error (failIf_of hc)⟩
  rw [bind_of_ok (failIf_of_not hc)]
  have hchange : changeLink outcome r.loc target w
      = (failIf (outcome w.tree r.loc ≠ .done) (-1) >>= fun _ => set (World.mk
          (setNode w.tree r.loc (some (.symlink target))) (w.touched ++ [r.loc]))) w := rfl
  rw [hchange]
  by_cases ho : outcome w.tree r.loc ≠ .done
  · exact Or.inr ⟨-1, bind_of_error (failIf_of ho)⟩
  · refine Or.inl ⟨_, bind_of_ok (failIf_of_not ho), ?_⟩
    intro l hl
    rcases List.mem_append.mp hl with hl | hl
    · exact hw.2 l hl
    · rw [List.mem_singleton.mp hl]
      exact hin.inside

theorem leads_vfsSymlink {target path : Text} (hpath : StartsInside cwd R path) :
    Leads (Confining R) (TouchedInside R) (vfsSymlink outcome cwd target path) := by
  intro w hw
  rcases vfsSymlink_run hpath hw with
    ⟨w', h, ht⟩ | ⟨e, h⟩
  · rw [h]
    exact ht
  · rw [h]
    exact hw.2

theorem leads_vfsUnlink {path : Text} (hpath : StartsInside cwd R path) :
    Leads (Confining R) (Confining R) (vfsUnlink outcome cwd path) := by
  refine leads_resolve hpath (fun w r hw hr => ?_) (fun _ h => h)
  show Confining R (left ((failIf (r.node = none ∨ r.node = some .dir ∨
    w.tree.node r.dir ≠ some .dir ∨ r.leaf = []) (-1) >>= fun _ => _) w))
  by_cases hc : r.node = none ∨ r.node = some .dir ∨ w.tree.node r.dir ≠ some .dir ∨ r.leaf = []
  · rw [bind_of_error (failIf_of hc)]
    exact hw
  · rw [bind_of_ok (failIf_of_not hc)]
    push Not at hc
    have hnode := hr.node_eq hc.2.2.1
    refine leads_change (P := fun w' => w' = w) hr.inside ?_ ?_ ?_ w rfl
    · rintro w' rfl
      exact hw.2
    · rintro w' rfl
      exact hw
    · rintro w' rfl ht
      refine ⟨hw.1.setNode (Or.inl ?_) (fun t h0 => by cases h0), ht⟩
      rw [hnode]
      exact hc.2.1

/-- Opening keeps the root confining and gives a handle at or below it. -/
theorem leads_vfsOpen {α : Type} {Q : World → Prop} {path : Text} {f : Handle → Prog World α}
    (hpath : StartsInside cwd R path) (hf : ∀ h : Handle, R <+: h.loc → Leads (Confining R) Q (f h))
    (hQ : ∀ w, Confining R w → Q w) :
    Leads (Confining R) Q (vfsOpen outcome cwd path >>= f) := by
  unfold vfsOpen
  rw [bind_assoc]
  refine leads_resolve hpath (fun w r hw hr => ?_) hQ
  cases hn : r.node with
  | none =>
      simp only [bind_assoc]
      by_cases hleaf : r.leaf = []
      · rw [bind_of_error (failIf_of hleaf)]
        exact hQ w hw
      · rw [bind_of_ok (failIf_of_not hleaf)]
        exact hf _ hr.inside w hw
  | some n =>
      cases n with
      | dir => exact hQ w hw
      | symlink s => exact hf _ hr.inside w hw
      | device => exact hf _ hr.inside w hw
      | reg d =>
          simp only [bind_assoc]
          have hnode := hr.node_of_some hn
          have htrunc : Leads (fun w' => w' = w) (Confining R)
              (ignore (change outcome r.loc (some (.reg [])))) := by
            refine leads_ignore (leads_change hr.inside ?_ ?_ ?_)
            · rintro w' rfl
              exact hw.2
            · rintro w' rfl
              exact hw
            · rintro w' rfl ht
              refine ⟨hw.1.setNode (Or.inl ?_) (fun t h0 => by cases h0), ht⟩
              rw [hnode]
              simp
          have hw' := htrunc w rfl
          cases hrun : ignore (change outcome r.loc (some (.reg []))) w with
          | ok u w' =>
              rw [bind_of_ok hrun]
              rw [hrun] at hw'
              exact hf _ hr.inside w' hw'
          | error e w' =>
              rw [bind_of_error hrun]
              rw [hrun] at hw'
              exact hQ w' hw'

theorem leads_vfsClose {h : Handle} {data : List UInt8} (hin : R <+: h.loc) :
    Leads (Confining R) (Confining R) (vfsClose outcome h data) := by
  intro w hw
  -- every change replaces an object that is not a directory by one that is not a link
  have hchange : ∀ n : Node, (∀ target, n ≠ .symlink target) → w.tree.node h.loc ≠ some .dir →
      Confining R (left (change outcome h.loc (some n) w)) := by
    intro n hn hd
    refine leads_change (P := fun w' => w' = w) hin ?_ ?_ ?_ w rfl
    · rintro w' rfl
      exact hw.2
    · rintro w' rfl
      exact hw
    · rintro w' rfl ht
      exact ⟨hw.1.setNode (Or.inl hd) (fun t h0 => absurd (Option.some.inj h0) (hn t)), ht⟩
  unfold vfsClose
  rw [bind_of_ok (get_run w)]
  split
  · by_cases hc : w.tree.node h.dir ≠ some .dir ∨ w.tree.node h.loc ≠ none
    · rw [bind_of_error (failIf_of hc)]
      exact hw
    · rw [bind_of_ok (failIf_of_not hc)]
      push Not at hc
      exact hchange _ (by simp) (by rw [hc.2]; simp)
  · split
    · exact hw
    · cases hn : w.tree.node h.loc with
      | none => exact hw
      | some n =>
          cases n with
          | dir => exact hw
          | symlink s => exact hw
          | reg d => exact hchange _ (by simp) (by rw [hn]; simp)
          | device => exact hchange _ (by simp) (by rw [hn]; simp)

theorem leads_vfsChmod {path : Text} (hpath : StartsInside cwd R path) :
    Leads (Confining R) (Confining R) (vfsChmod outcome cwd path) := by
  refine leads_resolve hpath (fun w r hw hr => ?_) (fun _ h => h)
  cases hn : r.node with
  | none => exact hw
  | some n =>
      have hnode := hr.node_of_some hn
      refine leads_change (P := fun w' => w' = w) hr.inside ?_ ?_ ?_ w rfl
      · rintro w' rfl
        exact hw.2
      · rintro w' rfl
        exact hw
      · rintro w' rfl ht
        refine ⟨hw.1.setNode ?_ (fun t h0 => by rw [hnode]), ht⟩
        rw [hnode]
        by_cases hd : n = .dir
        · exact Or.inr (by rw [hd])
        · exact Or.inl (fun h0 => hd (Option.some.inj h0))

end Calls

/-! ## Destinations -/

/-- The root text names the location `R`, without `..` and short enough for the buffer of
the installer. -/
structure RootNames (cwd root : Text) (R : Loc) : Prop where
  cwd_short : cwd.length < 256
  nonempty : root ≠ []
  short : root.length < 512
  fits : vfsNormalizePath cwd root ≠ []
  names : segments (vfsNormalizePath cwd root) = R
  plain : ∀ s ∈ segments root, s ≠ dotdot

section Destinations

variable {cwd root : Text} {R : Loc}

theorem segments_normalize {path : Text} (h : vfsNormalizePath cwd path ≠ []) :
    segments (vfsNormalizePath cwd path) = walk [] (segments (combinedPath cwd path)) := by
  rw [normalize_eq_render h, segments_render]
  intro s hs
  exact (walk_plain (segments_isName _) (by simp) s hs).1

/-- Below the root, a path without `..` adds its components to those of the root. -/
theorem RootNames.startsInside (h : RootNames cwd root R) (hR : Names R) {rel : Text}
    (hlen : rel.length < 512) (hrel : ∀ s ∈ segments rel, s ≠ dotdot ∧ s.length ≤ 255) :
    StartsInside cwd R (root ++ slash :: rel) := by
  intro hne
  have hcomb := @combinedPath_join _ _ rel h.cwd_short h.nonempty (by
    have := h.short
    unfold cfgPathMax
    omega)
  have hseg : segments (vfsNormalizePath cwd (root ++ slash :: rel))
      = R ++ walk [] (segments rel) := by
    have hno : climbsFrom ([] : List Text).length (segments rel) = false :=
      climbsFrom_names (fun s hs => (hrel s hs).1) 0
    have hbase := walk_append_base R [] hno
    rw [List.append_nil] at hbase
    rw [segments_normalize hne, hcomb, segments_append _ _ Vfs.isSep_slash, walk_append,
      ← segments_normalize h.fits, h.names, hbase]
  rw [hseg]
  refine ⟨hR.append (fun s hs => ?_), ⟨_, rfl⟩⟩
  refine ⟨walk_plain (segments_isName rel) (by simp) s hs, ?_⟩
  rcases mem_walk hs with hs | hs
  · cases hs
  · exact (hrel s hs).2

theorem RootNames.startsInside_root (h : RootNames cwd root R) (hR : Names R) :
    StartsInside cwd R root := by
  intro _
  rw [h.names]
  exact ⟨hR, List.prefix_rfl⟩

/-- A prefix of the root text leads to the root. -/
theorem RootNames.leadsTo (h : RootNames cwd root R) {a b : Text} (hroot : root = a ++ slash :: b)
    (ha : a ≠ []) : LeadsTo cwd R a := by
  intro hne
  have hcomb : combinedPath cwd root = combinedPath cwd a ++ slash :: b := by
    rw [hroot]
    refine combinedPath_join h.cwd_short ha ?_
    have := h.short
    rw [hroot, List.length_append, List.length_cons] at this
    unfold cfgPathMax
    omega
  have hno : climbsFrom ([] : List Text).length (segments b) = false := by
    refine climbsFrom_names (fun s hs => h.plain s ?_) 0
    rw [hroot, segments_append _ _ Vfs.isSep_slash]
    exact List.mem_append_right _ hs
  have hbase := walk_append_base (walk [] (segments (combinedPath cwd a))) [] hno
  rw [List.append_nil] at hbase
  rw [← h.names, segments_normalize h.fits, segments_normalize hne, hcomb,
    segments_append _ _ Vfs.isSep_slash, walk_append, hbase]
  exact ⟨_, rfl⟩

/-- The prefixes that `mkparents` makes lie on the way to the root, are the root, or lie
below it. -/
theorem mem_parents_join {rel p : Text} (hp : p ∈ parents (root ++ slash :: rel)) :
    (∃ b, root = p ++ slash :: b ∧ p ≠ []) ∨ p = root ∨
      ∃ a b, rel = a ++ slash :: b ∧ p = root ++ slash :: a := by
  unfold parents at hp
  obtain ⟨i, hi, rfl⟩ := List.mem_map.mp hp
  simp only [List.mem_filter, List.mem_range, decide_eq_true_eq] at hi
  obtain ⟨hlt, hpos, hget⟩ := hi
  rcases Nat.lt_trichotomy i root.length with h | h | h
  · refine Or.inl ⟨root.drop (i + 1), ?_, ?_⟩
    · rw [List.take_append_of_le_length (by omega)]
      rw [List.getElem?_append_left h] at hget
      have hc : root[i] = slash := by
        rw [List.getElem?_eq_getElem h] at hget
        exact Option.some.inj hget
      rw [← hc, List.getElem_cons_drop, List.take_append_drop]
    · intro h0
      have := congrArg List.length h0
      rw [List.length_take, List.length_nil] at this
      omega
  · refine Or.inr (Or.inl ?_)
    rw [h, List.take_left]
  · refine Or.inr (Or.inr ⟨rel.take (i - root.length - 1), rel.drop (i - root.length), ?_, ?_⟩)
    · rw [List.getElem?_append_right (by omega)] at hget
      obtain ⟨k, hk⟩ : ∃ k, i - root.length = k + 1 := ⟨i - root.length - 1, by omega⟩
      rw [hk, List.getElem?_cons_succ] at hget
      have hkl : k < rel.length := by
        by_contra hge
        rw [List.getElem?_eq_none (by omega)] at hget
        cases hget
      have hc : rel[k] = slash := by
        rw [List.getElem?_eq_getElem hkl] at hget
        exact Option.some.inj hget
      rw [hk, Nat.add_sub_cancel, ← hc, List.getElem_cons_drop, List.take_append_drop]
    · rw [List.take_append, List.take_of_length_le (by omega)]
      obtain ⟨k, hk⟩ : ∃ k, i - root.length = k + 1 := ⟨i - root.length - 1, by omega⟩
      rw [hk, Nat.add_sub_cancel]
      rfl

end Destinations

/-! ## Members -/

theorem clean_clean (p : Text) : clean (clean p) = clean p := by
  fun_induction clean p with
  | case1 a b t h ih => exact ih
  | case2 a b t h =>
      rw [clean, if_neg h]
  | case3 t h =>
      cases t with
      | nil => rfl
      | cons a t =>
          cases t with
          | nil => rfl
          | cons b t => exact absurd rfl (h a b t)

theorem clean_suffix (p : Text) : clean p <:+ p := by
  fun_induction clean p with
  | case1 a b t h ih => exact ih.trans ⟨[a, b], rfl⟩
  | case2 => exact List.suffix_rfl
  | case3 => exact List.suffix_rfl

theorem mem_segments_clean {p s : Text} (h : s ∈ segments (clean p)) : s ∈ segments p := by
  fun_induction clean p with
  | case1 a b t hab ih =>
      have hcons : a :: b :: t = [dot] ++ slash :: t := by
        rw [hab.1, hab.2]
        rfl
      rw [hcons, segments_append _ _ Vfs.isSep_slash]
      exact List.mem_append_right _ (ih h)
  | case2 => exact h
  | case3 => exact h

theorem Member.length_path (m : Member) : m.path.length ≤ 256 := by
  have h₁ := m.pre_le
  have h₂ := m.name_le
  unfold Member.path
  split
  · omega
  · rw [List.length_append, List.length_cons]
    omega

theorem Member.length_segment (m : Member) {s : Text} (h : s ∈ segments m.path) :
    s.length ≤ 255 := by
  have h₁ := m.pre_le
  have h₂ := m.name_le
  unfold Member.path at h
  split at h
  · have := length_of_mem_segments h
    omega
  · rw [segments_append _ _ Vfs.isSep_slash] at h
    rcases List.mem_append.mp h with h | h
    · have := length_of_mem_segments h
      omega
    · have := length_of_mem_segments h
      omega

section Install

variable {outcome : Tree → Loc → Outcome} {cwd : Text} {db : Database} {package root : Text}
  {R : Loc}

theorem leads_mkparents (h : RootNames cwd root R) (hR : Names R) {rel : Text}
    (hlen : rel.length < 512) (hrel : ∀ s ∈ segments rel, s ≠ dotdot ∧ s.length ≤ 255) :
    Leads (Confining R) (Confining R) (mkparents outcome cwd (root ++ slash :: rel)) := by
  refine leads_bind (leads_failIf _ _) (fun _ => ?_) (fun _ h => h)
  refine leads_forEach (fun p hp => leads_mkdirOrStat ?_)
  rcases mem_parents_join hp with ⟨b, hroot, hne⟩ | rfl | ⟨a, b, hab, rfl⟩
  · exact Or.inr (h.leadsTo hroot hne)
  · exact Or.inl (h.startsInside_root hR)
  · refine Or.inl (h.startsInside hR ?_ (fun s hs => hrel s ?_))
    · rw [hab, List.length_append] at hlen
      omega
    · rw [hab, segments_append _ _ Vfs.isSep_slash]
      exact List.mem_append_left _ hs

theorem leads_dashBootstrapShHandoff {rel dst target : Text} (hdst : StartsInside cwd R dst) :
    Leads (Confining R) (TouchedInside R)
      (dashBootstrapShHandoff outcome cwd db package rel dst target) := by
  unfold dashBootstrapShHandoff
  split
  · exact (leads_pure _).weaken (fun _ h => h.2)
  · intro w hw
    -- what is read from the tree only decides whether the old link is retired
    have hrest : Leads (Confining R) (TouchedInside R) (do
        failIf (vfsReadlink cwd w.tree dst = none ∧ vfsStat cwd w.tree dst = some .dir) 1
        failIf (db.diverted w.tree = true ∨ db.claimed w.tree = true) 1
        vfsUnlink outcome cwd dst
        vfsSymlink outcome cwd target dst
        pure (1 : Int)) := by
      refine leads_bind (leads_failIf _ _) (fun _ => ?_) (fun _ h => h.2)
      refine leads_bind (leads_failIf _ _) (fun _ => ?_) (fun _ h => h.2)
      refine leads_bind (leads_vfsUnlink hdst) (fun _ => ?_) (fun _ h => h.2)
      intro w' hw'
      have hlink := @leads_vfsSymlink outcome _ _ target _ hdst w' hw'
      cases hrun : vfsSymlink outcome cwd target dst w' with
      | ok u w'' =>
          rw [hrun] at hlink
          rw [bind_of_ok hrun]
          exact hlink
      | error e w'' =>
          rw [hrun] at hlink
          rw [bind_of_error hrun]
          exact hlink
    show TouchedInside R (left ((if vfsReadlink cwd w.tree dst = some target then pure 1
      else if vfsStat cwd w.tree dst = none ∧ vfsReadlink cwd w.tree dst = none then pure 0
      else _ : Prog World Int) w))
    split
    · exact hw.2
    · split
      · exact hw.2
      · exact hrest w hw

/-- A link that could not be made leaves the root confining, so the handoff may retire what
stands in its place. -/
theorem leads_installLink {rel dst target : Text} (hdst : StartsInside cwd R dst) :
    Leads (Confining R) (TouchedInside R)
      (installLink outcome cwd db package rel dst target) := by
  intro w hw
  unfold installLink orRun
  rcases @vfsSymlink_run outcome _ _ target _ hdst _ hw with
    ⟨w', h, ht⟩ | ⟨e, h⟩
  · simp only [h]
    exact ht
  · simp only [h]
    show TouchedInside R (left ((if vfsReadlink cwd w.tree dst = some target then pure ()
      else _ : Prog World Unit) w))
    split
    · exact hw.2
    · have hand := @leads_dashBootstrapShHandoff outcome _ db
        package _ rel _ target hdst w hw
      cases hrun : dashBootstrapShHandoff outcome cwd db package rel dst target w with
      | ok a w' =>
          rw [hrun] at hand
          rw [bind_of_ok hrun]
          exact leads_failIf (P := TouchedInside R) (a = 0) 1 w' hand
      | error e w' =>
          rw [hrun] at hand
          rw [bind_of_error hrun]
          exact hand

/-- One member touches nothing outside a root that contains its links. -/
theorem leads_installCb (h : RootNames cwd root R) {m : Member} (hb : backslash ∉ m.path) :
    Leads (Confining R) (TouchedInside R) (installCb outcome cwd db package root m) := by
  intro w hw
  have hR := hw.1.names
  unfold installCb
  simp only []
  split
  · exact hw.2
  by_cases hsafe : safePath (clean m.path) = false
  · rw [bind_of_error (failIf_of hsafe)]
    exact hw.2
  rw [bind_of_ok (failIf_of_not hsafe)]
  have hlen : (clean m.path).length < 512 := by
    have h₁ := (clean_suffix m.path).length_le
    have h₂ := m.length_path
    omega
  -- the destination fits in its buffer, so it is the root, a slash and the member's path
  have hdst : installDst root (clean m.path) = root ++ slash :: clean m.path := by
    unfold installDst
    refine List.take_of_length_le ?_
    have := h.short
    rw [List.length_append, List.length_cons]
    omega
  have hrel : ∀ s ∈ segments (clean m.path), s ≠ dotdot ∧ s.length ≤ 255 := by
    intro s hs
    have hb' : backslash ∉ clean (clean m.path) := by
      rw [clean_clean]
      exact fun hmem => hb ((clean_suffix m.path).subset hmem)
    refine ⟨segments_of_safePath hb' (by simpa using hsafe) s ?_, ?_⟩
    · rw [clean_clean]
      exact hs
    · exact m.length_segment (mem_segments_clean hs)
  have hstart := h.startsInside hR hlen hrel
  have hmk := @leads_mkparents outcome _ _ _ h hR _ hlen hrel
  rw [hdst]
  cases m.kind with
  | dir =>
      refine (leads_bind hmk (fun _ => ?_) (fun _ h => h.2)) w hw
      exact (leads_mkdirOrStat (Or.inl hstart)).weaken (fun _ h => h.2)
  | symlink target =>
      refine leads_bind (leads_failIf _ _) (fun _ => ?_) (fun _ h => h.2) w hw
      refine leads_bind hmk (fun _ => ?_) (fun _ h => h.2)
      exact leads_installLink hstart
  | file data seekable complete =>
      refine leads_bind hmk (fun _ => ?_) (fun _ h => h.2) w hw
      refine leads_bind (leads_failIf _ _) (fun _ => ?_) (fun _ h => h.2)
      refine leads_vfsOpen hstart (fun hd hin => ?_) (fun _ h => h.2)
      refine leads_bind (leads_ignore (leads_vfsClose hin)) (fun _ => ?_) (fun _ h => h.2)
      refine leads_bind (leads_failIf _ _) (fun _ => ?_) (fun _ h => h.2)
      exact (leads_ignore (leads_vfsChmod hstart)).weaken (fun _ h => h.2)
  | other => exact hw.2

/-! ## Runs -/

/-- The root contains its links before every member that the walk comes to. -/
def ContainedRun (outcome : Tree → Loc → Outcome) (cwd : Text) (db : Database)
    (package root : Text) (R : Loc) : List Member → World → Prop
  | [], _ => True
  | m :: ms, w => Contained w.tree R ∧ ∀ w', installCb outcome cwd db package root m w = .ok () w' →
      ContainedRun outcome cwd db package root R ms w'

/-- Unpacking touches nothing outside the root while the root contains its links. -/
theorem unpack_confined (h : RootNames cwd root R) (ms : List Member)
    (hb : ∀ m ∈ ms, backslash ∉ m.path) (w : World)
    (hrun : ContainedRun outcome cwd db package root R ms w) (hw : TouchedInside R w) :
    TouchedInside R (left (unpack outcome cwd db package root ms w)) := by
  induction ms generalizing w with
  | nil => exact hw
  | cons m ms ih =>
      obtain ⟨hcont, hnext⟩ := hrun
      have hm := @leads_installCb outcome _ db package _ _ h m
        (hb m (List.mem_cons_self ..)) w ⟨hcont, hw⟩
      show TouchedInside R (left ((installCb outcome cwd db package root m >>= fun _ =>
        unpack outcome cwd db package root ms) w))
      cases hcb : installCb outcome cwd db package root m w with
      | ok u w' =>
          rw [hcb] at hm
          rw [bind_of_ok hcb]
          exact ih (fun m' hm' => hb m' (List.mem_cons_of_mem _ hm')) w' (hnext w' hcb) hm
      | error e w' =>
          rw [hcb] at hm
          rw [bind_of_error hcb]
          exact hm

end Install

/-- A mount at `/` with the directories `/r` and `/e` and the file `/e/p`. -/
def smallTree : Tree := ⟨[[]], fun l =>
  if l = [] ∨ l = [[114]] ∨ l = [[101]] then some .dir
  else if l = [[101], [112]] then some (.reg [7])
  else none⟩

def noDatabase : Database := ⟨fun _ => false, fun _ => false⟩

theorem smallTree_contained : Contained smallTree [[114]] where
  names := by
    intro s hs
    rw [List.mem_singleton.mp hs]
    refine ⟨⟨⟨by decide, forall_mem_of_all (by decide)⟩, by decide⟩, by decide⟩
  real := by
    intro P hP
    refine Or.inr ?_
    rcases List.prefix_cons_iff.mp hP with rfl | ⟨t, rfl, ht⟩
    · rfl
    · rw [List.prefix_nil.mp ht]
      rfl
  links := by
    intro loc target _ h
    simp only [smallTree] at h
    split at h
    · cases h
    · split at h
      · cases h
      · cases h

theorem smallRoot_names : RootNames [slash] [slash, 114] [[114]] where
  cwd_short := by decide
  nonempty := by decide
  short := by decide
  fits := by decide
  names := by decide
  plain := by decide

/-- The link `x` to `y`, below the root. -/
def insideLink : Member := ⟨[], [120], by simp, by simp, .symlink [121]⟩

/-- The link `x` to `/`. -/
def absoluteLink : Member := ⟨[], [120], by simp, by simp, .symlink [slash]⟩

/-- The file `x/e/p`. -/
def behindLink : Member := ⟨[], [120, slash, 101, slash, 112], by simp, by simp, .file [1, 2] true true⟩

/-- The file `x`. -/
def throughLink : Member := ⟨[], [120], by simp, by simp, .file [1, 2] true true⟩

/-- A file that is written through a link to a name in the same directory. -/
theorem unpack_confined_small :
    TouchedInside [[114]] (left (unpack (fun _ _ => .done) [slash] noDatabase [] [slash, 114]
      [insideLink, throughLink] ⟨smallTree, []⟩)) := by
  refine unpack_confined smallRoot_names _ (by decide) _ ⟨smallTree_contained, ?_⟩ (by simp [TouchedInside])
  intro w' hw'
  have hlink : installCb (fun _ _ => .done) [slash] noDatabase [] [slash, 114] insideLink
      ⟨smallTree, []⟩ = .ok () ⟨setNode smallTree [[114], [120]] (some (.symlink [121])),
        [[[114], [120]]]⟩ := rfl
  rw [hlink] at hw'
  cases hw'
  refine ⟨⟨smallTree_contained.names, ?_, ?_⟩, fun _ _ => trivial⟩
  · intro P hP
    rcases List.prefix_cons_iff.mp hP with rfl | ⟨t, rfl, ht⟩
    · exact Or.inr rfl
    · rw [List.prefix_nil.mp ht]
      exact Or.inr rfl
  · intro loc target hloc h
    simp only [setNode] at h
    split at h
    · rename_i hl
      cases h
      rw [hl]
      decide
    · exact smallTree_contained.links loc target hloc h

/-- A link to `/` and a file below it: the file `/e/p` outside the root is overwritten. -/
theorem absolute_link_escapes :
    ¬ ∀ (outcome : Tree → Loc → Outcome) (cwd : Text) (db : Database) (package root : Text)
        (R : Loc) (ms : List Member) (w : World), RootNames cwd root R → Contained w.tree R →
        TouchedInside R w → (∀ m ∈ ms, backslash ∉ m.path ∧ safePath (clean m.path) = true) →
        TouchedInside R (left (unpack outcome cwd db package root ms w)) := by
  intro hall
  have h := hall (fun _ _ => .done) [slash] noDatabase [] [slash, 114] [[114]]
    [absoluteLink, behindLink] ⟨smallTree, []⟩ smallRoot_names smallTree_contained
    (by simp [TouchedInside]) (by decide)
  have htouched : [[101], [112]] ∈ (left (unpack (fun _ _ => .done) [slash] noDatabase []
      [slash, 114] [absoluteLink, behindLink] ⟨smallTree, []⟩)).touched := by decide +kernel
  exact absurd (h _ htouched) (by decide)

end Guppy.Pkg
