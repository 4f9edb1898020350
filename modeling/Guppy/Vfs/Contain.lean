import Guppy.Vfs.Resolve

set_option autoImplicit false

/-! # Roots that paths cannot leave

A location `R` *contains* its links when every symbolic link at or below it, expanded in
its own directory, stays at or below it (`Contained`). Below such a root the resolver never
leaves: each link it follows is replaced by a path below the root, and the components that
are left are names (`resolve_inside`). The directories on the way to the root resolve to
themselves (`resolve_ancestor`).
-/

namespace Guppy.Vfs

/-- Names as they occur in a directory. -/
def Names (cs : List Text) : Prop := ∀ s ∈ cs, Plain s ∧ s.length ≤ 255

theorem Names.append {a b : List Text} (ha : Names a) (hb : Names b) : Names (a ++ b) := by
  intro s hs
  rcases List.mem_append.mp hs with hs | hs
  · exact ha s hs
  · exact hb s hs

theorem Names.of_append_left {a b : List Text} (h : Names (a ++ b)) : Names a :=
  fun s hs => h s (List.mem_append_left _ hs)

theorem Names.isName {a : List Text} (h : Names a) : ∀ s ∈ a, IsName s := fun s hs => (h s hs).1.1

theorem Names.walk_eq {a : List Text} (h : Names a) (st : List Text) : walk st a = st ++ a :=
  walk_names (fun s hs => (h s hs).1.2) st

/-- The tree has real directories on the way to `R`, wherever a mount serves it, and every
link at or below `R` points, when it is expanded in its own directory, at or below `R`. -/
structure Contained (t : Tree) (R : Loc) : Prop where
  names : Names R
  real : ∀ P, P <+: R → findMountFor t P = none ∨ t.node P = some .dir
  links : ∀ loc target, R <+: loc → t.node loc = some (.symlink target) →
    R <+: walk (linkBase loc.dropLast target) (segments target)

/-! ## Mounts -/

theorem findMountFor_prefix {t : Tree} {path mp : Loc} (h : findMountFor t path = some mp) :
    mp ∈ t.mounts ∧ mp <+: path := by
  have hfold : ∀ (l : List Loc) (best : Option Loc),
      (∀ b ∈ best, b ∈ t.mounts ∧ b <+: path) → (∀ m ∈ l, m ∈ t.mounts) →
      ∀ b ∈ l.foldl (betterMount path) best, b ∈ t.mounts ∧ b <+: path := by
    intro l
    induction l with
    | nil =>
        intro best hbest _
        exact hbest
    | cons m l ih =>
        intro best hbest hl
        refine ih _ ?_ (fun x hx => hl x (List.mem_cons_of_mem _ hx))
        intro b hb
        unfold betterMount at hb
        split at hb
        · rename_i hm
          cases hb
          exact ⟨hl m (List.mem_cons_self ..), hm.1⟩
        · exact hbest b hb
  exact hfold t.mounts none (by simp) (fun _ h => h) mp h

theorem betterMount_ne_none {path mp : Loc} {best : Option Loc} (h : best ≠ none ∨ mp <+: path) :
    betterMount path best mp ≠ none := by
  unfold betterMount
  cases best with
  | none =>
      have hp := h.resolve_left (fun h0 => h0 rfl)
      simp [hp]
  | some b =>
      split
      · simp
      · simp

/-- Below a mount point some mount is found. -/
theorem findMountFor_ne_none {t : Tree} {path mp : Loc} (hmem : mp ∈ t.mounts) (hp : mp <+: path) :
    findMountFor t path ≠ none := by
  have hfold : ∀ (l : List Loc) (best : Option Loc), (best ≠ none ∨ mp ∈ l) →
      l.foldl (betterMount path) best ≠ none := by
    intro l
    induction l with
    | nil =>
        intro best h
        exact h.resolve_right (by simp)
    | cons m l ih =>
        intro best h
        refine ih _ ?_
        rcases h with h | h
        · exact Or.inl (betterMount_ne_none (Or.inl h))
        · rcases List.mem_cons.mp h with rfl | h
          · exact Or.inl (betterMount_ne_none (Or.inr hp))
          · exact Or.inr h
  exact hfold t.mounts none (Or.inr hmem)

/-- A served directory on the way to the root. -/
theorem Contained.dir_of_mount {t : Tree} {R mp P : Loc} (h : Contained t R)
    (hmem : mp ∈ t.mounts) (hmp : mp <+: P) (hP : P <+: R) : t.node P = some .dir :=
  (h.real P hP).resolve_left (findMountFor_ne_none hmem hmp)

theorem readlink_some {n : Node} {target : Text} (h : readlink n = some target) :
    n = .symlink target ∧ target.length ≤ 60 := by
  cases n with
  | symlink s =>
      unfold readlink at h
      simp only [] at h
      split at h
      · cases h
        exact ⟨rfl, by assumption⟩
      · cases h
  | dir => cases h
  | reg d => cases h
  | device => cases h

/-! ## One path text -/

/-- What looking up the components of a path at or below `R` can give. -/
inductive Lands (t : Tree) (R : Loc) (current : Loc) : Walked → Prop
  | top {mp : Loc} (hin : R <+: mp) (hmem : mp ∈ t.mounts) :
      Lands t R current (.found mp [] (t.node mp))
  | found {dir : Loc} {leaf : Text} {node : Option Node} (hin : R <+: dir ++ [leaf])
      (hname : leaf ≠ []) (hnode : node = lookup t dir leaf) : Lands t R current (.found dir leaf node)
  | link {parent : Loc} {comp target : Text} {rest : List Text} (hin : R <+: parent)
      (hcur : current = parent ++ comp :: rest)
      (hlink : t.node (parent ++ [comp]) = some (.symlink target)) (hlen : target.length ≤ 60) :
      Lands t R current (.link parent target rest)
  | fail : Lands t R current .fail

theorem compNext_of_le {c : Text} (h : c.length ≤ 255) (rest : List Text) :
    compNext c rest = (c, rest) := if_pos h

theorem lookup_of_dir {t : Tree} {dir : Loc} (h : t.node dir = some .dir) (name : Text) :
    lookup t dir name = t.node (dir ++ [name]) := if_pos h

/-- Two locations on one path are comparable. -/
theorem prefix_or_strict {R cur cs : Loc} {c : Text} (hR : R <+: cur ++ c :: cs) :
    cur ++ [c] <+: R ∨ R <+: cur := by
  have h₁ : cur ++ [c] <+: cur ++ c :: cs := ⟨cs, by simp⟩
  rcases Nat.lt_or_ge cur.length R.length with hlt | hge
  · refine Or.inl (List.prefix_of_prefix_length_le h₁ hR ?_)
    rw [List.length_append, List.length_singleton]
    omega
  · exact Or.inr (List.prefix_of_prefix_length_le hR ⟨c :: cs, rfl⟩ hge)

theorem walkComps_lands {t : Tree} {R mp : Loc} (h : Contained t R) (hmem : mp ∈ t.mounts)
    (follow : Bool) :
    ∀ (fuel : Nat) (cur cs : Loc), mp <+: cur → Names (cur ++ cs) → R <+: cur ++ cs →
      Lands t R (cur ++ cs) (walkComps t follow fuel cur cs) := by
  intro fuel
  induction fuel with
  | zero =>
      intro cur cs _ _ _
      exact .fail
  | succ fuel ih =>
      intro cur cs hmp hnames hR
      cases cs with
      | nil => exact .fail
      | cons c cs =>
          have hc := hnames c (by simp)
          have hcne : c ≠ [] := hc.1.1.1
          have hnext : Names (cur ++ [c] ++ cs) := by
            rw [List.append_assoc]
            exact hnames
          have hcons : cur ++ c :: cs = cur ++ [c] ++ cs := by simp
          unfold walkComps
          rw [compNext_of_le hc.2]
          simp only []
          rcases prefix_or_strict hR with hon | hin
          · -- still on the way to the root: the next component is a real directory
            have hcur : cur <+: R := List.IsPrefix.trans ⟨[c], rfl⟩ hon
            have hdir := h.dir_of_mount hmem hmp hcur
            have hnode := h.dir_of_mount hmem (hmp.trans ⟨[c], rfl⟩) hon
            rw [lookup_of_dir hdir, hnode]
            simp only [Node.isLink, Bool.false_eq_true, false_and, if_false]
            by_cases hnil : cs = []
            · subst hnil
              rw [if_pos rfl]
              exact .found hR hcne (by rw [lookup_of_dir hdir, hnode])
            · rw [if_neg hnil, hcons]
              exact ih _ _ (hmp.trans ⟨[c], rfl⟩) hnext (by rw [← hcons]; exact hR)
          · have hinc : R <+: cur ++ [c] := hin.trans ⟨[c], rfl⟩
            cases hl : lookup t cur c with
            | none => exact .found hinc hcne hl.symm
            | some node =>
                simp only []
                by_cases hlk : node.isLink = true ∧ (cs ≠ [] ∨ follow = true)
                · rw [if_pos hlk]
                  cases hr : readlink node with
                  | none => exact .fail
                  | some target =>
                      obtain ⟨rfl, hlen⟩ := readlink_some hr
                      refine .link hin rfl ?_ hlen
                      unfold lookup at hl
                      split at hl
                      · exact hl
                      · cases hl
                · rw [if_neg hlk]
                  by_cases hnil : cs = []
                  · rw [if_pos hnil]
                    exact .found hinc hcne hl.symm
                  · rw [if_neg hnil, hcons]
                    exact ih _ _ (hmp.trans ⟨[c], rfl⟩) hnext (by rw [← hcons]; exact hR)

/-! ## Following links -/

/-- The path that replaces a link. -/
theorem segments_next {cwd : Text} {parent : Loc} {comp target : Text} {rest : List Text}
    (hcur : Names (parent ++ comp :: rest)) (hfit : (render (parent ++ comp :: rest)).length < vfsPathMax)
    (hlen : target.length ≤ 60) (hne : vfsNormalizePath cwd (expanded parent target rest) ≠ []) :
    segments (vfsNormalizePath cwd (expanded parent target rest))
      = walk (linkBase parent target) (segments target) ++ rest := by
  have hparent : Names parent := hcur.of_append_left
  have hrest : Names rest := fun s hs => hcur s (by simp [hs])
  have hbase : Names (linkBase parent target) := by
    unfold linkBase
    split
    · intro s hs
      cases hs
    · exact hparent
  -- the expanded text is absolute and the scan sees all of it
  have hlong : (expanded parent target rest).length ≤ vfsPathMax * 2 - 1 := by
    have hp : (render parent).length ≤ 1 + size parent := by
      by_cases hnil : parent = []
      · subst hnil
        decide
      · rw [length_render hnil]
        omega
    have hr : (restText rest).length ≤ size rest := by
      by_cases hnil : rest = []
      · subst hnil
        decide
      · rw [restText, List.length_drop, length_render hnil]
        omega
    have hsum : size parent + size rest < vfsPathMax := by
      rw [length_render (by simp), size_append] at hfit
      have : size (comp :: rest) = comp.length + 1 + size rest := by simp [size]
      omega
    unfold vfsPathMax at hsum ⊢
    unfold expanded
    simp only []
    have h₁ := length_vfsPathAppend (render parent) target
    split <;> split
    · omega
    · omega
    · rename_i habs hnil
      have h₂ := length_vfsPathAppend target (restText rest)
      omega
    · have h₂ := length_vfsPathAppend (vfsPathAppend (render parent) target) (restText rest)
      omega
  have habs : (expanded parent target rest).head? = some slash ∨
      (expanded parent target rest).head? = some backslash := by
    have happ : ∀ dst part : Text, (dst.head? = some slash ∨ dst.head? = some backslash) →
        (vfsPathAppend dst part).head? = some slash ∨
          (vfsPathAppend dst part).head? = some backslash := by
      intro dst part hd
      have hdne : dst ≠ [] := by
        rintro rfl
        simp at hd
      unfold vfsPathAppend
      simp only []
      split
      · exact hd
      · split
        · rw [List.head?_append_of_ne_nil _ hdne]
          exact hd
        · rw [List.head?_append_of_ne_nil _ hdne]
          exact hd
    have hrender : (render parent).head? = some slash := by
      cases parent with
      | nil => rfl
      | cons s st =>
          rw [render_of_ne (by simp)]
          simp
    unfold expanded
    simp only []
    split
    · split
      · assumption
      · exact happ _ _ (Or.inl hrender)
    · refine happ _ _ ?_
      split
      · assumption
      · exact happ _ _ (Or.inl hrender)
  have hcomb : combinedPath cwd (expanded parent target rest) = expanded parent target rest := by
    have hne' : expanded parent target rest ≠ [] := by
      intro h0
      rw [h0] at habs
      simp at habs
    unfold combinedPath
    rw [if_neg hne']
    simp only []
    rw [if_pos habs, List.take_of_length_le hlong]
  have hwalk : walk [] (segments (expanded parent target rest))
      = walk (linkBase parent target) (segments target) ++ rest := by
    rw [segments_expanded hparent.isName hrest.isName, walk_append, walk_append,
      hbase.walk_eq, List.nil_append, hrest.walk_eq]
  rw [normalize_eq_render hne, hcomb, hwalk, segments_render]
  intro s hs
  rcases List.mem_append.mp hs with hs | hs
  · exact (walk_plain (segments_isName target) (fun s hs => (hbase s hs).1) s hs).1
  · exact hrest.isName s hs

theorem length_of_mem_segments {t s : Text} (h : s ∈ segments t) : s.length ≤ t.length := by
  have hsize := size_segAux [] t
  have hmem : s.length + 1 ≤ size (segments t) :=
    List.single_le_sum (by simp) _ (List.mem_map.mpr ⟨s, h, rfl⟩)
  simp only [List.length_nil, Nat.zero_add] at hsize
  have : size (segments t) ≤ t.length + 1 := hsize
  omega

/-- A result at or below the root: the object there, if any, is the one in the tree. -/
structure Within (t : Tree) (R : Loc) (r : PathRes) : Prop where
  inside : R <+: r.loc
  node : r.leaf ≠ [] → r.node = lookup t r.dir r.leaf
  top : r.leaf = [] → r.node = t.node r.dir ∧ r.dir ∈ t.mounts

theorem Lands.within {t : Tree} {R current : Loc} {dir : Loc} {leaf : Text} {node : Option Node}
    (h : Lands t R current (.found dir leaf node)) : Within t R ⟨dir, leaf, node⟩ := by
  cases h with
  | top hin hmem => exact ⟨hin, fun h0 => absurd rfl h0, fun _ => ⟨rfl, hmem⟩⟩
  | found hin hname hnode =>
      refine ⟨?_, fun _ => hnode, fun h0 => absurd h0 hname⟩
      rw [PathRes.loc, if_neg hname]
      exact hin

theorem resolveOnce_lands {t : Tree} {R : Loc} (h : Contained t R) (follow : Bool) {cs : Loc}
    (hnames : Names cs) (hR : R <+: cs) : Lands t R cs (resolveOnce t follow cs) := by
  unfold resolveOnce
  cases hm : findMountFor t cs with
  | none => exact .fail
  | some mp =>
      obtain ⟨hmem, rel, rfl⟩ := findMountFor_prefix hm
      simp only [List.drop_left]
      by_cases hrel : rel = []
      · rw [if_pos hrel]
        rw [hrel, List.append_nil] at hR
        exact .top hR hmem
      · rw [if_neg hrel]
        exact walkComps_lands h hmem follow (size rel) mp rel List.prefix_rfl hnames hR

/-- The path that replaces a link at or below the root is below the root, and it is again a
path of names that fits. -/
theorem Contained.next {t : Tree} {R : Loc} (h : Contained t R) {cwd : Text} {parent : Loc}
    {comp target : Text} {rest : List Text} (hnames : Names (parent ++ comp :: rest))
    (hfit : (render (parent ++ comp :: rest)).length < vfsPathMax) (hin : R <+: parent)
    (hlink : t.node (parent ++ [comp]) = some (.symlink target)) (hlen : target.length ≤ 60)
    (hne : vfsNormalizePath cwd (expanded parent target rest) ≠ []) :
    Names (segments (vfsNormalizePath cwd (expanded parent target rest))) ∧
      R <+: segments (vfsNormalizePath cwd (expanded parent target rest)) := by
  have hseg := segments_next hnames hfit hlen hne
  have hT := h.links _ _ (hin.trans ⟨[comp], rfl⟩) hlink
  rw [List.dropLast_concat] at hT
  have hbase : Names (linkBase parent target) := by
    unfold linkBase
    split
    · intro s hs
      cases hs
    · exact hnames.of_append_left
  have hTn : Names (walk (linkBase parent target) (segments target)) := by
    intro s hs
    refine ⟨walk_plain (segments_isName target) (fun s hs => (hbase s hs).1) s hs, ?_⟩
    rcases mem_walk hs with hs | hs
    · exact (hbase s hs).2
    · have := length_of_mem_segments hs
      omega
  have hrest : Names rest := fun s hs => hnames s (by simp [hs])
  rw [hseg]
  exact ⟨hTn.append hrest, hT.trans ⟨rest, rfl⟩⟩

theorem resolveLoop_inside {t : Tree} {R : Loc} (h : Contained t R) (cwd : Text) (follow : Bool) :
    ∀ (left : Nat) (cs : Loc) (r : PathRes), Names cs → (render cs).length < vfsPathMax →
      R <+: cs → resolveLoop t cwd follow left cs = some r → Within t R r := by
  intro left
  induction left with
  | zero =>
      intro cs r hnames _ hR hres
      have hl := resolveOnce_lands h follow hnames hR
      unfold resolveLoop at hres
      cases hw : resolveOnce t follow cs with
      | fail =>
          rw [hw] at hres
          cases hres
      | link parent target rest =>
          rw [hw] at hres
          cases hres
      | found dir leaf node =>
          rw [hw] at hres hl
          cases hres
          exact hl.within
  | succ left ih =>
      intro cs r hnames hfit hR hres
      have hl := resolveOnce_lands h follow hnames hR
      unfold resolveLoop at hres
      cases hw : resolveOnce t follow cs with
      | fail =>
          rw [hw] at hres
          cases hres
      | found dir leaf node =>
          rw [hw] at hres hl
          cases hres
          exact hl.within
      | link parent target rest =>
          rw [hw] at hres hl
          simp only [] at hres
          by_cases hnil : vfsNormalizePath cwd (expanded parent target rest) = []
          · rw [if_pos hnil] at hres
            cases hres
          · rw [if_neg hnil] at hres
            cases hl with
            | link hin hcur hlink hlen =>
                rw [hcur] at hnames hfit
                obtain ⟨hn, hRn⟩ := h.next hnames hfit hin hlink hlen hnil
                refine ih _ r hn ?_ hRn hres
                rw [render_segments_normalize hnil]
                exact length_vfsNormalizePath _ _

/-- Below a root that contains its links no path leaves it. -/
theorem resolve_inside {t : Tree} {R : Loc} (h : Contained t R) {cwd path : Text} {follow : Bool}
    {r : PathRes} (hnames : Names (segments (vfsNormalizePath cwd path)))
    (hR : R <+: segments (vfsNormalizePath cwd path))
    (hres : vfsResolvePathEx t cwd path follow = some r) : Within t R r := by
  unfold vfsResolvePathEx at hres
  split at hres
  · cases hres
  · simp only [] at hres
    split at hres
    · cases hres
    · rename_i hne
      refine resolveLoop_inside h cwd follow _ _ r hnames ?_ hR hres
      rw [render_segments_normalize hne]
      exact length_vfsNormalizePath _ _

/-! ## Directories on the way to the root -/

theorem walkComps_ancestor {t : Tree} {R mp : Loc} (h : Contained t R) (hmem : mp ∈ t.mounts)
    (follow : Bool) :
    ∀ (fuel : Nat) (cur cs : Loc), mp <+: cur → cur ++ cs <+: R →
      walkComps t follow fuel cur cs = .fail ∨
        ∃ dir leaf, walkComps t follow fuel cur cs = .found dir leaf (some .dir) := by
  intro fuel
  induction fuel with
  | zero =>
      intro cur cs _ _
      exact Or.inl rfl
  | succ fuel ih =>
      intro cur cs hmp hR
      cases cs with
      | nil => exact Or.inl rfl
      | cons c cs =>
          have hcons : cur ++ c :: cs = cur ++ [c] ++ cs := by simp
          have hc := h.names c (hR.subset (by simp))
          have hon : cur ++ [c] <+: R := List.IsPrefix.trans ⟨cs, hcons.symm⟩ hR
          have hcur : cur <+: R := List.IsPrefix.trans ⟨[c], rfl⟩ hon
          have hnode := h.dir_of_mount hmem (hmp.trans ⟨[c], rfl⟩) hon
          unfold walkComps
          rw [compNext_of_le hc.2]
          simp only []
          rw [lookup_of_dir (h.dir_of_mount hmem hmp hcur), hnode]
          simp only [Node.isLink, Bool.false_eq_true, false_and, if_false]
          by_cases hnil : cs = []
          · rw [if_pos hnil]
            exact Or.inr ⟨_, _, rfl⟩
          · rw [if_neg hnil]
            exact ih _ _ (hmp.trans ⟨[c], rfl⟩) (by rw [← hcons]; exact hR)

/-- The path of a directory on the way to the root fails or names that directory. -/
theorem resolve_ancestor {t : Tree} {R : Loc} (h : Contained t R) {cwd path : Text} {follow : Bool}
    {r : PathRes} (hR : segments (vfsNormalizePath cwd path) <+: R)
    (hres : vfsResolvePathEx t cwd path follow = some r) : r.node = some .dir := by
  unfold vfsResolvePathEx at hres
  split at hres
  · cases hres
  · simp only [] at hres
    split at hres
    · cases hres
    · set cs := segments (vfsNormalizePath cwd path) with hcs
      unfold resolveLoop at hres
      have hone : resolveOnce t follow cs = .fail ∨
          ∃ dir leaf, resolveOnce t follow cs = .found dir leaf (some .dir) := by
        unfold resolveOnce
        cases hm : findMountFor t cs with
        | none => exact Or.inl rfl
        | some mp =>
            obtain ⟨hmem, rel, hrel⟩ := findMountFor_prefix hm
            rw [← hrel] at hR ⊢
            simp only [List.drop_left]
            by_cases hnil : rel = []
            · rw [if_pos hnil]
              rw [hnil, List.append_nil] at hR
              exact Or.inr ⟨_, _, by rw [h.dir_of_mount hmem List.prefix_rfl hR]⟩
            · rw [if_neg hnil]
              exact walkComps_ancestor h hmem follow _ _ _ List.prefix_rfl hR
      rcases hone with hone | ⟨dir, leaf, hone⟩
      · rw [hone] at hres
        cases hres
      · rw [hone] at hres
        cases hres
        rfl

/-! ## Changes to the tree -/

theorem Contained.setNode {t : Tree} {R loc : Loc} {node : Option Node} (h : Contained t R)
    (hdir : t.node loc ≠ some .dir ∨ node = some .dir)
    (hlink : ∀ target, node = some (.symlink target) → t.node loc = node) :
    Contained (setNode t loc node) R where
  names := h.names
  real := by
    intro P hP
    rcases h.real P hP with hm | hn
    · exact Or.inl hm
    · refine Or.inr ?_
      show (if P = loc then node else t.node P) = some .dir
      by_cases hloc : P = loc
      · rw [if_pos hloc]
        exact hdir.resolve_left (fun h0 => h0 (hloc ▸ hn))
      · rw [if_neg hloc]
        exact hn
  links := by
    intro l target hl hn
    have hn' : (if l = loc then node else t.node l) = some (.symlink target) := hn
    by_cases hloc : l = loc
    · rw [if_pos hloc] at hn'
      refine h.links l target hl ?_
      rw [hloc, hlink target hn', hn']
    · rw [if_neg hloc] at hn'
      exact h.links l target hl hn'

/-- The object of a result is the one in the tree. -/
theorem Within.node_eq {t : Tree} {R : Loc} {r : PathRes} (h : Within t R r)
    (hdir : t.node r.dir = some .dir) : t.node r.loc = r.node := by
  unfold PathRes.loc
  by_cases hleaf : r.leaf = []
  · rw [if_pos hleaf, (h.top hleaf).1]
  · rw [if_neg hleaf, h.node hleaf, lookup_of_dir hdir]

theorem Within.node_of_some {t : Tree} {R : Loc} {r : PathRes} {n : Node} (h : Within t R r)
    (hn : r.node = some n) : t.node r.loc = some n := by
  unfold PathRes.loc
  by_cases hleaf : r.leaf = []
  · rw [if_pos hleaf, ← (h.top hleaf).1, hn]
  · rw [if_neg hleaf]
    have hl := h.node hleaf
    rw [hn] at hl
    unfold lookup at hl
    split at hl
    · exact hl.symm
    · cases hl

end Guppy.Vfs
