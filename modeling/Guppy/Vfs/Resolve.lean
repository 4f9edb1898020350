import Guppy.Lib.Prog
import Guppy.Vfs.Path

set_option autoImplicit false

/-! # Resolving paths

The VFS of `src/vfs.c` over a set of mounted ext2 trees. An object has a *location*: the
components of its path from the VFS root, with every symbolic link on the way followed. The
tree is a map from locations to objects, and a mount point is a location.

`vfs_resolve_path_ex` normalizes the path text, picks the mount with the longest matching
mount point, and looks the components up one by one. At a symbolic link it builds a new path
text (the containing directory, the target, the rest) and starts again, at most 40 times.
-/

namespace Guppy.Vfs

/-- The components of a path without links. -/
abbrev Loc := List Text

/-- What the code distinguishes about an object. Its permissions and times play no role. -/
inductive Node
  | dir
  | reg (data : List UInt8)
  | symlink (target : Text)
  | device
  deriving DecidableEq

/-- The mounted trees. -/
structure Tree where
  mounts : List Loc
  node : Loc → Option Node

/-- The tree with another object, or none, at a location. -/
def setNode (t : Tree) (loc : Loc) (node : Option Node) : Tree :=
  { t with node := fun l => if l = loc then node else t.node l }

/-- One iteration of `vfs_find_mount_for`: a mount point that the path lies under and that
is longer than the best one so far. -/
def betterMount (path : Loc) (best : Option Loc) (mp : Loc) : Option Loc :=
  if mp <+: path ∧ (∀ b ∈ best, b.length < mp.length) then some mp else best

/-- `vfs_find_mount_for`: the longest mount point that the path lies under. -/
def findMountFor (t : Tree) (path : Loc) : Option Loc := t.mounts.foldl (betterMount path) none

/-- `i_lookup`: the object of that name in a directory. -/
def lookup (t : Tree) (dir : Loc) (name : Text) : Option Node :=
  if t.node dir = some .dir then t.node (dir ++ [name]) else none

/-- `VFS_S_ISLNK`. -/
def Node.isLink : Node → Bool
  | .symlink _ => true
  | _ => false

/-- `ext2_readlink_at` reads targets that are stored in the inode. -/
def readlink : Node → Option Text
  | .symlink target => if target.length ≤ 60 then some target else none
  | _ => none

/-- `comp_next`: a component is read in pieces of at most 255 bytes. -/
def compNext (c : Text) (rest : List Text) : Text × List Text :=
  if c.length ≤ 255 then (c, rest) else (c.take 255, c.drop 255 :: rest)

/-- `vfs_path_append`. -/
def vfsPathAppend (dst part : Text) : Text :=
  let part := part.dropWhile isSep
  if part = [] then dst
  else if dst.getLast? = some slash then dst ++ part
  else dst ++ slash :: part

/-- The text of the components that are left. -/
def restText (rest : List Text) : Text := (render rest).drop 1

/-- The path text that a link at a name in `parent` is replaced by. -/
def expanded (parent : Loc) (target : Text) (rest : List Text) : Text :=
  let base :=
    if target.head? = some slash ∨ target.head? = some backslash then target
    else vfsPathAppend (render parent) target
  if rest = [] then base else vfsPathAppend base (restText rest)

/-- How looking up the components of one path text ends: at a name in a directory, at a
link that is to be followed, or with an error. -/
inductive Walked
  | found (dir : Loc) (leaf : Text) (node : Option Node)
  | link (parent : Loc) (target : Text) (rest : List Text)
  | fail

/-- The inner loop of `vfs_resolve_path_ex`; `fuel` bounds the look-ups. -/
def walkComps (t : Tree) (followFinal : Bool) : Nat → Loc → List Text → Walked
  | 0, _, _ => .fail
  | _ + 1, _, [] => .fail
  | fuel + 1, cur, c :: cs =>
      let comp := (compNext c cs).1
      let rest := (compNext c cs).2
      match lookup t cur comp with
      | none => .found cur comp none
      | some node =>
          if node.isLink = true ∧ (rest ≠ [] ∨ followFinal = true) then
            match readlink node with
            | none => .fail
            | some target => .link cur target rest
          else if rest = [] then .found cur comp (some node)
          else walkComps t followFinal fuel (cur ++ [comp]) rest

/-- `path_res_t`: a directory, a name in it and the object there, if any. The root of a
mount is its own directory and has no name. -/
structure PathRes where
  dir : Loc
  leaf : Text
  node : Option Node

/-- The location that a result stands for. -/
def PathRes.loc (r : PathRes) : Loc := if r.leaf = [] then r.dir else r.dir ++ [r.leaf]

/-- One iteration of the outer loop, up to the point where it returns or restarts. -/
def resolveOnce (t : Tree) (followFinal : Bool) (current : Loc) : Walked :=
  match findMountFor t current with
  | none => .fail
  | some mp =>
      let rel := current.drop mp.length
      if rel = [] then .found mp [] (t.node mp) else walkComps t followFinal (size rel) mp rel

/-- The outer loop: `left` more links may be followed. -/
def resolveLoop (t : Tree) (cwd : Text) (followFinal : Bool) (left : Nat) (current : Loc) :
    Option PathRes :=
  match resolveOnce t followFinal current with
  | .fail => none
  | .found dir leaf node => some ⟨dir, leaf, node⟩
  | .link parent target rest =>
      match left with
      | 0 => none
      | left + 1 =>
          let next := vfsNormalizePath cwd (expanded parent target rest)
          if next = [] then none else resolveLoop t cwd followFinal left (segments next)

def vfsSymlinkMax : Nat := 40

/-- `vfs_resolve_path_ex`. -/
def vfsResolvePathEx (t : Tree) (cwd path : Text) (followFinal : Bool) : Option PathRes :=
  if path = [] then none
  else
    let current := vfsNormalizePath cwd path
    if current = [] then none
    else resolveLoop t cwd followFinal vfsSymlinkMax (segments current)

/-! ## The text of an expanded link -/

/-- A component of a normalized path. -/
def Plain (s : Text) : Prop := IsName s ∧ s ≠ [dot] ∧ s ≠ dotdot

theorem walk_plain {segs : List Text} (h : ∀ s ∈ segs, IsName s) :
    ∀ {st : List Text}, (∀ s ∈ st, Plain s) → ∀ s ∈ walk st segs, Plain s := by
  induction segs with
  | nil =>
      intro st hst
      exact hst
  | cons seg segs ih =>
      intro st hst
      refine @ih (fun s hs => h s (List.mem_cons_of_mem _ hs)) (stepStack st seg) ?_
      intro s hs
      unfold stepStack at hs
      split at hs
      · exact hst s hs
      · rename_i hdot
        split at hs
        · exact hst s (List.mem_of_mem_dropLast hs)
        · rename_i hdd
          rcases List.mem_append.mp hs with hs | hs
          · exact hst s hs
          · rw [List.mem_singleton.mp hs]
            exact ⟨h seg (List.mem_cons_self ..), hdot, hdd⟩

theorem segments_name {s : Text} (h : IsName s) : segments s = [s] := by
  have haux : ∀ (t cur : Text), (∀ c ∈ t, isSep c = false) → cur ++ t ≠ [] →
      segAux cur t = [cur ++ t] := by
    intro t
    induction t with
    | nil =>
        intro cur _ hne
        rw [List.append_nil] at hne ⊢
        rw [segAux.eq_1, if_neg hne]
    | cons c t ih =>
        intro cur ht hne
        have hc := ht c (List.mem_cons_self ..)
        rw [segAux.eq_2, if_neg (by rw [hc]; decide),
          ih _ (fun d hd => ht d (List.mem_cons_of_mem _ hd)) (by simp), List.append_assoc]
        rfl
  exact haux s [] h.2 h.1

theorem isSep_slash : isSep slash = true := by decide

theorem segments_flatMap {st : List Text} (h : ∀ s ∈ st, IsName s) :
    segments (st.flatMap (fun s => slash :: s)) = st := by
  induction st with
  | nil => rfl
  | cons s st ih =>
      have hs := segments_name (h s (List.mem_cons_self ..))
      have ih := ih (fun x hx => h x (List.mem_cons_of_mem _ hx))
      rw [List.flatMap_cons, List.cons_append, segments_sep_cons _ isSep_slash]
      cases st with
      | nil => rw [List.flatMap_nil, List.append_nil, hs]
      | cons s' st =>
          rw [List.flatMap_cons, List.cons_append, segments_sep_cons _ isSep_slash] at ih
          rw [List.flatMap_cons, List.cons_append, segments_append _ _ isSep_slash, hs, ih]
          rfl

theorem segments_render {st : List Text} (h : ∀ s ∈ st, IsName s) : segments (render st) = st := by
  by_cases hst : st = []
  · subst hst
    decide
  · rw [render_of_ne hst, segments_flatMap h]

/-- A normalized path is the text of its components. -/
theorem render_segments_normalize {cwd path : Text} (h : vfsNormalizePath cwd path ≠ []) :
    render (segments (vfsNormalizePath cwd path)) = vfsNormalizePath cwd path := by
  rw [normalize_eq_render h, segments_render]
  intro s hs
  exact (walk_plain (segments_isName _) (by simp) s hs).1

theorem segments_restText {rest : List Text} (h : ∀ s ∈ rest, IsName s) :
    segments (restText rest) = rest := by
  cases rest with
  | nil => decide
  | cons s st =>
      have hr := segments_render h
      rw [render_of_ne (by simp), List.flatMap_cons, List.cons_append,
        segments_sep_cons _ isSep_slash] at hr
      rw [restText, render_of_ne (by simp), List.flatMap_cons, List.cons_append]
      exact hr

theorem segments_dropWhile (t : Text) : segments (t.dropWhile isSep) = segments t := by
  induction t with
  | nil => rfl
  | cons c t ih =>
      by_cases hc : isSep c = true
      · rw [List.dropWhile_cons_of_pos hc, ih, segments_sep_cons t hc]
      · rw [List.dropWhile_cons_of_neg hc]

/-- Appending a path text appends its components. -/
theorem segments_vfsPathAppend (dst part : Text) :
    segments (vfsPathAppend dst part) = segments dst ++ segments part := by
  unfold vfsPathAppend
  simp only []
  rw [← segments_dropWhile part]
  by_cases hnil : part.dropWhile isSep = []
  · rw [if_pos hnil, hnil]
    exact (List.append_nil _).symm
  · rw [if_neg hnil]
    split
    · rename_i hlast
      obtain ⟨d, hd⟩ : ∃ d, dst = d ++ [slash] := by
        rcases List.eq_nil_or_concat dst with rfl | ⟨d, c, rfl⟩
        · simp at hlast
        · rw [List.concat_eq_append] at hlast ⊢
          refine ⟨d, ?_⟩
          simp at hlast
          rw [hlast]
      rw [hd, List.append_assoc, List.singleton_append, segments_append _ _ isSep_slash,
        segments_append _ _ isSep_slash]
      simp [show segments [] = [] from rfl]
    · exact segments_append _ _ isSep_slash

/-- Where a link is expanded from: its directory, or the top for an absolute target. -/
def linkBase (parent : Loc) (target : Text) : Loc :=
  if target.head? = some slash ∨ target.head? = some backslash then [] else parent

theorem segments_expanded {parent : Loc} {target : Text} {rest : List Text}
    (hparent : ∀ s ∈ parent, IsName s) (hrest : ∀ s ∈ rest, IsName s) :
    segments (expanded parent target rest) = linkBase parent target ++ segments target ++ rest := by
  have hbase : segments (if target.head? = some slash ∨ target.head? = some backslash then target
      else vfsPathAppend (render parent) target) = linkBase parent target ++ segments target := by
    unfold linkBase
    split
    · rfl
    · rw [segments_vfsPathAppend, segments_render hparent]
  unfold expanded
  simp only []
  by_cases hnil : rest = []
  · rw [if_pos hnil, hbase, hnil, List.append_nil]
  · rw [if_neg hnil, segments_vfsPathAppend, hbase, segments_restText hrest]

/-! ## Lengths -/

theorem length_normalizeStep {cap : Nat} {out seg out' : Text} (h : out.length < cap)
    (hs : normalizeStep cap out seg = some out') : out'.length < cap := by
  unfold normalizeStep at hs
  split at hs
  · cases hs
    exact h
  · split at hs
    · cases hs
      have hpop : (popOut out).length ≤ out.length := by
        have hd := (List.dropWhile_suffix (l := out.reverse) (fun c => decide (c ≠ slash))).length_le
        rw [List.length_reverse] at hd
        unfold popOut
        simp only []
        split
        · rw [List.length_dropLast, List.length_reverse]
          omega
        · rw [List.length_reverse]
          exact hd
      omega
    · unfold pushOut at hs
      split at hs
      · split at hs
        · cases hs
        · split at hs
          · cases hs
          · cases hs
            rw [List.length_append, List.length_cons]
            omega
      · split at hs
        · cases hs
        · cases hs
          rw [List.length_append]
          omega

theorem length_vfsNormalizePath (cwd path : Text) :
    (vfsNormalizePath cwd path).length < vfsPathMax := by
  have hfold : ∀ (segs : List Text) (out out' : Text), out.length < vfsPathMax →
      segs.foldlM (normalizeStep vfsPathMax) out = some out' → out'.length < vfsPathMax := by
    intro segs
    induction segs with
    | nil =>
        intro out out' h hs
        cases hs
        exact h
    | cons seg segs ih =>
        intro out out' h hs
        rw [List.foldlM_cons] at hs
        obtain ⟨mid, hmid, hrest⟩ := Option.bind_eq_some_iff.mp hs
        exact ih mid out' (length_normalizeStep h hmid) hrest
  unfold vfsNormalizePath
  cases hf : (segments (combinedPath cwd path)).foldlM (normalizeStep vfsPathMax) [slash] with
  | none => decide
  | some out => exact hfold _ _ _ (by decide) hf

theorem length_vfsPathAppend (dst part : Text) :
    (vfsPathAppend dst part).length ≤ dst.length + 1 + part.length := by
  have hd := (List.dropWhile_suffix (l := part) isSep).length_le
  unfold vfsPathAppend
  simp only []
  split
  · omega
  · split
    · rw [List.length_append]
      omega
    · rw [List.length_append, List.length_cons]
      omega

end Guppy.Vfs
