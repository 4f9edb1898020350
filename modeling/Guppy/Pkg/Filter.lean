import Guppy.Vfs.Path
import Mathlib.Data.List.TakeWhile

set_option autoImplicit false

/-! # Which paths a package may name

Two scanners decide whether a path of a package is safe: `safe_path` of `src/cmd_pkg.c` for
archive members and `valid_target_rel` of `src/pkg_configure.c` for tmpfiles entries. Both
look for a `..` between slashes. The path is then joined to the install root and
`vfs_normalize_path` splits it at backslashes too. So the filters let paths through that
leave the root: exactly those that climb when they are split at both separators
(`accepted_confined_iff`). Without a backslash no member that `safe_path` accepts climbs
(`segments_of_safePath`).
-/

namespace Guppy.Pkg

open Vfs

/-! ## The filters -/

/-- `clean`: skip every leading `./`. -/
def clean : Text → Text
  | a :: b :: t => if a = dot ∧ b = slash then clean t else a :: b :: t
  | t => t

/-- The loop of `safe_path`: no component between slashes is empty or `..`. `fuel` bounds
the components. -/
def safeComponents : Nat → Text → Bool
  | 0, _ => true
  | fuel + 1, s =>
      if s = [] then true
      else
        let e := s.takeWhile (fun c => c ≠ slash)
        if e = dotdot ∨ e = [] then false else safeComponents fuel (s.drop (e.length + 1))

def safePath (p : Text) : Bool :=
  let s := clean p
  if s = [] ∨ s.head? = some slash ∨ s.head? = some backslash then false
  else safeComponents s.length s

/-- The loop of `valid_target_rel`: a `..` between slashes or ends; `prev` is the byte
before. -/
def hasDotdot (prev : Option UInt8) : Text → Bool
  | [] => false
  | c :: t =>
      if c = dot ∧ t.head? = some dot ∧ (prev = none ∨ prev = some slash) ∧
          ((t.drop 1).head? = none ∨ (t.drop 1).head? = some slash) then true
      else hasDotdot (some c) t

def validTargetRel (p : Text) : Bool := p.head? = some slash && !hasDotdot none p

/-- The destination of a member: `snprintf(dst, sizeof dst, "%s/%s", root, rel)`. -/
def installDst (root rel : Text) : Text := (root ++ slash :: rel).take 1023

def cfgPathMax : Nat := 1400

/-- The destination of a tmpfiles entry, refused when it does not fit. -/
def tmpfilesDst (root rel : Text) : Option Text :=
  if cfgPathMax ≤ (root ++ rel).length then none else some (root ++ rel)

/-- The destination names no path, or one that is the root or lies below it. -/
def Confined (cwd root dst : Text) : Prop :=
  vfsNormalizePath cwd dst = [] ∨ Below (vfsNormalizePath cwd root) (vfsNormalizePath cwd dst)

instance (cwd root dst : Text) : Decidable (Confined cwd root dst) :=
  inferInstanceAs (Decidable (_ ∨ (_ ∨ _ ∨ _)))

/-! ## Joined paths -/

theorem isSep_slash : isSep slash = true := by decide

/-- The text that is scanned for a joined path is the one for the root, a slash, and the
path; nothing is cut off. -/
theorem combinedPath_join {cwd root rel : Text} (hcwd : cwd.length < 256) (hroot : root ≠ [])
    (hlen : root.length + 1 + rel.length < cfgPathMax) :
    combinedPath cwd (root ++ slash :: rel) = combinedPath cwd root ++ slash :: rel := by
  have hne : root ++ slash :: rel ≠ [] := by simp
  have hhead : (root ++ slash :: rel).head? = root.head? := List.head?_append_of_ne_nil _ hroot
  unfold cfgPathMax at hlen
  unfold combinedPath vfsPathMax
  rw [if_neg hne, if_neg hroot]
  simp only [hhead]
  have hcwd' : (if cwd.head? = some slash then cwd else [slash]).length < 256 := by
    split
    · exact hcwd
    · decide
  set c := if cwd.head? = some slash then cwd else [slash] with hc
  have hslash : (slash :: rel).length = rel.length + 1 := rfl
  split
  · rw [List.take_of_length_le (by rw [List.length_append]; omega),
      List.take_of_length_le (by omega)]
  · split
    · rw [List.take_of_length_le (by rw [List.length_cons, List.length_append]; omega),
        List.take_of_length_le (by rw [List.length_cons]; omega)]
      rfl
    · rw [List.take_of_length_le (by
          rw [List.length_append, List.length_cons, List.length_append]; omega),
        List.take_of_length_le (by rw [List.length_append, List.length_cons]; omega)]
      simp

/-- A path that does not climb stays below every root. -/
theorem confined_of_not_climbs {cwd root rel : Text} (hcwd : cwd.length < 256) (hroot : root ≠ [])
    (hlen : root.length + 1 + rel.length < cfgPathMax) (h : ¬ Climbs rel) :
    Confined cwd root (root ++ slash :: rel) := by
  by_cases hfit : vfsNormalizePath cwd (root ++ slash :: rel) = []
  · exact Or.inl hfit
  · refine Or.inr ?_
    have hcomb := combinedPath_join hcwd hroot hlen
    have hno : climbsFrom ([] : List Text).length (segments rel) = false :=
      Bool.eq_false_iff.mpr h
    rw [normalize_eq_render hfit, normalize_prefix isSep_slash hfit hcomb rfl, hcomb,
      segments_append _ _ isSep_slash, walk_append]
    have hbase := walk_append_base (walk [] (segments (combinedPath cwd root))) [] hno
    rw [List.append_nil] at hbase
    rw [hbase]
    exact below_render_append _ _

/-- The one-letter roots `/a` and `/b`. -/
def rootA : Text := [slash, 97]
def rootB : Text := [slash, 98]

theorem combinedPath_abs {cwd t : Text} (hlen : t.length < 2046) :
    combinedPath cwd (slash :: t) = slash :: t := by
  unfold combinedPath vfsPathMax
  rw [if_neg (by simp)]
  simp only [List.head?_cons, true_or, if_true]
  rw [List.take_of_length_le (by rw [List.length_cons]; omega)]

/-- A path that climbs leaves one of the two roots. -/
theorem escapes_of_climbs {rel : Text} (hlen : rel.length ≤ 1020) (h : Climbs rel) :
    ∃ root, (root = rootA ∨ root = rootB) ∧ ¬ Confined [slash] root (root ++ slash :: rel) := by
  obtain ⟨t, ht⟩ := climbs_forgets [] h
  -- one of the two names is not where the path ends up
  obtain ⟨x, hx, hname, hhead⟩ : ∃ x : UInt8, (x = 97 ∨ x = 98) ∧ IsName [x] ∧
      t.head? ≠ some [x] := by
    by_cases h97 : t.head? = some [97]
    · refine ⟨98, Or.inr rfl, ⟨by simp, forall_mem_of_all (by decide)⟩, ?_⟩
      rw [h97]
      decide
    · exact ⟨97, Or.inl rfl, ⟨by simp, forall_mem_of_all (by decide)⟩, h97⟩
  refine ⟨[slash, x], ?_, ?_⟩
  · rcases hx with rfl | rfl
    · exact Or.inl rfl
    · exact Or.inr rfl
  · have hsegx : segments [slash, x] = [[x]] := by
      rcases hx with rfl | rfl
      · decide
      · decide
    have hdst : vfsNormalizePath [slash] ([slash, x] ++ slash :: rel) = render t := by
      have hcomb : combinedPath [slash] ([slash, x] ++ slash :: rel) = slash :: (x :: slash :: rel) :=
        combinedPath_abs (t := x :: slash :: rel) (by simp only [List.length_cons]; omega)
      rw [normalize_of_short isSep_slash hcomb (by simp only [vfsPathMax, List.length_cons]; omega),
        show slash :: (x :: slash :: rel) = [slash, x] ++ slash :: rel from rfl,
        segments_append _ _ isSep_slash, hsegx, walk_append]
      have hwx : walk [] [[x]] = [[x]] := by
        rcases hx with rfl | rfl
        · decide
        · decide
      rw [hwx]
      exact congrArg render (ht [x])
    have hroot : vfsNormalizePath [slash] [slash, x] = render [[x]] := by
      rcases hx with rfl | rfl
      · decide
      · decide
    intro hc
    unfold Confined at hc
    rw [hdst, hroot] at hc
    rcases hc with hc | hc
    · exact render_ne_nil _ hc
    · refine hhead (head_of_below hname (fun s hs => ?_) hc)
      rw [← ht [x]] at hs
      rcases mem_walk hs with hs | hs
      · rw [List.mem_singleton.mp hs]
        exact hname
      · exact segments_isName _ s hs

/-! ## What the filters accept -/

theorem length_clean_le (p : Text) : (clean p).length ≤ p.length := by
  fun_induction clean p with
  | case1 a b t h ih =>
      simp only [List.length_cons]
      omega
  | case2 => exact le_refl _
  | case3 => exact le_refl _

/-- An archive member (at most 511 bytes, below a root of at most 511 bytes) stays below
every root exactly when it does not climb; the same holds for a tmpfiles entry of at most
1021 bytes, and longer entries that do not climb stay below their root too. -/
theorem accepted_confined_iff (path rel : Text) :
    (path.length < 512 → safePath path = true →
      ((∀ cwd root : Text, cwd.length < 256 → root ≠ [] → root.length < 512 →
          Confined cwd root (installDst root (clean path))) ↔ ¬ Climbs (clean path))) ∧
    (validTargetRel rel = true →
      (¬ Climbs rel → ∀ cwd root dst : Text, cwd.length < 256 → root ≠ [] →
        tmpfilesDst root rel = some dst → Confined cwd root dst) ∧
      (rel.length ≤ 1021 → (∀ cwd root dst : Text, cwd.length < 256 → root ≠ [] →
        tmpfilesDst root rel = some dst → Confined cwd root dst) → ¬ Climbs rel)) := by
  constructor
  · intro hlen _
    have hclean := length_clean_le path
    -- neither the root nor the member is long enough for the buffer to cut the join
    have hdst : ∀ root : Text, root.length < 512 →
        installDst root (clean path) = root ++ slash :: clean path := by
      intro root hroot
      rw [installDst, List.take_of_length_le]
      rw [List.length_append, List.length_cons]
      omega
    constructor
    · intro hall hclimb
      obtain ⟨root, hroot, hesc⟩ := escapes_of_climbs (by omega) hclimb
      have hne : root ≠ [] := by
        rcases hroot with rfl | rfl
        · decide
        · decide
      have hshort : root.length < 512 := by
        rcases hroot with rfl | rfl
        · decide
        · decide
      have := hall [slash] root (by decide) hne hshort
      rw [hdst root hshort] at this
      exact hesc this
    · intro hno cwd root hcwd hne hroot
      rw [hdst root hroot]
      exact confined_of_not_climbs hcwd hne (by unfold cfgPathMax; omega) hno
  · intro hvalid
    -- an accepted entry starts with the slash that joins it to the root
    obtain ⟨rest, rfl⟩ : ∃ rest, rel = slash :: rest := by
      unfold validTargetRel at hvalid
      cases rel with
      | nil => simp at hvalid
      | cons c t =>
          simp only [List.head?_cons, Bool.and_eq_true, decide_eq_true_eq, Option.some.injEq]
            at hvalid
          exact ⟨t, by rw [hvalid.1]⟩
    have hsegs : Climbs (slash :: rest) ↔ Climbs rest := by
      unfold Climbs
      rw [segments_sep_cons _ isSep_slash]
    rw [hsegs]
    constructor
    · intro hno cwd root dst hcwd hne hdst
      unfold tmpfilesDst at hdst
      by_cases hlong : cfgPathMax ≤ (root ++ slash :: rest).length
      · rw [if_pos hlong] at hdst
        cases hdst
      · rw [if_neg hlong] at hdst
        cases hdst
        rw [List.length_append, List.length_cons] at hlong
        exact confined_of_not_climbs hcwd hne (by omega) hno
    · intro hlen hall hclimb
      rw [List.length_cons] at hlen
      obtain ⟨root, hroot, hesc⟩ := escapes_of_climbs (by omega) hclimb
      have hne : root ≠ [] := by
        rcases hroot with rfl | rfl
        · decide
        · decide
      have hshort : root.length = 2 := by
        rcases hroot with rfl | rfl
        · rfl
        · rfl
      refine hesc (hall [slash] root _ (by decide) hne ?_)
      unfold tmpfilesDst cfgPathMax
      rw [if_neg]
      rw [List.length_append, List.length_cons]
      omega

/-- `a/b` stays below `/r`. -/
theorem accepted_confined_plain :
    Confined [slash] [slash, 114] (installDst [slash, 114] (clean [97, slash, 98])) :=
  ((accepted_confined_iff [97, slash, 98] []).1 (by decide) (by decide)).mpr (by decide) [slash]
    [slash, 114] (by decide) (by decide) (by decide)

/-- `a\..\..\x` has no `..` between slashes, so both filters accept it, the second one
after a slash. Below `/r` it names `/x`. -/
def backslashPath : Text := [97, 92, 46, 46, 92, 46, 46, 92, 120]

theorem backslash_path_escapes :
    ¬ ((∀ path : Text, path.length < 512 → safePath path = true →
        ∀ cwd root : Text, cwd.length < 256 → root ≠ [] → root.length < 512 →
          Confined cwd root (installDst root (clean path))) ∧
      (∀ rel : Text, validTargetRel rel = true →
        ∀ cwd root dst : Text, cwd.length < 256 → root ≠ [] →
          tmpfilesDst root rel = some dst → Confined cwd root dst)) := by
  rintro ⟨hall, -⟩
  have h := hall backslashPath (by decide) (by decide) [slash] [slash, 114] (by decide) (by decide)
    (by decide)
  revert h
  decide

/-! ## Members without backslashes -/

theorem segAux_no_sep {t : Text} (h : ∀ c ∈ t, isSep c = false) :
    ∀ cur, segAux cur t = if cur ++ t = [] then [] else [cur ++ t] := by
  induction t with
  | nil =>
      intro cur
      rw [List.append_nil]
      rfl
  | cons c t ih =>
      intro cur
      have hc := h c (List.mem_cons_self ..)
      rw [segAux, if_neg (by rw [hc]; decide), ih (fun d hd => h d (List.mem_cons_of_mem _ hd))]
      rw [List.append_assoc]
      rfl

/-- The components of a text without backslashes are the runs between its slashes. -/
theorem segments_cut {s : Text} (hs : backslash ∉ s) (hne : s.takeWhile (fun c => c ≠ slash) ≠ []) :
    segments s = s.takeWhile (fun c => c ≠ slash) ::
      segments (s.drop ((s.takeWhile (fun c => c ≠ slash)).length + 1)) := by
  set e := s.takeWhile (fun c => c ≠ slash) with he
  have hno : ∀ c ∈ e, isSep c = false := by
    intro c hc
    have hne : c ≠ slash := by simpa using List.mem_takeWhile_imp hc
    have hmem : c ∈ s := (List.takeWhile_prefix _).subset hc
    have hnb : c ≠ backslash := fun heq => hs (heq ▸ hmem)
    simp [isSep, hne, hnb]
  have hseg : segments e = [e] := by
    rw [segments, segAux_no_sep hno, List.nil_append, if_neg hne]
  have hsplit : s = e ++ s.dropWhile (fun c => c ≠ slash) := (List.takeWhile_append_dropWhile).symm
  have hdrop : s.drop (e.length + 1) = (s.dropWhile (fun c => c ≠ slash)).drop 1 := by
    conv_lhs => rw [hsplit]
    rw [List.drop_append, List.drop_of_length_le (by omega), List.nil_append]
    congr 1
    omega
  rw [hdrop]
  cases hrest : s.dropWhile (fun c => c ≠ slash) with
  | nil =>
      rw [hrest, List.append_nil] at hsplit
      rw [hsplit, hseg]
      rfl
  | cons c rest =>
      have hc : c = slash := by
        have := List.head?_dropWhile_not (fun c => decide (c ≠ slash)) s
        rw [hrest] at this
        simpa using this
      rw [hrest, hc] at hsplit
      rw [hsplit, segments_append _ _ isSep_slash, hseg]
      rfl

theorem segments_of_safeComponents :
    ∀ (fuel : Nat) (s : Text), s.length ≤ fuel → backslash ∉ s → safeComponents fuel s = true →
      ∀ seg ∈ segments s, seg ≠ dotdot := by
  intro fuel
  induction fuel with
  | zero =>
      intro s hl _ _ seg hseg
      rw [List.eq_nil_of_length_eq_zero (Nat.le_zero.mp hl)] at hseg
      cases hseg
  | succ fuel ih =>
      intro s hl hs hsafe seg hseg
      unfold safeComponents at hsafe
      by_cases hnil : s = []
      · rw [hnil] at hseg
        cases hseg
      rw [if_neg hnil] at hsafe
      simp only [] at hsafe
      by_cases hbad : s.takeWhile (fun c => c ≠ slash) = dotdot ∨
          s.takeWhile (fun c => c ≠ slash) = []
      · rw [if_pos hbad] at hsafe
        cases hsafe
      rw [if_neg hbad] at hsafe
      push Not at hbad
      rw [segments_cut hs hbad.2] at hseg
      rcases List.mem_cons.mp hseg with rfl | hseg
      · exact hbad.1
      · have hpos := List.length_pos_of_ne_nil hnil
        refine ih _ ?_ (fun hm => hs (List.mem_of_mem_drop hm)) hsafe seg hseg
        rw [List.length_drop]
        omega

/-- A member path without backslashes that `safe_path` accepts has no `..` at all. -/
theorem segments_of_safePath {p : Text} (hb : backslash ∉ clean p) (h : safePath p = true) :
    ∀ seg ∈ segments (clean p), seg ≠ dotdot := by
  unfold safePath at h
  simp only [] at h
  split at h
  · cases h
  · exact segments_of_safeComponents _ _ (le_refl _) hb h

end Guppy.Pkg
