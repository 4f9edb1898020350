import Guppy.Vfs.Resolve

set_option autoImplicit false

/-! # Canonical paths

What `vfs_normalize_path` computes, without its buffer: the components of the working directory and of
the input are folded from left to right. The result is canonical (`Canonical`), and normalizing it again
changes nothing. The buffer of `VFS_PATH_MAX` bytes holds every path on the way, and the function gives
up at the first that does not fit, even if a later `..` would make it shorter (`normalize_canonical_iff`).
-/

namespace Guppy.Vfs

/-! ## Components -/

/-- The parts of a text between separators. -/
def components (t : Text) : List Text := (t.splitOnP isSep).filter (· ≠ [])

def isAbsolute (path : Text) : Bool := path.head?.any isSep

/-- The components that a path stands for in a working directory. -/
def inputComponents (cwd path : Text) : List Text :=
  if isAbsolute path = true then components path
  else if cwd.head? = some slash then components cwd ++ components path
  else components path

/-- A path with one name. -/
structure Canonical (p : Text) : Prop where
  absolute : p.head? = some slash
  components : p ≠ [slash] → ∀ s ∈ p.tail.splitOn slash, s ≠ [] ∧ s ≠ [dot] ∧ s ≠ dotdot
  trailing : p.getLast? = some slash → p = [slash]

theorem segAux_eq (t : Text) : ∀ cur : Text, segAux cur t = ((t.splitOnP isSep).modifyHead (cur ++ ·)).filter (· ≠ []) := by
  induction t with
  | nil =>
      intro cur
      rw [segAux, List.splitOnP_nil, List.modifyHead_cons, List.append_nil]
      by_cases h : cur = []
      · simp [h]
      · simp [h]
  | cons c t ih =>
      intro cur
      rw [List.splitOnP_cons_eq_if_modifyHead]
      by_cases hc : isSep c = true
      · have hid : (t.splitOnP isSep).modifyHead (([] : Text) ++ ·) = t.splitOnP isSep := by
          cases t.splitOnP isSep <;> rfl
        have ih := ih []
        rw [hid] at ih
        rw [segAux, if_pos hc, if_pos hc, List.modifyHead_cons, List.append_nil, ih]
        by_cases h : cur = []
        · simp [h]
        · simp [h]
      · rw [segAux, if_neg hc, if_neg hc, ih, List.modifyHead_modifyHead]
        congr 2
        funext s
        simp

theorem segments_eq_components (t : Text) : segments t = components t := by
  unfold segments components
  rw [segAux_eq]
  cases t.splitOnP isSep <;> rfl

theorem isAbsolute_iff {path : Text} : isAbsolute path = true ↔ path.head? = some slash ∨ path.head? = some backslash := by
  unfold isAbsolute
  cases path.head? with
  | none => simp
  | some c => simp [isSep]

/-- The code folds the components, and a `.` for an empty input. -/
theorem segments_combined {cwd path : Text} (hcwd : cwd.length < vfsPathMax) (hpath : path.length < vfsPathMax) :
    segments (combinedPath cwd path) = inputComponents cwd path ++ if path = [] then [[dot]] else [] := by
  have hmax : vfsPathMax = 1024 := rfl
  obtain ⟨input, hinput⟩ : ∃ input, (if path = [] then [dot] else path) = input := ⟨_, rfl⟩
  -- the two inputs have the same kind and the same components
  have hsame : isAbsolute input = isAbsolute path ∧
      segments input = components path ++ (if path = [] then [[dot]] else []) ∧ input.length < vfsPathMax := by
    rw [← hinput]
    by_cases hnil : path = []
    · rw [if_pos hnil, if_pos hnil, hnil]
      decide
    · rw [if_neg hnil, if_neg hnil, List.append_nil]
      exact ⟨rfl, segments_eq_components path, hpath⟩
  obtain ⟨habs, hsegs, hlen⟩ := hsame
  have htake : ∀ t : Text, t.length ≤ cwd.length + (input.length + 1) → t.take (vfsPathMax * 2 - 1) = t := by
    intro t ht
    exact List.take_of_length_le (by omega)
  have hslash : segments (slash :: input) = segments input := segments_sep_cons input isSep_slash
  have hinner : combinedPath cwd path = (if input.head? = some slash ∨ input.head? = some backslash then input
      else if (if cwd.head? = some slash then cwd else [slash]) = [slash] then slash :: input
      else (if cwd.head? = some slash then cwd else [slash]) ++ slash :: input).take (vfsPathMax * 2 - 1) := by
    unfold combinedPath
    rw [hinput]
  have hin : isAbsolute path = true ↔ input.head? = some slash ∨ input.head? = some backslash := by
    rw [← isAbsolute_iff, habs]
  rw [hinner]
  unfold inputComponents
  by_cases ha : isAbsolute path = true
  · rw [if_pos (hin.mp ha), if_pos ha, htake _ (by omega), hsegs]
  · rw [if_neg (fun h => ha (hin.mpr h)), if_neg ha]
    by_cases hc : cwd.head? = some slash
    · rw [if_pos hc, if_pos hc]
      by_cases hroot : cwd = [slash]
      · have hnone : components [slash] = [] := by decide
        rw [if_pos hroot, htake _ (by rw [List.length_cons]; omega), hslash, hsegs, hroot, hnone, List.nil_append]
      · rw [if_neg hroot, htake _ (by rw [List.length_append, List.length_cons]), segments_append _ _ isSep_slash, hsegs,
          segments_eq_components, List.append_assoc]
    · rw [if_neg hc, if_neg hc, if_pos rfl, htake _ (by rw [List.length_cons]; omega), hslash, hsegs]

/-! ## The buffer -/

variable {cap : Nat}

theorem length_render_dropLast (st : List Text) : (render st.dropLast).length ≤ (render st).length := by
  rcases List.eq_nil_or_concat st with rfl | ⟨st, s, rfl⟩
  · exact Nat.le_refl _
  · rw [List.concat_eq_append, List.dropLast_concat, render_concat, List.length_append, List.length_cons]
    by_cases hnil : st = []
    · have hroot : (render []).length = 1 := rfl
      rw [hnil, hroot]
      omega
    · rw [render_of_ne hnil]
      omega

/-- A component fits exactly if the path with it does. -/
theorem normalizeStep_eq {st : List Text} {seg : Text} (h : ∀ s ∈ st, IsName s) (hfit : (render st).length < cap) :
    normalizeStep cap (render st) seg =
      if (render (stepStack st seg)).length < cap then some (render (stepStack st seg)) else none := by
  have hne : ∀ s ∈ st, s ≠ [] := fun s hs => (h s hs).1
  unfold normalizeStep stepStack
  by_cases hdot : seg = [dot]
  · rw [if_pos hdot, if_pos hdot, if_pos hfit]
  · rw [if_neg hdot, if_neg hdot]
    by_cases hdd : seg = dotdot
    · -- removing a component makes the path shorter
      rw [if_pos hdd, if_pos hdd, popOut_render (fun s hs => (h s hs).slash_not_mem), if_pos]
      exact (length_render_dropLast st).trans_lt hfit
    · rw [if_neg hdd, if_neg hdd]
      unfold pushOut
      by_cases hnil : st = []
      · subst hnil
        have hroot : render [] = [slash] := rfl
        have hone : render ([] ++ [seg]) = slash :: seg := by rw [render_concat, List.flatMap_nil, List.nil_append]
        rw [hroot, hone, if_neg (by decide)]
        by_cases hlt : (slash :: seg).length < cap
        · rw [if_pos hlt, if_neg (by simp at hlt ⊢; omega)]
          rfl
        · rw [if_neg hlt, if_pos (by simp at hlt ⊢; omega)]
      · have hconcat : render (st ++ [seg]) = render st ++ slash :: seg := by
          rw [render_concat, render_of_ne hnil]
        have hlen : (render (st ++ [seg])).length = (render st).length + 1 + seg.length := by
          rw [hconcat, List.length_append, List.length_cons]
          omega
        rw [if_pos ((one_lt_length_render hne).mpr hnil), hlen, ← hconcat]
        by_cases hlt : (render st).length + 1 + seg.length < cap
        · rw [if_neg (by omega), if_neg (by omega), if_pos hlt]
        · rw [if_neg hlt]
          split
          · rfl
          · rw [if_pos (by omega)]

/-- The fold gives up at the first path that does not fit. -/
theorem foldlM_none_iff {segs : List Text} : ∀ {st : List Text}, (∀ s ∈ st, IsName s) → (∀ s ∈ segs, IsName s) →
    (render st).length < cap →
    (segs.foldlM (normalizeStep cap) (render st) = none ↔ ∃ n, cap ≤ (render (walk st (segs.take n))).length) := by
  induction segs with
  | nil =>
      intro st _ _ hfit
      constructor
      · intro h
        cases h
      · rintro ⟨n, hn⟩
        rw [List.take_nil] at hn
        exact absurd hfit (Nat.not_lt.mpr hn)
  | cons seg segs ih =>
      intro st hst hsegs hfit
      have hstep : ∀ n, walk st ((seg :: segs).take (n + 1)) = walk (stepStack st seg) (segs.take n) := fun _ => rfl
      rw [List.foldlM_cons, normalizeStep_eq hst hfit]
      by_cases hlt : (render (stepStack st seg)).length < cap
      · rw [if_pos hlt, Option.bind_eq_bind, Option.bind_some, ih _ (fun s hs => hsegs s (List.mem_cons_of_mem _ hs)) hlt]
        · constructor
          · rintro ⟨n, hn⟩
            exact ⟨n + 1, hn⟩
          · rintro ⟨n, hn⟩
            cases n with
            | zero => exact absurd hfit (Nat.not_lt.mpr hn)
            | succ n => exact ⟨n, hn⟩
        · intro s hs
          rcases @mem_walk [seg] _ _ hs with h | h
          · exact hst s h
          · exact hsegs s (List.mem_singleton.mp h ▸ List.mem_cons_self ..)
      · rw [if_neg hlt]
        exact iff_of_true rfl ⟨1, Nat.not_lt.mp hlt⟩

/-! ## Canonical paths -/

theorem components_isName (t : Text) : ∀ s ∈ components t, IsName s := by
  rw [← segments_eq_components]
  exact segments_isName t

theorem inputComponents_isName (cwd path : Text) : ∀ s ∈ inputComponents cwd path, IsName s := by
  intro s hs
  unfold inputComponents at hs
  split at hs
  · exact components_isName _ s hs
  · split at hs
    · rcases List.mem_append.mp hs with hs | hs
      · exact components_isName _ s hs
      · exact components_isName _ s hs
    · exact components_isName _ s hs

/-- A stack of names is split where its slashes are. -/
theorem splitOn_render {s : Text} {st : List Text} (h : ∀ x ∈ s :: st, slash ∉ x) :
    (render (s :: st)).tail.splitOn slash = s :: st := by
  have htext : ∀ (st : List Text) (s : Text), [slash].intercalate (s :: st) = s ++ st.flatMap (fun s => slash :: s) := by
    intro st
    induction st with
    | nil =>
        intro s
        simp [List.intercalate]
    | cons s' st ih =>
        intro s
        rw [List.flatMap_cons, List.cons_append, ← ih]
        simp [List.intercalate]
  rw [render_of_ne (List.cons_ne_nil _ _), List.flatMap_cons, List.cons_append, List.tail_cons, ← htext]
  exact List.splitOn_intercalate slash h (List.cons_ne_nil _ _)

theorem canonical_render {st : List Text} (h : ∀ s ∈ st, Plain s) : Canonical (render st) := by
  cases st with
  | nil => exact ⟨rfl, fun hne => absurd rfl hne, fun _ => rfl⟩
  | cons s st =>
      have hslash : ∀ x ∈ s :: st, slash ∉ x := fun x hx => (h x hx).1.slash_not_mem
      refine ⟨?_, fun _ => ?_, fun hlast => ?_⟩
      · rw [render_of_ne (List.cons_ne_nil _ _)]
        rfl
      · rw [splitOn_render hslash]
        exact fun x hx => ⟨(h x hx).1.1, (h x hx).2⟩
      · -- the last byte belongs to a name
        obtain ⟨init, last, hinit⟩ := List.eq_nil_or_concat (s :: st) |>.resolve_left (List.cons_ne_nil _ _)
        rw [List.concat_eq_append] at hinit
        have hmem : last ∈ s :: st := by
          rw [hinit]
          exact List.mem_append_right _ (List.mem_singleton_self _)
        obtain ⟨c, hc⟩ : ∃ c, last.getLast? = some c := ⟨_, List.getLast?_eq_some_getLast (h last hmem).1.1⟩
        rw [hinit, render_concat, List.append_cons, List.getLast?_append_of_ne_nil _ (h last hmem).1.1, hc] at hlast
        have hbyte : c = slash := Option.some.inj hlast
        exact absurd (hbyte ▸ List.mem_of_getLast? hc) (hslash last hmem)

/-- A canonical path that fits is normalized to itself. -/
theorem normalize_render {st : List Text} (h : ∀ s ∈ st, Plain s) (hfit : (render st).length < vfsPathMax) (cwd : Text) :
    vfsNormalizePath cwd (render st) = render st := by
  obtain ⟨t, ht⟩ : ∃ t, render st = slash :: t := by
    have habs := (canonical_render h).absolute
    cases hr : render st with
    | nil => exact absurd hr (render_ne_nil st)
    | cons c t =>
        rw [hr] at habs
        exact ⟨t, by rw [Option.some.inj habs]⟩
  have hmax : vfsPathMax = 1024 := rfl
  have hcombined : combinedPath cwd (render st) = slash :: t := by
    unfold combinedPath
    dsimp only []
    rw [if_neg (render_ne_nil st), ht, if_pos (show (slash :: t).head? = some slash ∨ _ from Or.inl rfl),
      List.take_of_length_le]
    rw [← ht]
    omega
  rw [ht, List.length_cons] at hfit
  rw [ht] at hcombined ⊢
  rw [normalize_of_short isSep_slash hcombined hfit, ← ht, segments_render (fun s hs => (h s hs).1),
    walk_names (fun s hs => (h s hs).2), List.nil_append]

theorem foldlM_dot (o : Option Text) (path : Text) :
    o.bind (fun out => (if path = [] then [[dot]] else []).foldlM (normalizeStep vfsPathMax) out) = o := by
  cases o with
  | none => rfl
  | some out => split <;> rfl

/-- The function is the fold of the components. -/
theorem vfsNormalizePath_eq {cwd path : Text} (hcwd : cwd.length < vfsPathMax) (hpath : path.length < vfsPathMax) :
    vfsNormalizePath cwd path = ((inputComponents cwd path).foldlM (normalizeStep vfsPathMax) (render [])).getD [] := by
  unfold vfsNormalizePath
  rw [segments_combined hcwd hpath, List.foldlM_append]
  exact congrArg (·.getD []) (foldlM_dot _ path)

/-- The result is empty exactly if some path on the way does not fit in the buffer. Otherwise it is the
canonical path of the folded components, and normalizing it again changes nothing. -/
theorem normalize_canonical_iff {cwd path : Text} (hcwd : cwd.length < vfsPathMax) (hpath : path.length < vfsPathMax) :
    (vfsNormalizePath cwd path = [] ↔
      ∃ n, vfsPathMax ≤ (render (walk [] ((inputComponents cwd path).take n))).length) ∧
    (vfsNormalizePath cwd path ≠ [] →
      vfsNormalizePath cwd path = render (walk [] (inputComponents cwd path)) ∧ Canonical (vfsNormalizePath cwd path) ∧
        ∀ cwd', vfsNormalizePath cwd' (vfsNormalizePath cwd path) = vfsNormalizePath cwd path) := by
  have hnames := inputComponents_isName cwd path
  have hroot : (render []).length < vfsPathMax := by decide
  have hnone := @foldlM_none_iff vfsPathMax (inputComponents cwd path) [] (fun s hs => absurd hs List.not_mem_nil) hnames hroot
  rw [vfsNormalizePath_eq hcwd hpath, ← hnone]
  cases hfold : (inputComponents cwd path).foldlM (normalizeStep vfsPathMax) (render []) with
  | none =>
      constructor
      · exact iff_of_true rfl rfl
      · exact fun hne => absurd rfl hne
  | some out =>
      have hout := @foldlM_normalizeStep vfsPathMax _ [] _ (fun s hs => absurd hs List.not_mem_nil) hnames hfold
      have hplain : ∀ s ∈ walk [] (inputComponents cwd path), Plain s :=
        walk_plain hnames (fun s hs => absurd hs List.not_mem_nil)
      rw [Option.getD_some, hout]
      refine ⟨iff_of_false (render_ne_nil _) (Option.some_ne_none _), fun _ => ⟨rfl, canonical_render hplain, fun cwd' => ?_⟩⟩
      have hlen := length_vfsNormalizePath cwd path
      rw [vfsNormalizePath_eq hcwd hpath, hfold, Option.getD_some, hout] at hlen
      exact normalize_render hplain hlen cwd'

theorem normalize_canonical_iff_home : Canonical (vfsNormalizePath (slash :: [97]) (dotdot ++ slash :: [98])) := by
  have hne : vfsNormalizePath (slash :: [97]) (dotdot ++ slash :: [98]) ≠ [] := by decide
  exact ((normalize_canonical_iff (by decide) (by decide)).2 hne).2.1

theorem isName_replicate {n : Nat} {c : UInt8} (hc : isSep c = false) : IsName (List.replicate (n + 1) c) := by
  refine ⟨List.cons_ne_nil _ _, fun d hd => ?_⟩
  rw [List.eq_of_mem_replicate hd]
  exact hc

theorem plain_replicate {n : Nat} {c : UInt8} (hc : isSep c = false) (hdot : c ≠ dot) : Plain (List.replicate (n + 1) c) := by
  refine ⟨isName_replicate hc, ?_, ?_⟩
  · exact fun h => hdot (List.head_eq_of_cons_eq h)
  · exact fun h => hdot (List.head_eq_of_cons_eq h)

theorem inputComponents_up {n m : Nat} {c d : UInt8} (hc : isSep c = false) (hd : isSep d = false) :
    inputComponents (slash :: List.replicate (n + 1) c) (List.replicate (m + 1) d ++ slash :: dotdot) =
      [List.replicate (n + 1) c, List.replicate (m + 1) d, dotdot] := by
  have habs : isAbsolute (List.replicate (m + 1) d ++ slash :: dotdot) = false := hd
  have hup : segments dotdot = [dotdot] := by decide
  unfold inputComponents
  rw [habs, if_neg Bool.false_ne_true, if_pos (show (slash :: _).head? = some slash from rfl), ← segments_eq_components, ← segments_eq_components,
    segments_sep_cons _ isSep_slash, segments_append _ _ isSep_slash, segments_name (isName_replicate hc),
    segments_name (isName_replicate hd), hup]
  rfl

theorem walk_up {a b : Text} (ha : a ≠ [dot] ∧ a ≠ dotdot) (hb : b ≠ [dot] ∧ b ≠ dotdot) :
    walk [] [a, b] = [a, b] ∧ walk [] [a, b, dotdot] = [a] := by
  have hnames : ∀ s ∈ [a, b], s ≠ [dot] ∧ s ≠ dotdot := by
    intro s hs
    rcases List.mem_cons.mp hs with rfl | hs
    · exact ha
    · rw [List.mem_singleton.mp hs]
      exact hb
  have hdown := walk_names hnames []
  refine ⟨hdown, ?_⟩
  rw [show [a, b, dotdot] = [a, b] ++ [dotdot] from rfl, walk_append, hdown]
  rfl

/-- The path of the result has 251 bytes, but the one before the last component does not fit. -/
theorem short_path_given_up : ∃ cwd path : Text, cwd.length < vfsPathMax ∧ path.length < vfsPathMax ∧
    (render (walk [] (inputComponents cwd path))).length < vfsPathMax ∧ vfsNormalizePath cwd path = [] := by
  have hc : isSep 97 = false := by decide
  have hd : isSep 98 = false := by decide
  have hlen : ∀ n, (render [List.replicate (n + 1) (97 : UInt8)]).length = n + 2 := by
    intro n
    rw [length_render (List.cons_ne_nil _ _)]
    simp [size]
  have hlong : ∀ n m, (render [List.replicate (n + 1) (97 : UInt8), List.replicate (m + 1) 98]).length = n + m + 4 := by
    intro n m
    rw [length_render (List.cons_ne_nil _ _)]
    simp [size]
    omega
  have hname : ∀ c : UInt8, isSep c = false → c ≠ dot → ∀ n,
      List.replicate (n + 1) c ≠ [dot] ∧ List.replicate (n + 1) c ≠ dotdot :=
    fun c hc hdot n => (plain_replicate hc hdot).2
  refine ⟨slash :: List.replicate (249 + 1) 97, List.replicate (799 + 1) 98 ++ slash :: dotdot, ?_, ?_, ?_, ?_⟩
  · rw [List.length_cons, List.length_replicate]
    decide
  · rw [List.length_append, List.length_replicate]
    decide
  · rw [inputComponents_up hc hd, (walk_up (hname 97 hc (by decide) _) (hname 98 hd (by decide) _)).2, hlen]
    decide
  · rw [vfsNormalizePath_eq, (foldlM_none_iff (fun s hs => absurd hs List.not_mem_nil) (inputComponents_isName _ _) (by decide)).mpr]
    · rfl
    · -- the working directory and the first component
      refine ⟨2, ?_⟩
      rw [inputComponents_up hc hd, List.take_succ_cons, List.take_succ_cons, List.take_zero,
        (walk_up (hname 97 hc (by decide) _) (hname 98 hd (by decide) _)).1, hlong]
      decide
    · rw [List.length_cons, List.length_replicate]
      decide
    · rw [List.length_append, List.length_replicate]
      decide

end Guppy.Vfs
