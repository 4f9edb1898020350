import Mathlib.Tactic

set_option autoImplicit false

/-! # VFS paths

`vfs_normalize_path` of `src/vfs.c` turns a path text into a canonical absolute path: it
splits at `/` and `\`, drops `.` and lets `..` remove the component before it. The code
works in one output buffer; `walk` is the same computation on a stack of components, and
`normalize_eq_render` says that the buffer always holds the rendered stack.

A component list *climbs* when some `..` in it meets an empty stack. Below a fixed base a
list that does not climb stays below the base (`walk_append_base`); one that climbs forgets
the base altogether (`climbs_forgets`).
-/

namespace Guppy.Vfs

/-- A C string: its bytes, without the terminating zero. -/
abbrev Text := List UInt8

def slash : UInt8 := 47
def backslash : UInt8 := 92
def dot : UInt8 := 46

def dotdot : Text := [dot, dot]

def isSep (c : UInt8) : Bool := c = slash || c = backslash

def vfsPathMax : Nat := 1024

/-! ## The code -/

/-- The scan of `vfs_normalize_path`: the non-empty runs between separators; `cur` is the
run read so far. -/
def segAux (cur : Text) : Text → List Text
  | [] => if cur = [] then [] else [cur]
  | c :: t =>
      if isSep c then (if cur = [] then segAux [] t else cur :: segAux [] t)
      else segAux (cur ++ [c]) t

def segments (t : Text) : List Text := segAux [] t

/-- `..`: cut the output back to its last slash, and cut that too unless it is the first
byte. -/
def popOut (out : Text) : Text :=
  let kept := (out.reverse.dropWhile (fun c => c ≠ slash)).reverse
  if 1 < kept.length then kept.dropLast else kept

/-- Append a component, or give up when it does not fit in `cap` bytes. -/
def pushOut (cap : Nat) (out seg : Text) : Option Text :=
  if 1 < out.length then
    if cap ≤ out.length + 1 then none
    else if cap ≤ out.length + 1 + seg.length then none
    else some (out ++ slash :: seg)
  else if cap ≤ out.length + seg.length then none
  else some (out ++ seg)

def normalizeStep (cap : Nat) (out seg : Text) : Option Text :=
  if seg = [dot] then some out
  else if seg = dotdot then some (popOut out)
  else pushOut cap out seg

/-- The text that is scanned: an absolute path itself, any other path below `cwd`. -/
def combinedPath (cwd path : Text) : Text :=
  let path := if path = [] then [dot] else path
  let cwd := if cwd.head? = some slash then cwd else [slash]
  let combined :=
    if path.head? = some slash ∨ path.head? = some backslash then path
    else if cwd = [slash] then slash :: path
    else cwd ++ slash :: path
  combined.take (vfsPathMax * 2 - 1)

/-- `vfs_normalize_path` with an output buffer of `VFS_PATH_MAX` bytes; the result is empty
when the path does not fit. -/
def vfsNormalizePath (cwd path : Text) : Text :=
  ((segments (combinedPath cwd path)).foldlM (normalizeStep vfsPathMax) [slash]).getD []

/-! ## Components -/

/-- The text of a stack of components. -/
def render (st : List Text) : Text :=
  if st = [] then [slash] else st.flatMap (fun s => slash :: s)

def stepStack (st : List Text) (seg : Text) : List Text :=
  if seg = [dot] then st else if seg = dotdot then st.dropLast else st ++ [seg]

def walk (st : List Text) (segs : List Text) : List Text := segs.foldl stepStack st

/-- Starting `d` components deep, some `..` of the list meets an empty stack. -/
def climbsFrom : Nat → List Text → Bool
  | _, [] => false
  | d, seg :: segs =>
      if seg = [dot] then climbsFrom d segs
      else if seg = dotdot then (if d = 0 then true else climbsFrom (d - 1) segs)
      else climbsFrom (d + 1) segs

/-- The path text, split at both separators, goes above the place where it starts. -/
def Climbs (path : Text) : Prop := climbsFrom 0 (segments path) = true

instance (path : Text) : Decidable (Climbs path) := inferInstanceAs (Decidable (_ = true))

/-- A component: non-empty and without separators. -/
def IsName (s : Text) : Prop := s ≠ [] ∧ ∀ c ∈ s, isSep c = false

/-- A property of all bytes of a text, evaluated byte by byte. -/
theorem forall_mem_of_all {α : Type} {p : α → Prop} [DecidablePred p] {l : List α} (h : l.all (fun a => decide (p a)) = true) :
    ∀ a ∈ l, p a := fun a ha => of_decide_eq_true (List.all_eq_true.mp h a ha)

theorem IsName.slash_not_mem {s : Text} (h : IsName s) : slash ∉ s := by
  intro hm
  have := h.2 slash hm
  revert this
  decide

theorem segAux_isName (cur t : Text) (hcur : ∀ c ∈ cur, isSep c = false) :
    ∀ s ∈ segAux cur t, IsName s := by
  induction t generalizing cur with
  | nil =>
      intro s hs
      unfold segAux at hs
      split at hs
      · cases hs
      · rename_i hne
        rw [List.mem_singleton] at hs
        subst hs
        exact ⟨hne, hcur⟩
  | cons c t ih =>
      intro s hs
      unfold segAux at hs
      by_cases hc : isSep c = true
      · rw [if_pos hc] at hs
        by_cases hnil : cur = []
        · rw [if_pos hnil] at hs
          exact ih [] (by simp) s hs
        · rw [if_neg hnil] at hs
          rcases List.mem_cons.mp hs with rfl | hs
          · exact ⟨hnil, hcur⟩
          · exact ih [] (by simp) s hs
      · rw [if_neg hc] at hs
        refine ih _ (fun d hd => ?_) s hs
        rcases List.mem_append.mp hd with hd | hd
        · exact hcur d hd
        · rw [List.mem_singleton.mp hd]
          exact Bool.eq_false_iff.mpr hc

theorem segments_isName (t : Text) : ∀ s ∈ segments t, IsName s :=
  segAux_isName [] t (by simp)

theorem segAux_sep (cur t : Text) {c : UInt8} (hc : isSep c = true) :
    segAux cur (c :: t) = segAux cur [] ++ segAux [] t := by
  rw [segAux.eq_2, if_pos hc, segAux.eq_1]
  by_cases hnil : cur = []
  · rw [if_pos hnil, if_pos hnil, List.nil_append]
  · rw [if_neg hnil, if_neg hnil, List.singleton_append]

/-- Scanning a text up to a separator and then the rest. -/
theorem segAux_append (cur a b : Text) {c : UInt8} (hc : isSep c = true) :
    segAux cur (a ++ c :: b) = segAux cur a ++ segAux [] b := by
  induction a generalizing cur with
  | nil => exact segAux_sep cur b hc
  | cons d a ih =>
      by_cases hd : isSep d = true
      · rw [List.cons_append, segAux_sep cur _ hd, segAux_sep cur _ hd, ih, List.append_assoc]
      · rw [List.cons_append, segAux, segAux, if_neg hd, if_neg hd, ih]

theorem segments_append (a b : Text) {c : UInt8} (hc : isSep c = true) :
    segments (a ++ c :: b) = segments a ++ segments b := segAux_append [] a b hc

theorem segments_sep_cons (t : Text) {c : UInt8} (hc : isSep c = true) :
    segments (c :: t) = segments t := segments_append [] t hc

/-! ## Walking -/

theorem walk_append (st : List Text) (a b : List Text) : walk st (a ++ b) = walk (walk st a) b :=
  List.foldl_append

theorem mem_walk {segs : List Text} : ∀ {st : List Text} {s : Text}, s ∈ walk st segs →
    s ∈ st ∨ s ∈ segs := by
  induction segs with
  | nil =>
      intro st s h
      exact Or.inl h
  | cons seg segs ih =>
      intro st s h
      rcases ih h with h | h
      · unfold stepStack at h
        split at h
        · exact Or.inl h
        · split at h
          · exact Or.inl (List.mem_of_mem_dropLast h)
          · rcases List.mem_append.mp h with h | h
            · exact Or.inl h
            · rw [List.mem_singleton.mp h]
              exact Or.inr (List.mem_cons_self ..)
      · exact Or.inr (List.mem_cons_of_mem _ h)

/-- A list that does not climb leaves the base of the stack alone. -/
theorem walk_append_base {segs : List Text} (base : List Text) :
    ∀ (st : List Text), climbsFrom st.length segs = false →
      walk (base ++ st) segs = base ++ walk st segs := by
  induction segs with
  | nil =>
      intro st _
      rfl
  | cons seg segs ih =>
      intro st h
      unfold climbsFrom at h
      show walk (stepStack (base ++ st) seg) segs = base ++ walk (stepStack st seg) segs
      unfold stepStack
      by_cases hdot : seg = [dot]
      · rw [if_pos hdot] at h ⊢
        rw [if_pos hdot]
        exact ih st h
      · rw [if_neg hdot] at h ⊢
        rw [if_neg hdot]
        by_cases hdd : seg = dotdot
        · rw [if_pos hdd] at h ⊢
          rw [if_pos hdd]
          by_cases h0 : st.length = 0
          · rw [if_pos h0] at h
            cases h
          · rw [if_neg h0] at h
            have hne : st ≠ [] := fun hnil => h0 (by rw [hnil]; rfl)
            rw [List.dropLast_append_of_ne_nil hne]
            exact ih st.dropLast (by rw [List.length_dropLast]; exact h)
        · rw [if_neg hdd] at h ⊢
          rw [if_neg hdd, List.append_assoc]
          exact ih (st ++ [seg]) (by rw [List.length_append]; exact h)

/-- A list that climbs ends in the same place whatever the base was. -/
theorem climbs_forgets {segs : List Text} :
    ∀ (st : List Text), climbsFrom st.length segs = true →
      ∃ t, ∀ x, walk (x :: st) segs = t := by
  induction segs with
  | nil =>
      intro st h
      cases h
  | cons seg segs ih =>
      intro st h
      unfold climbsFrom at h
      by_cases hdot : seg = [dot]
      · rw [if_pos hdot] at h
        obtain ⟨t, ht⟩ := ih st h
        refine ⟨t, fun x => ?_⟩
        show walk (stepStack (x :: st) seg) segs = t
        rw [stepStack, if_pos hdot]
        exact ht x
      · rw [if_neg hdot] at h
        by_cases hdd : seg = dotdot
        · rw [if_pos hdd] at h
          by_cases h0 : st.length = 0
          · -- the base itself is removed here
            refine ⟨walk [] segs, fun x => ?_⟩
            show walk (stepStack (x :: st) seg) segs = _
            rw [stepStack, if_neg hdot, if_pos hdd, List.eq_nil_of_length_eq_zero h0]
            rfl
          · rw [if_neg h0] at h
            have hne : st ≠ [] := fun hnil => h0 (by rw [hnil]; rfl)
            obtain ⟨t, ht⟩ := ih st.dropLast (by rw [List.length_dropLast]; exact h)
            refine ⟨t, fun x => ?_⟩
            show walk (stepStack (x :: st) seg) segs = t
            rw [stepStack, if_neg hdot, if_pos hdd, List.dropLast_cons_of_ne_nil hne]
            exact ht x
        · rw [if_neg hdd] at h
          obtain ⟨t, ht⟩ := ih (st ++ [seg]) (by rw [List.length_append]; exact h)
          refine ⟨t, fun x => ?_⟩
          show walk (stepStack (x :: st) seg) segs = t
          rw [stepStack, if_neg hdot, if_neg hdd]
          exact ht x

/-- Components that are neither `.` nor `..` are all pushed. -/
theorem walk_names {segs : List Text} (h : ∀ s ∈ segs, s ≠ [dot] ∧ s ≠ dotdot) :
    ∀ st, walk st segs = st ++ segs := by
  induction segs with
  | nil =>
      intro st
      exact (List.append_nil st).symm
  | cons seg segs ih =>
      intro st
      have hs := h seg (List.mem_cons_self ..)
      show walk (stepStack st seg) segs = _
      rw [stepStack, if_neg hs.1, if_neg hs.2,
        ih (fun s hm => h s (List.mem_cons_of_mem _ hm)), List.append_assoc]
      rfl

theorem climbsFrom_names {segs : List Text} (h : ∀ s ∈ segs, s ≠ dotdot) :
    ∀ d, climbsFrom d segs = false := by
  induction segs with
  | nil =>
      intro d
      rfl
  | cons seg segs ih =>
      intro d
      have hrest := ih (fun s hm => h s (List.mem_cons_of_mem _ hm))
      unfold climbsFrom
      split
      · exact hrest d
      · rw [if_neg (h seg (List.mem_cons_self ..))]
        exact hrest (d + 1)

/-! ## The buffer holds the rendered stack -/

theorem render_ne_nil (st : List Text) : render st ≠ [] := by
  unfold render
  split
  · simp
  · rename_i h
    cases st with
    | nil => exact absurd rfl h
    | cons s st => simp

theorem render_of_ne {st : List Text} (h : st ≠ []) :
    render st = st.flatMap (fun s => slash :: s) := if_neg h

theorem render_concat (st : List Text) (s : Text) :
    render (st ++ [s]) = st.flatMap (fun s => slash :: s) ++ slash :: s := by
  rw [render_of_ne (by simp), List.flatMap_append]
  simp

theorem flatMap_slash_eq_nil {st : List Text} :
    st.flatMap (fun s => slash :: s) = [] ↔ st = [] := by
  cases st with
  | nil => simp
  | cons s st => simp

theorem one_lt_length_render {st : List Text} (h : ∀ s ∈ st, s ≠ []) :
    1 < (render st).length ↔ st ≠ [] := by
  cases st with
  | nil => simp [render]
  | cons s st =>
      have hs : 0 < s.length := List.length_pos_of_ne_nil (h s (List.mem_cons_self ..))
      rw [render_of_ne (by simp)]
      simp only [List.flatMap_cons, List.length_append, List.length_cons, ne_eq,
        reduceCtorEq, not_false_eq_true, iff_true]
      omega

/-- `..` removes the last component. -/
theorem popOut_render {st : List Text} (h : ∀ s ∈ st, slash ∉ s) :
    popOut (render st) = render st.dropLast := by
  rcases List.eq_nil_or_concat st with rfl | ⟨st, s, rfl⟩
  · decide
  · have hs : slash ∉ s := h s (by simp)
    have hdrop : ((st.flatMap (fun s => slash :: s) ++ slash :: s).reverse.dropWhile
        (fun c => c ≠ slash)).reverse = st.flatMap (fun s => slash :: s) ++ [slash] := by
      rw [List.reverse_append, List.reverse_cons, List.append_assoc,
        List.dropWhile_append_of_pos]
      · simp
      · intro c hc
        simp only [ne_eq, decide_eq_true_eq]
        rintro rfl
        exact hs (List.mem_reverse.mp hc)
    rw [List.concat_eq_append, render_concat, List.dropLast_concat, popOut, hdrop]
    by_cases hnil : st = []
    · rw [hnil]
      rfl
    · have hne : st.flatMap (fun s => slash :: s) ≠ [] :=
        fun h0 => hnil (flatMap_slash_eq_nil.mp h0)
      have hpos := List.length_pos_of_ne_nil hne
      simp only [List.length_append, List.length_singleton]
      rw [if_pos (by omega), List.dropLast_concat, render_of_ne hnil]

/-- Pushing a component either fails or appends it to the stack. -/
theorem pushOut_render {cap : Nat} {st : List Text} {seg out : Text} (h : ∀ s ∈ st, s ≠ [])
    (hp : pushOut cap (render st) seg = some out) : out = render (st ++ [seg]) := by
  unfold pushOut at hp
  rw [render_concat]
  by_cases hnil : st = []
  · subst hnil
    rw [if_neg (by decide)] at hp
    split at hp
    · cases hp
    · cases hp
      rfl
  · rw [if_pos ((one_lt_length_render h).mpr hnil)] at hp
    split at hp
    · cases hp
    · split at hp
      · cases hp
      · cases hp
        rw [render_of_ne hnil]

theorem normalizeStep_render {cap : Nat} {st : List Text} {seg out : Text}
    (h : ∀ s ∈ st, IsName s) (hp : normalizeStep cap (render st) seg = some out) :
    out = render (stepStack st seg) := by
  unfold normalizeStep at hp
  unfold stepStack
  by_cases hdot : seg = [dot]
  · rw [if_pos hdot] at hp ⊢
    cases hp
    rfl
  · rw [if_neg hdot] at hp ⊢
    by_cases hdd : seg = dotdot
    · rw [if_pos hdd] at hp ⊢
      cases hp
      exact popOut_render (fun s hs => (h s hs).slash_not_mem)
    · rw [if_neg hdd] at hp ⊢
      exact pushOut_render (fun s hs => (h s hs).1) hp

theorem foldlM_normalizeStep {cap : Nat} {segs : List Text} :
    ∀ {st : List Text} {out : Text}, (∀ s ∈ st, IsName s) → (∀ s ∈ segs, IsName s) →
      segs.foldlM (normalizeStep cap) (render st) = some out → out = render (walk st segs) := by
  induction segs with
  | nil =>
      intro st out _ _ h
      cases h
      rfl
  | cons seg segs ih =>
      intro st out hst hsegs h
      rw [List.foldlM_cons] at h
      obtain ⟨mid, hmid, hrest⟩ := Option.bind_eq_some_iff.mp h
      have hmid' := normalizeStep_render hst hmid
      subst hmid'
      refine ih (fun s hs => ?_) (fun s hs => hsegs s (List.mem_cons_of_mem _ hs)) hrest
      rcases @mem_walk [seg] _ _ hs with h | h
      · exact hst s h
      · exact hsegs s (List.mem_singleton.mp h ▸ List.mem_cons_self ..)

/-! ## Lengths -/

/-- The bytes that a stack takes: each component and the slash before it. -/
def size (st : List Text) : Nat := (st.map (fun s => s.length + 1)).sum

theorem size_append (a b : List Text) : size (a ++ b) = size a + size b := by
  simp [size]

theorem length_render {st : List Text} (h : st ≠ []) : (render st).length = size st := by
  rw [render_of_ne h, size, List.length_flatMap]
  simp

theorem size_stepStack (st : List Text) (seg : Text) :
    size (stepStack st seg) ≤ size st + (seg.length + 1) := by
  unfold stepStack
  split
  · omega
  · split
    · rcases List.eq_nil_or_concat st with rfl | ⟨st, s, rfl⟩
      · simp [size]
      · rw [List.concat_eq_append, List.dropLast_concat, size_append]
        omega
    · rw [size_append]
      simp [size]

/-- Nothing is given up while the components fit in the buffer. -/
theorem normalizeStep_isSome {cap : Nat} {st : List Text} {seg : Text}
    (hfit : size st + (seg.length + 1) < cap) :
    ∃ out, normalizeStep cap (render st) seg = some out := by
  unfold normalizeStep
  split
  · exact ⟨_, rfl⟩
  · split
    · exact ⟨_, rfl⟩
    · unfold pushOut
      by_cases hnil : st = []
      · subst hnil
        have hlen : (render []).length = 1 := rfl
        rw [if_neg (by omega), if_neg (by omega)]
        exact ⟨_, rfl⟩
      · have hlen := length_render hnil
        split
        · rw [if_neg (by omega), if_neg (by omega)]
          exact ⟨_, rfl⟩
        · rw [if_neg (by omega)]
          exact ⟨_, rfl⟩

theorem foldlM_isSome {cap : Nat} {segs : List Text} :
    ∀ {st : List Text}, (∀ s ∈ st, IsName s) → (∀ s ∈ segs, IsName s) →
      size st + size segs < cap →
      segs.foldlM (normalizeStep cap) (render st) = some (render (walk st segs)) := by
  induction segs with
  | nil =>
      intro st _ _ _
      rfl
  | cons seg segs ih =>
      intro st hst hsegs hfit
      have hcons : size (seg :: segs) = seg.length + 1 + size segs := by simp [size]
      obtain ⟨mid, hmid⟩ := @normalizeStep_isSome cap st seg (by omega)
      have hmid' := normalizeStep_render hst hmid
      subst hmid'
      rw [List.foldlM_cons, hmid]
      refine ih (fun s hs => ?_) (fun s hs => hsegs s (List.mem_cons_of_mem _ hs)) ?_
      · rcases @mem_walk [seg] _ _ hs with h | h
        · exact hst s h
        · exact hsegs s (List.mem_singleton.mp h ▸ List.mem_cons_self ..)
      · have := size_stepStack st seg
        omega

theorem size_segAux (cur t : Text) : size (segAux cur t) ≤ cur.length + t.length + 1 := by
  induction t generalizing cur with
  | nil =>
      unfold segAux
      split
      · simp [size]
      · simp [size]
  | cons c t ih =>
      unfold segAux
      have h₀ := ih []
      have h₁ := ih (cur ++ [c])
      simp only [List.length_nil, List.length_append, List.length_cons] at h₀ h₁ ⊢
      split
      · split
        · omega
        · have : size (cur :: segAux [] t) = cur.length + 1 + size (segAux [] t) := by
            simp [size]
          omega
      · omega

theorem size_segments_sep {c : UInt8} (hc : isSep c = true) (t : Text) :
    size (segments (c :: t)) ≤ t.length + 1 := by
  have h := size_segAux [] t
  rw [segments_sep_cons t hc]
  rw [List.length_nil, Nat.zero_add] at h
  exact h

/-! ## The normalized path -/

/-- When the path fits, the result is its rendered stack. -/
theorem normalize_eq_render {cwd path : Text} (h : vfsNormalizePath cwd path ≠ []) :
    vfsNormalizePath cwd path = render (walk [] (segments (combinedPath cwd path))) := by
  unfold vfsNormalizePath at h ⊢
  cases hf : (segments (combinedPath cwd path)).foldlM (normalizeStep vfsPathMax) [slash] with
  | none =>
      rw [hf] at h
      exact absurd rfl h
  | some out => exact foldlM_normalizeStep (by simp) (segments_isName _) hf

/-- A text of fewer than `VFS_PATH_MAX` bytes that starts with a separator fits. -/
theorem normalize_of_short {cwd path t : Text} {c : UInt8} (hc : isSep c = true)
    (h : combinedPath cwd path = c :: t) (hlen : t.length + 1 < vfsPathMax) :
    vfsNormalizePath cwd path = render (walk [] (segments (c :: t))) := by
  have hsize := size_segments_sep hc t
  unfold vfsNormalizePath
  rw [h]
  have := @foldlM_isSome vfsPathMax (segments (c :: t)) [] (by simp)
    (segments_isName _) (by
      have h0 : size [] = 0 := rfl
      omega)
  rw [show ([slash] : Text) = render [] from rfl, this]
  rfl

/-- A path that fits has a prefix that fits. -/
theorem normalize_prefix {cwd path a b : Text} {c : UInt8} (hc : isSep c = true)
    (h : vfsNormalizePath cwd path ≠ [])
    (hcomb : combinedPath cwd path = a ++ c :: b) {p : Text} (ha : combinedPath cwd p = a) :
    vfsNormalizePath cwd p = render (walk [] (segments a)) := by
  unfold vfsNormalizePath at h ⊢
  rw [hcomb, segments_append a b hc, List.foldlM_append] at h
  rw [ha]
  cases hf : (segments a).foldlM (normalizeStep vfsPathMax) [slash] with
  | none =>
      rw [hf] at h
      exact absurd rfl h
  | some out => exact foldlM_normalizeStep (by simp) (segments_isName _) hf

/-- The path `p` is `root` or lies below it. -/
def Below (root p : Text) : Prop :=
  p = root ∨ (root ++ [slash]) <+: p ∨ root = [slash] ∧ [slash] <+: p

theorem below_render_append (st st' : List Text) : Below (render st) (render (st ++ st')) := by
  by_cases hst : st = []
  · refine Or.inr (Or.inr ⟨by rw [hst]; rfl, ?_⟩)
    rw [hst, List.nil_append]
    cases st' with
    | nil => exact List.prefix_rfl
    | cons s st' =>
        rw [render_of_ne (by simp)]
        exact ⟨s ++ st'.flatMap (fun s => slash :: s), by simp⟩
  · by_cases hst' : st' = []
    · exact Or.inl (by rw [hst', List.append_nil])
    · refine Or.inr (Or.inl ?_)
      obtain ⟨s, rest, rfl⟩ := List.exists_cons_of_ne_nil hst'
      rw [render_of_ne hst, render_of_ne (by simp)]
      exact ⟨s ++ rest.flatMap (fun s => slash :: s), by simp⟩

/-- The first component of an absolute path text. -/
def firstName (p : Text) : Text := p.tail.takeWhile (fun c => c ≠ slash)

theorem firstName_append {x rest : Text} (hx : slash ∉ x) (hrest : rest.head? ∈ [none, some slash]) :
    firstName (slash :: (x ++ rest)) = x := by
  have hall : ∀ c ∈ x, (decide (c ≠ slash)) = true := by
    intro c hc
    simp only [ne_eq, decide_eq_true_eq]
    rintro rfl
    exact hx hc
  show (x ++ rest).takeWhile (fun c => c ≠ slash) = x
  rw [List.takeWhile_append_of_pos hall]
  cases rest with
  | nil => simp
  | cons r rest =>
      have : r = slash := by simpa using hrest
      simp [this]

/-- A path below a one-component root starts with that component. -/
theorem head_of_below {x : Text} (hx : IsName x) {st : List Text} (hst : ∀ s ∈ st, IsName s)
    (h : Below (render [x]) (render st)) : st.head? = some x := by
  have hroot : render [x] = slash :: x := by simp [render]
  rw [hroot] at h
  have hxs := hx.slash_not_mem
  cases st with
  | nil =>
      have hnil : render [] = [slash] := rfl
      rw [hnil] at h
      rcases h with h | ⟨z, h⟩ | ⟨h, -⟩
      · simp at h
        exact absurd h hx.1
      · simp at h
      · simp at h
        exact absurd h hx.1
  | cons s st =>
      have hs := (hst s (List.mem_cons_self ..)).slash_not_mem
      have hr : render (s :: st) = slash :: (s ++ st.flatMap (fun s => slash :: s)) := by
        rw [render_of_ne (by simp)]
        simp
      have hfirst : firstName (render (s :: st)) = s := by
        rw [hr]
        refine firstName_append hs ?_
        cases st with
        | nil => simp
        | cons s' st => simp
      have hxfirst : firstName (render (s :: st)) = x := by
        rcases h with h | ⟨z, h⟩ | ⟨h, -⟩
        · rw [h]
          have := @firstName_append _ [] hxs (by simp)
          rwa [List.append_nil] at this
        · rw [← h]
          have := @firstName_append _ (slash :: z) hxs (by simp)
          simpa using this
        · simp at h
          exact absurd h hx.1
      rw [← hxfirst, hfirst]
      rfl

end Guppy.Vfs
