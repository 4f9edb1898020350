import Guppy.Archive.TarRound

set_option autoImplicit false

/-! # Which names the tar writer takes

A ustar header has room for a name of 100 bytes and a prefix of 155. `name_fields` takes a path
when it is relative, has no backslash and fits, and it looks for dot components with two searches and
two comparisons. The searches are not for components: they see a name that ends with two dots, and
they miss a dot component at the start or the end. A path that is too long for the name is split at
the last slash that will do, also when nothing is behind it.
-/

namespace Guppy.Archive

open Vfs Digits

/-! ## Legal paths -/

/-- `c` is a component: slashes or the ends of the path are around it. -/
def Component (path c : Text) : Prop :=
  ∃ a b, path = a ++ (c ++ b) ∧ (a = [] ∨ a.getLast? = some slash) ∧ (b = [] ∨ b.head? = some slash)

/-- The path has a place in a ustar header. -/
def UstarForm (path : Text) : Prop :=
  path.length ≤ 100 ∨
    ∃ pre name, path = pre ++ slash :: name ∧ pre.length ≤ 155 ∧ name ≠ [] ∧ name.length ≤ 100

/-- A path that is not empty, relative and without a backslash. -/
structure Relative (path : Text) : Prop where
  nonempty : path ≠ []
  not_absolute : path.head? ≠ some slash
  no_backslash : backslash ∉ path

/-- A path that an archive may have. -/
structure Legal (path : Text) : Prop where
  relative : Relative path
  no_dot : ¬ Component path [dot]
  no_dotdot : ¬ Component path dotdot
  form : UstarForm path

/-! ## Where the code differs -/

/-- A component, not the last, that is longer than two dots and ends with them. -/
def Lookalike (path : Text) : Prop := ∃ a c b, path = a ++ c :: dot :: dot :: slash :: b ∧ c ≠ slash

/-- A dot component at the start or the end, behind or before others. -/
def DotAtEnds (path : Text) : Prop :=
  [dot, slash] <+: path ∨ [slash, dot] <:+ path ∨ [slash, dot, dot] <:+ path

/-- The slash at the end is the last one that will do for the split. -/
def SlashAtEnd (path : Text) : Prop := 100 < path.length ∧ path.length ≤ 156 ∧ path.getLast? = some slash

/-- The searches for dot components find nothing. -/
def NothingFound (path : Text) : Prop := ¬ [dot, dot, slash] <:+: path ∧ ¬ [slash, dot, slash] <:+: path

/-- The writer takes the path if it is legal, and only then. -/
structure AsMeant (path : Text) : Prop where
  /-- No legal path is refused. -/
  legal_taken : Legal path → ¬ Lookalike path ∧ ¬ SlashAtEnd path
  /-- No other path is taken. -/
  illegal_refused : DotAtEnds path → Relative path → NothingFound path → UstarForm path → SlashAtEnd path

/-! ## Components -/

theorem component_iff {path c : Text} : Component path c ↔
    path = c ∨ c ++ [slash] <+: path ∨ slash :: c <:+ path ∨ slash :: (c ++ [slash]) <:+: path := by
  constructor
  · rintro ⟨a, b, rfl, ha, hb⟩
    rcases ha with rfl | ha
    · rcases hb with rfl | hb
      · left
        rw [List.nil_append, List.append_nil]
      · obtain ⟨t, rfl⟩ := List.head?_eq_some_iff.mp hb
        right; left
        exact ⟨t, by simp⟩
    · obtain ⟨s, rfl⟩ := List.getLast?_eq_some_iff.mp ha
      rcases hb with rfl | hb
      · right; right; left
        exact ⟨s, by simp⟩
      · obtain ⟨t, rfl⟩ := List.head?_eq_some_iff.mp hb
        right; right; right
        exact ⟨s, t, by simp⟩
  · rintro (rfl | ⟨t, rfl⟩ | ⟨s, rfl⟩ | ⟨s, t, rfl⟩)
    · exact ⟨[], [], by simp, Or.inl rfl, Or.inl rfl⟩
    · exact ⟨[], slash :: t, by simp, Or.inl rfl, Or.inr rfl⟩
    · exact ⟨s ++ [slash], [], by simp, Or.inr (by simp), Or.inl rfl⟩
    · exact ⟨s ++ [slash], slash :: t, by simp, Or.inr (by simp), Or.inr rfl⟩

/-- Two dots before a slash: at the start, behind a slash, or at the end of a longer name. -/
theorem dotdotSlash_iff {path : Text} : [dot, dot, slash] <:+: path ↔
    [dot, dot, slash] <+: path ∨ Lookalike path ∨ [slash, dot, dot, slash] <:+: path := by
  constructor
  · rintro ⟨a, b, rfl⟩
    rcases List.eq_nil_or_concat a with rfl | ⟨a, c, rfl⟩
    · left
      exact ⟨b, by simp⟩
    · by_cases hc : c = slash
      · subst hc
        right; right
        exact ⟨a, b, by simp⟩
      · right; left
        exact ⟨a, c, b, by simp, hc⟩
  · rintro (h | ⟨a, c, b, rfl, -⟩ | ⟨a, b, rfl⟩)
    · exact h.isInfix
    · exact ⟨a ++ [c], b, by simp⟩
    · exact ⟨a ++ [slash], b, by simp⟩

/-- A legal path in which the searches find something has a name that ends with two dots. -/
theorem nothingFound_of_legal {path : Text} (hdot : ¬ Component path [dot]) (hdotdot : ¬ Component path dotdot) :
    NothingFound path ↔ ¬ Lookalike path := by
  rw [component_iff] at hdot hdotdot
  unfold NothingFound
  rw [dotdotSlash_iff]
  constructor
  · rintro ⟨h, -⟩ hlook
    exact h (Or.inr (Or.inl hlook))
  · intro hlook
    constructor
    · rintro (h | h | h)
      · exact hdotdot (Or.inr (Or.inl h))
      · exact hlook h
      · exact hdotdot (Or.inr (Or.inr (Or.inr h)))
    · exact fun h => hdot (Or.inr (Or.inr (Or.inr h)))

/-- Where the searches find nothing, a dot component is at one of the ends. -/
theorem component_of_nothingFound {path : Text} (h : NothingFound path) (h₁ : path ≠ [dot]) (h₂ : path ≠ dotdot) :
    (Component path [dot] ∨ Component path dotdot) ↔ DotAtEnds path := by
  obtain ⟨hdd, hd⟩ := h
  rw [dotdotSlash_iff] at hdd
  rw [component_iff, component_iff]
  unfold DotAtEnds
  constructor
  · rintro ((h | h | h | h) | (h | h | h | h))
    · exact absurd h h₁
    · exact Or.inl h
    · exact Or.inr (Or.inl h)
    · exact absurd h hd
    · exact absurd h h₂
    · exact absurd (Or.inl h) hdd
    · exact Or.inr (Or.inr h)
    · exact absurd (Or.inr (Or.inr h)) hdd
  · rintro (h | h | h)
    · exact Or.inl (Or.inr (Or.inl h))
    · exact Or.inl (Or.inr (Or.inr (Or.inl h)))
    · exact Or.inr (Or.inr (Or.inr (Or.inl h)))

/-! ## The split -/

/-- The slash at `i` splits the path into parts that fit. -/
def Splits (path : Text) (i : Nat) : Prop := path.getD i 0 = slash ∧ i ≤ 155 ∧ path.length - i - 1 ≤ 100

instance (path : Text) (i : Nat) : Decidable (Splits path i) := inferInstanceAs (Decidable (_ ∧ _))

/-- The last number with a property. -/
theorem foldl_last {P : Nat → Prop} [DecidablePred P] (n : Nat) :
    match (List.range n).foldl (fun found i => if P i then some i else found) none with
    | none => ∀ i, i < n → ¬ P i
    | some i => i < n ∧ P i ∧ ∀ j, i < j → j < n → ¬ P j := by
  induction n with
  | zero => exact fun i hi => absurd hi (Nat.not_lt_zero i)
  | succ n ih =>
      rw [List.range_succ, List.foldl_append, List.foldl_cons, List.foldl_nil]
      by_cases hn : P n
      · rw [if_pos hn]
        exact ⟨Nat.lt_succ_self n, hn, fun j h₁ h₂ => by omega⟩
      · rw [if_neg hn]
        cases hfold : (List.range n).foldl (fun found i => if P i then some i else found) none with
        | none =>
            rw [hfold] at ih
            intro i hi
            rcases Nat.lt_succ_iff_lt_or_eq.mp hi with hi | rfl
            · exact ih i hi
            · exact hn
        | some i =>
            rw [hfold] at ih
            obtain ⟨hi, hp, hlast⟩ := ih
            refine ⟨Nat.lt_succ_of_lt hi, hp, fun j hij hj => ?_⟩
            rcases Nat.lt_succ_iff_lt_or_eq.mp hj with hj | rfl
            · exact hlast j hij hj
            · exact hn

theorem splits_iff {path : Text} {i : Nat} (hi : i < path.length) :
    Splits path i ↔ path = path.take i ++ slash :: path.drop (i + 1) ∧ i ≤ 155 ∧ path.length - i - 1 ≤ 100 := by
  unfold Splits
  rw [List.getD_eq_getElem _ _ hi]
  constructor
  · rintro ⟨hslash, hfit⟩
    refine ⟨?_, hfit⟩
    conv => lhs; rw [← List.take_append_drop i path, List.drop_eq_getElem_cons hi, hslash]
  · rintro ⟨hpath, hfit⟩
    refine ⟨?_, hfit⟩
    have hget : path[i]? = some slash := by
      rw [hpath, List.getElem?_append_right (by rw [List.length_take]; omega), List.length_take, Nat.min_eq_left hi.le,
        Nat.sub_self]
      rfl
    rw [List.getElem?_eq_getElem hi] at hget
    exact Option.some.inj hget

/-- A long path has a form when some slash before its last byte splits it. -/
theorem ustarForm_iff {path : Text} (hlong : 100 < path.length) :
    UstarForm path ↔ ∃ i, i + 1 < path.length ∧ Splits path i := by
  constructor
  · rintro (h | ⟨pre, name, rfl, hpre, hne, hname⟩)
    · omega
    · have hpos : 0 < name.length := List.length_pos_iff.mpr hne
      refine ⟨pre.length, by rw [List.length_append, List.length_cons]; omega, ?_⟩
      rw [splits_iff (by rw [List.length_append, List.length_cons]; omega), List.length_append, List.length_cons]
      refine ⟨?_, hpre, by omega⟩
      rw [List.take_left' rfl, ← List.drop_drop, List.drop_left' rfl]
      rfl
  · rintro ⟨i, hi, hsplit⟩
    obtain ⟨hpath, h155, h100⟩ := (splits_iff (by omega)).mp hsplit
    right
    refine ⟨path.take i, path.drop (i + 1), hpath, ?_, ?_, ?_⟩
    · rw [List.length_take]
      omega
    · rw [Ne, List.drop_eq_nil_iff]
      omega
    · rw [List.length_drop]
      omega

/-- The last byte of a long path is a slash that splits it. -/
theorem slashAtEnd_iff {path : Text} (hlong : 100 < path.length) : SlashAtEnd path ↔ Splits path (path.length - 1) := by
  have hne : path ≠ [] := by
    rintro rfl
    simp at hlong
  unfold SlashAtEnd Splits
  rw [List.getD_eq_getElem _ _ (by omega), List.getLast?_eq_some_getLast hne, List.getLast_eq_getElem hne, Option.some.injEq]
  constructor
  · rintro ⟨-, hlen, hslash⟩
    exact ⟨hslash, by omega, by omega⟩
  · rintro ⟨hslash, hlen, -⟩
    exact ⟨hlong, by omega, hslash⟩

/-- A long relative path is split exactly when it has a form and the slash at its end does not get
in the way. -/
theorem split_isSome_iff {path : Text} (hlong : 100 < path.length) (hhead : path.head? ≠ some slash) :
    (∃ i, splitSlash path = some i ∧ ¬ (i = 0 ∨ path.length ≤ i + 1)) ↔ UstarForm path ∧ ¬ SlashAtEnd path := by
  have hlast := @foldl_last (Splits path) _ path.length
  have hsplit : splitSlash path =
      (List.range path.length).foldl (fun found i => if Splits path i then some i else found) none := rfl
  rw [← hsplit] at hlast
  rw [ustarForm_iff hlong, slashAtEnd_iff hlong]
  constructor
  · rintro ⟨i, hi, hends⟩
    rw [hi] at hlast
    obtain ⟨hlt, hp, hmax⟩ := hlast
    exact ⟨⟨i, by omega, hp⟩, hmax (path.length - 1) (by omega) (by omega)⟩
  · rintro ⟨⟨j, hj, hpj⟩, hend⟩
    cases hfound : splitSlash path with
    | none =>
        rw [hfound] at hlast
        exact absurd hpj (hlast j (by omega))
    | some i =>
        rw [hfound] at hlast
        obtain ⟨hlt, hp, -⟩ := hlast
        refine ⟨i, rfl, ?_⟩
        rintro (rfl | hle)
        · -- the path would be absolute
          apply hhead
          have hslash := hp.1
          rw [List.getD_eq_getElem _ _ hlt] at hslash
          rw [List.head?_eq_getElem?, List.getElem?_eq_getElem hlt, hslash]
        · rw [show i = path.length - 1 by omega] at hp
          exact hend hp

/-! ## Which paths are taken -/

theorem not_slashAtEnd_of_short {path : Text} (h : path.length ≤ 100) : ¬ SlashAtEnd path := by
  rintro ⟨hlong, -⟩
  omega

/-- What `name_fields` takes. -/
theorem nameFields_isSome_iff (path : Text) : (nameFields path).isSome = true ↔
    Relative path ∧ NothingFound path ∧ path ≠ [dot] ∧ path ≠ dotdot ∧ UstarForm path ∧ ¬ SlashAtEnd path := by
  unfold nameFields
  by_cases hrel : path = [] ∨ path.head? = some slash ∨ backslash ∈ path
  · rw [if_pos hrel]
    refine iff_of_false Bool.false_ne_true ?_
    rintro ⟨hr, -⟩
    rcases hrel with h | h | h
    · exact hr.nonempty h
    · exact hr.not_absolute h
    · exact hr.no_backslash h
  rw [if_neg hrel]
  have hr : Relative path := ⟨fun h => hrel (Or.inl h), fun h => hrel (Or.inr (Or.inl h)), fun h => hrel (Or.inr (Or.inr h))⟩
  by_cases hdots : [dot, dot, slash] <:+: path ∨ path = dotdot ∨ [slash, dot, slash] <:+: path ∨ path = [dot]
  · rw [if_pos hdots]
    refine iff_of_false Bool.false_ne_true ?_
    rintro ⟨-, hfound, h₁, h₂, -⟩
    rcases hdots with h | h | h | h
    · exact hfound.1 h
    · exact h₂ h
    · exact hfound.2 h
    · exact h₁ h
  rw [if_neg hdots]
  have hfound : NothingFound path := ⟨fun h => hdots (Or.inl h), fun h => hdots (Or.inr (Or.inr (Or.inl h)))⟩
  have h₁ : path ≠ [dot] := fun h => hdots (Or.inr (Or.inr (Or.inr h)))
  have h₂ : path ≠ dotdot := fun h => hdots (Or.inr (Or.inl h))
  by_cases hlen : path.length ≤ 100
  · rw [if_pos hlen]
    exact iff_of_true rfl ⟨hr, hfound, h₁, h₂, Or.inl hlen, not_slashAtEnd_of_short hlen⟩
  · rw [if_neg hlen]
    have hsplit := split_isSome_iff (by omega) hr.not_absolute
    constructor
    · intro hsome
      refine ⟨hr, hfound, h₁, h₂, hsplit.mp ?_⟩
      cases hi : splitSlash path with
      | none =>
          rw [hi] at hsome
          cases hsome
      | some i =>
          rw [hi] at hsome
          dsimp only [] at hsome
          split at hsome
          · cases hsome
          · rename_i hends
            exact ⟨i, rfl, hends⟩
    · rintro ⟨-, -, -, -, hform⟩
      obtain ⟨i, hi, hends⟩ := hsplit.mpr hform
      rw [hi]
      dsimp only []
      rw [if_neg hends]
      rfl

/-- `name_fields` takes the legal paths and no others, exactly when the path is none of those that
the searches or the split get wrong. -/
theorem nameFields_legal_iff (path : Text) : ((nameFields path).isSome = true ↔ Legal path) ↔ AsMeant path := by
  rw [nameFields_isSome_iff]
  constructor
  · intro heq
    constructor
    · intro hlegal
      obtain ⟨-, hfound, -, -, -, hend⟩ := heq.mpr hlegal
      exact ⟨(nothingFound_of_legal hlegal.no_dot hlegal.no_dotdot).mp hfound, hend⟩
    · intro hdots hrel hfound hform
      by_contra hend
      have h₁ : path ≠ [dot] := by
        rintro rfl
        exact absurd hdots (by unfold DotAtEnds; decide)
      have h₂ : path ≠ dotdot := by
        rintro rfl
        exact absurd hdots (by unfold DotAtEnds; decide)
      have hlegal := heq.mp ⟨hrel, hfound, h₁, h₂, hform, hend⟩
      rcases (component_of_nothingFound hfound h₁ h₂).mpr hdots with h | h
      · exact hlegal.no_dot h
      · exact hlegal.no_dotdot h
  · intro hmeant
    constructor
    · rintro ⟨hrel, hfound, h₁, h₂, hform, hend⟩
      have hdots : ¬ DotAtEnds path := fun hdots => hend (hmeant.illegal_refused hdots hrel hfound hform)
      rw [← component_of_nothingFound hfound h₁ h₂] at hdots
      exact ⟨hrel, fun h => hdots (Or.inl h), fun h => hdots (Or.inr h), hform⟩
    · intro hlegal
      obtain ⟨hlook, hend⟩ := hmeant.legal_taken hlegal
      refine ⟨hlegal.relative, (nothingFound_of_legal hlegal.no_dot hlegal.no_dotdot).mpr hlook, ?_, ?_, hlegal.form, hend⟩
      · rintro rfl
        exact hlegal.no_dot (component_iff.mpr (Or.inl rfl))
      · rintro rfl
        exact hlegal.no_dotdot (component_iff.mpr (Or.inl rfl))

/-! ## The writers -/

theorem oct_of_lt {width v : Nat} (h : v < 8 ^ (width - 1)) : oct width v = some (fixed 8 (width - 1) v ++ [0]) := by
  unfold oct
  rw [if_neg (not_not.mpr (Nat.div_eq_of_lt h))]

theorem sum_toNat_le (t : List UInt8) : (t.map UInt8.toNat).sum ≤ 255 * t.length := by
  induction t with
  | nil => exact le_rfl
  | cons c t ih =>
      have hc : c.toNat < 256 := c.toNat_lt
      rw [List.map_cons, List.sum_cons, List.length_cons]
      omega

/-- The other fields of a header always have room, the size up to eleven octal digits. -/
theorem header_iff {path : Text} {size mode : Nat} {type : UInt8} :
    (∃ h, header path size mode type = some h ∧ h.length = 512) ↔ (nameFields path).isSome = true ∧ size < 8 ^ 11 := by
  unfold header
  simp only [Option.bind_eq_bind]
  constructor
  · rintro ⟨h, hh, -⟩
    simp only [Option.bind_eq_some_iff] at hh
    obtain ⟨names, hnames, modeField, -, sizeField, hsize, -⟩ := hh
    exact ⟨by rw [hnames]; rfl, (oct_eq_some hsize).1⟩
  · rintro ⟨hnames, hsize⟩
    obtain ⟨⟨name, pre⟩, hnames⟩ := Option.isSome_iff_exists.mp hnames
    obtain ⟨-, h100, h155, -⟩ := nameFields_eq_some hnames
    have hmode : mode % 4096 < 8 ^ (8 - 1) := lt_of_lt_of_le (Nat.mod_lt _ (by decide)) (by decide)
    have hlen : ∀ chksum : List UInt8, chksum.length = 8 → (headerBlock name pre (fixed 8 (8 - 1) (mode % 4096) ++ [0])
        (fixed 8 (12 - 1) size ++ [0]) type chksum).length = 512 := by
      intro chksum hchk
      refine length_headerBlock h100 ?_ ?_ hchk h155
      · rw [List.length_append, length_fixed]
        rfl
      · rw [List.length_append, length_fixed]
        rfl
    rw [hnames, Option.bind_some, oct_of_lt hmode, Option.bind_some, oct_of_lt hsize, Option.bind_some]
    -- 512 bytes of at most 255
    have hsum := sum_toNat_le (headerBlock name pre (fixed 8 (8 - 1) (mode % 4096) ++ [0])
      (fixed 8 (12 - 1) size ++ [0]) type (List.replicate 8 32))
    rw [hlen _ (List.length_replicate ..)] at hsum
    rw [oct_of_lt (lt_of_le_of_lt hsum (by decide)), Option.bind_some]
    refine ⟨_, rfl, hlen _ ?_⟩
    rw [List.length_append, List.length_append, length_fixed]
    rfl

/-- With a source and room enough a file is written when its path is taken. -/
theorem guTarWriteFile_isSome_iff {out src : List UInt8} {path : Text} {size mode : Nat} (hsrc : size ≤ src.length)
    (hsize : size < 8 ^ 11) (hroom : out.length + 512 + roundUp size ≤ longMax) :
    (guTarWriteFile out path src size mode).isSome = true ↔ (nameFields path).isSome = true := by
  unfold roundUp at hroom
  unfold guTarWriteFile
  simp only [Option.bind_eq_bind]
  constructor
  · intro h
    cases hnames : nameFields path with
    | none =>
        unfold header at h
        rw [hnames] at h
        cases h
    | some names => rfl
  · intro h
    obtain ⟨block, hblock, hlen⟩ := (@header_iff path size mode 48).mpr ⟨h, hsize⟩
    have htake : (src.take size).length = size := by
      rw [List.length_take]
      omega
    have hcopy : copyLoop src 0 size (out ++ block) = some (out ++ block ++ src.take size) := by
      refine (copyLoop_eq_some size).mpr ⟨Or.inr ⟨by omega, ?_⟩, by rw [List.drop_zero]⟩
      rw [List.length_append, hlen]
      omega
    rw [hblock, Option.bind_some, fwrite_eq_some.mpr ⟨by omega, rfl⟩, Option.bind_some, hcopy, Option.bind_some]
    refine Option.isSome_iff_exists.mpr ⟨_, fwrite_eq_some.mpr ⟨?_, rfl⟩⟩
    rw [List.length_append, List.length_append, List.length_replicate, hlen, htake, show tarBlockSize = 512 from rfl]
    omega

theorem guTarWriteDir_isSome_iff {out : List UInt8} {path : Text} {mode : Nat} (hroom : out.length + 512 ≤ longMax) :
    (guTarWriteDir out path mode).isSome = true ↔ path.length < 255 ∧ (nameFields (dirName path)).isSome = true := by
  have hempty : path.length = 0 → (nameFields (dirName path)).isSome = false := by
    intro h
    rw [List.length_eq_zero_iff.mp h]
    decide
  unfold guTarWriteDir
  simp only [Option.bind_eq_bind]
  by_cases hlen : path.length = 0 ∨ 255 ≤ path.length
  · rw [if_pos hlen]
    refine iff_of_false Bool.false_ne_true ?_
    rintro ⟨hshort, hnames⟩
    rcases hlen with h | h
    · rw [hempty h] at hnames
      cases hnames
    · omega
  · rw [if_neg hlen]
    constructor
    · intro h
      refine ⟨by omega, ?_⟩
      cases hnames : nameFields (dirName path) with
      | none =>
          unfold header at h
          rw [hnames] at h
          cases h
      | some names => rfl
    · rintro ⟨-, hnames⟩
      obtain ⟨block, hblock, hblen⟩ := (@header_iff (dirName path) 0 mode 53).mpr ⟨hnames, by decide⟩
      rw [hblock, Option.bind_some]
      exact Option.isSome_iff_exists.mpr ⟨_, fwrite_eq_some.mpr ⟨by omega, rfl⟩⟩

/-- For a directory the buffer for the name counts too. -/
def DirAsMeant (path : Text) : Prop := if path.length < 255 then AsMeant (dirName path) else ¬ Legal (dirName path)

/-- The writers take the legal paths and no others, exactly for the paths that none of the slips of
`name_fields` meets, and for directories when the buffer does not refuse a legal one. -/
theorem guTarWrite_legal_iff {out src : List UInt8} {path : Text} {size mode : Nat} (hsrc : size ≤ src.length)
    (hsize : size < 8 ^ 11) (hroom : out.length + 512 + roundUp size ≤ longMax) :
    (((guTarWriteFile out path src size mode).isSome = true ↔ Legal path) ↔ AsMeant path) ∧
      (((guTarWriteDir out path mode).isSome = true ↔ Legal (dirName path)) ↔ DirAsMeant path) := by
  constructor
  · rw [guTarWriteFile_isSome_iff hsrc hsize hroom]
    exact nameFields_legal_iff path
  · unfold roundUp at hroom
    rw [guTarWriteDir_isSome_iff (by omega)]
    unfold DirAsMeant
    by_cases hlen : path.length < 255
    · rw [if_pos hlen, ← nameFields_legal_iff]
      simp only [hlen, true_and]
    · rw [if_neg hlen]
      simp only [hlen, false_and, false_iff]

/-- A file `a/b` of two bytes, and a directory of that name. -/
theorem guTarWrite_legal_iff_plain :
    (((guTarWriteFile [] [97, slash, 98] [1, 2] 2 420).isSome = true ↔ Legal [97, slash, 98]) ↔
      AsMeant [97, slash, 98]) ∧
    (((guTarWriteDir [] [97, slash, 98] 420).isSome = true ↔ Legal (dirName [97, slash, 98])) ↔
      DirAsMeant [97, slash, 98]) :=
  guTarWrite_legal_iff (by decide) (by decide) (by decide)

instance (path c : Text) : Decidable (Component path c) := decidable_of_iff _ component_iff.symm

/-- Two names of sixty bytes. -/
def longDir : Text := List.replicate 60 97 ++ slash :: List.replicate 60 98

/-- `a/..` is taken; `a../b` and a directory of two long names are not. -/
theorem dots_and_split_missed :
    (guTarWriteFile [] [97, slash, dot, dot] [] 0 420).isSome = true ∧ ¬ Legal [97, slash, dot, dot] ∧
    guTarWriteFile [] [97, dot, dot, slash, 98] [] 0 420 = none ∧ Legal [97, dot, dot, slash, 98] ∧
    guTarWriteDir [] longDir 493 = none ∧ Legal (dirName longDir) := by
  refine ⟨by decide +kernel, ?_, by decide +kernel, ?_, by decide +kernel, ?_⟩
  · exact fun h => h.no_dotdot (by decide)
  · exact ⟨⟨by decide, by decide, by decide⟩, by decide, by decide, Or.inl (by decide)⟩
  · refine ⟨⟨by decide +kernel, by decide +kernel, by decide +kernel⟩, by decide +kernel, by decide +kernel, Or.inr ?_⟩
    exact ⟨List.replicate 60 97, List.replicate 60 98 ++ [slash], by decide +kernel, by decide, by decide, by decide⟩

end Guppy.Archive
