import Guppy.Pkg.Depends
import Mathlib.Data.List.TakeWhile

set_option autoImplicit false

/-! # Dependency lists as text

A relationship field is written as groups with commas between them, each group as alternatives with
bars between them, and each alternative as a name, a qualifier, a constraint in parentheses and
restrictions in brackets, of which only the name must be there. Blanks may stand around all of
these except between a name and its qualifier. However the blanks are put, `debDepParse` has the
groups and alternatives back (`debDepParse_renders`).
-/

namespace Guppy.Pkg

open Vfs

/-! ## Terms -/

def isNameChar (c : UInt8) : Bool := isAlnum c ∨ c = 43 ∨ c = 45 ∨ c = 46

def isQualChar (c : UInt8) : Bool := isAlnum c ∨ c = 45

def isOpChar (c : UInt8) : Bool := c = 60 ∨ c = 62 ∨ c = 61

/-- A parenthesis or a square bracket. -/
def isParen (c : UInt8) : Bool := c = 40 ∨ c = 41 ∨ c = 91 ∨ c = 93

/-- A relation and a version. -/
structure DepConstraint where
  op : Text
  version : Text
  op_ne : op ≠ []
  op_chars : ∀ c ∈ op, isOpChar c = true
  op_short : op.length ≤ 3
  version_ne : version ≠ []
  version_chars : ∀ c ∈ version, isParen c = false
  version_first : ∀ c, version.head? = some c → isBlank c = false ∧ isOpChar c = false
  version_last : ∀ c, version.getLast? = some c → isBlank c = false
  version_short : version.length ≤ 127

/-- A list of architectures in square brackets or of profiles in angle brackets. -/
structure Restriction where
  profile : Bool
  inner : Text
  inner_chars : ∀ c ∈ inner, isParen c = false ∧ isOpChar c = false

def Restriction.text (r : Restriction) : Text :=
  if r.profile = true then 60 :: (r.inner ++ [62]) else 91 :: (r.inner ++ [93])

/-- An alternative of a dependency. -/
structure DepTerm where
  name : Text
  qual : Option Text
  constraint : Option DepConstraint
  restrictions : List Restriction
  name_ne : name ≠ []
  name_chars : ∀ c ∈ name, isNameChar c = true
  name_short : name.length ≤ 127
  qual_chars : ∀ q, qual = some q → ∀ c ∈ q, isQualChar c = true

/-- What the parser is to make of it. -/
def DepTerm.alt (a : DepTerm) : Alt :=
  ⟨a.name, a.constraint.elim [] DepConstraint.op, a.constraint.elim [] DepConstraint.version⟩

/-! ## Renderings -/

def Blank (t : Text) : Prop := ∀ c ∈ t, isBlank c = true

instance (t : Text) : Decidable (Blank t) := List.decidableBAll (fun c => isBlank c = true) t

def RendersConstraint : Option DepConstraint → Text → Prop
  | none, t => t = []
  | some c, t => ∃ b₁ b₂ b₃, Blank b₁ ∧ Blank b₂ ∧ Blank b₃ ∧
      t = 40 :: (b₁ ++ (c.op ++ (b₂ ++ (c.version ++ (b₃ ++ [41])))))

def RendersRestrictions : List Restriction → Text → Prop
  | [], t => t = []
  | r :: rs, t => ∃ b u, Blank b ∧ RendersRestrictions rs u ∧ t = r.text ++ (b ++ u)

def RendersTerm (a : DepTerm) (t : Text) : Prop :=
  ∃ b₁ b₂ c b₃ r, Blank b₁ ∧ Blank b₂ ∧ RendersConstraint a.constraint c ∧ Blank b₃ ∧
    RendersRestrictions a.restrictions r ∧
    t = b₁ ++ (a.name ++ (a.qual.elim [] (fun q => 58 :: q) ++ (b₂ ++ (c ++ (b₃ ++ r)))))

/-- Elements with separators between them. -/
def RendersSep {α : Type} (sep : UInt8) (R : α → Text → Prop) : List α → Text → Prop
  | [], _ => False
  | [a], t => R a t
  | a :: as, t => ∃ u v, R a u ∧ RendersSep sep R as v ∧ t = u ++ sep :: v

def RendersList (gs : List (List DepTerm)) (t : Text) : Prop :=
  if gs = [] then t = [] else RendersSep 44 (RendersSep 124 RendersTerm) gs t

/-! ## Separators inside brackets -/

/-- The depth behind a text in which no separator counts. -/
def passes (sep : UInt8) : Depth → Text → Option Depth
  | d, [] => some d
  | d, c :: t => if c = sep ∧ d.next c = ⟨0, 0, 0⟩ then none else passes sep (d.next c) t

theorem passes_append (sep : UInt8) (t : Text) : ∀ {d d' : Depth} {u : Text}, passes sep d t = some d' →
    passes sep d (t ++ u) = passes sep d' u := by
  induction t with
  | nil =>
      intro d d' u h
      cases h
      rfl
  | cons c t ih =>
      intro d d' u h
      rw [passes] at h
      split at h
      · cases h
      · rename_i hc
        rw [List.cons_append, passes, if_neg hc]
        exact ih h

/-- Text that is passed is kept for the next piece. -/
theorem splitTop_append (sep : UInt8) (t : Text) : ∀ {d d' : Depth} {cur u : Text}, passes sep d t = some d' →
    splitTop sep d cur (t ++ u) = splitTop sep d' (cur ++ t) u := by
  induction t with
  | nil =>
      intro d d' cur u h
      cases h
      rw [List.nil_append, List.append_nil]
  | cons c t ih =>
      intro d d' cur u h
      rw [passes] at h
      split at h
      · cases h
      · rename_i hc
        rw [List.cons_append, splitTop, if_neg hc, ih h, List.append_assoc, List.singleton_append]

theorem nameChar_of_qualChar {c : UInt8} (h : isQualChar c = true) : isNameChar c = true := by
  rw [isNameChar, decide_eq_true_iff]
  rcases of_decide_eq_true h with h | h
  · exact Or.inl h
  · exact Or.inr (Or.inr (Or.inl h))

theorem nameChar_plain {sep c : UInt8} (hsep : sep = 44 ∨ sep = 124) (h : isNameChar c = true) :
    isParen c = false ∧ isOpChar c = false ∧ c ≠ sep := by
  refine ⟨?_, ?_, ?_⟩
  · rw [isParen, decide_eq_false_iff_not]
    rintro (rfl | rfl | rfl | rfl) <;> exact absurd h (by decide)
  · rw [isOpChar, decide_eq_false_iff_not]
    rintro (rfl | rfl | rfl) <;> exact absurd h (by decide)
  · rintro rfl
    rcases hsep with rfl | rfl <;> exact absurd h (by decide)

theorem opChar_not_blank {c : UInt8} (h : isOpChar c = true) : isBlank c = false := by
  rcases of_decide_eq_true h with rfl | rfl | rfl <;> decide

theorem blank_not_op {c : UInt8} (h : isBlank c = true) : isOpChar c = false := by
  rw [isOpChar, decide_eq_false_iff_not]
  rintro (rfl | rfl | rfl) <;> exact absurd h (by decide)

theorem blank_not_paren {t : Text} (h : Blank t) : ∀ c ∈ t, isParen c = false := by
  intro c hc
  rw [isParen, decide_eq_false_iff_not]
  rintro (rfl | rfl | rfl | rfl) <;> exact absurd (h _ hc) (by decide)

section

variable {sep : UInt8}

/-- Bytes that are no brackets and no separators. -/
theorem passes_plain {t : Text} (h : ∀ c ∈ t, isParen c = false ∧ isOpChar c = false ∧ c ≠ sep) :
    passes sep ⟨0, 0, 0⟩ t = some ⟨0, 0, 0⟩ := by
  induction t with
  | nil => rfl
  | cons c t ih =>
      obtain ⟨hp, ho, hne⟩ := h c (List.mem_cons_self ..)
      simp only [isParen, isOpChar, decide_eq_false_iff_not, not_or] at hp ho
      have hnext : Depth.next ⟨0, 0, 0⟩ c = ⟨0, 0, 0⟩ := by
        unfold Depth.next
        simp [hp, ho]
      rw [passes, if_neg (fun h => hne h.1), hnext]
      exact ih (fun d hd => h d (List.mem_cons_of_mem _ hd))

/-- Inside parentheses only parentheses and square brackets count. -/
theorem passes_par {t : Text} (h : ∀ c ∈ t, isParen c = false) : passes sep ⟨1, 0, 0⟩ t = some ⟨1, 0, 0⟩ := by
  induction t with
  | nil => rfl
  | cons c t ih =>
      have hp := h c (List.mem_cons_self ..)
      simp only [isParen, decide_eq_false_iff_not, not_or] at hp
      have hnext : Depth.next ⟨1, 0, 0⟩ c = ⟨1, 0, 0⟩ := by
        unfold Depth.next
        simp [hp]
      rw [passes, hnext, if_neg (by simp)]
      exact ih (fun d hd => h d (List.mem_cons_of_mem _ hd))

/-- Inside brackets, with no other brackets there. -/
theorem passes_inner {d : Depth} {t : Text} (hd : d = ⟨0, 1, 0⟩ ∨ d = ⟨0, 0, 1⟩)
    (h : ∀ c ∈ t, isParen c = false ∧ isOpChar c = false) : passes sep d t = some d := by
  induction t with
  | nil => rfl
  | cons c t ih =>
      obtain ⟨hp, ho⟩ := h c (List.mem_cons_self ..)
      simp only [isParen, isOpChar, decide_eq_false_iff_not, not_or] at hp ho
      have hnext : d.next c = d := by
        unfold Depth.next
        simp [hp, ho]
      have hne : d ≠ ⟨0, 0, 0⟩ := by
        rcases hd with rfl | rfl <;> decide
      rw [passes, hnext, if_neg (fun h => hne h.2)]
      exact ih (fun d hd => h d (List.mem_cons_of_mem _ hd))

variable (hsep : sep = 44 ∨ sep = 124)
include hsep

theorem passes_blank {t : Text} (h : Blank t) : passes sep ⟨0, 0, 0⟩ t = some ⟨0, 0, 0⟩ := by
  apply passes_plain
  intro c hc
  rcases of_decide_eq_true (h c hc) with rfl | ⟨h₁, h₂⟩
  · rcases hsep with rfl | rfl <;> decide
  · have h13 := UInt8.le_iff_toNat_le.mp h₂
    refine ⟨?_, ?_, ?_⟩
    · rw [isParen, decide_eq_false_iff_not]
      rintro (rfl | rfl | rfl | rfl) <;> exact absurd h₂ (by decide)
    · rw [isOpChar, decide_eq_false_iff_not]
      rintro (rfl | rfl | rfl) <;> exact absurd h₂ (by decide)
    · rintro rfl
      rcases hsep with rfl | rfl <;> exact absurd h₂ (by decide)

theorem passes_restriction (r : Restriction) : passes sep ⟨0, 0, 0⟩ r.text = some ⟨0, 0, 0⟩ := by
  unfold Restriction.text
  split
  · rw [passes, show Depth.next ⟨0, 0, 0⟩ 60 = ⟨0, 0, 1⟩ by decide, if_neg (by simp),
      passes_append sep r.inner (passes_inner (Or.inr rfl) r.inner_chars)]
    rcases hsep with rfl | rfl <;> decide
  · rw [passes, show Depth.next ⟨0, 0, 0⟩ 91 = ⟨0, 1, 0⟩ by decide, if_neg (by simp),
      passes_append sep r.inner (passes_inner (Or.inl rfl) r.inner_chars)]
    rcases hsep with rfl | rfl <;> decide

theorem passes_restrictions (rs : List Restriction) : ∀ {t : Text}, RendersRestrictions rs t →
    passes sep ⟨0, 0, 0⟩ t = some ⟨0, 0, 0⟩ := by
  induction rs with
  | nil =>
      rintro t rfl
      rfl
  | cons r rs ih =>
      rintro t ⟨b, u, hb, hu, rfl⟩
      rw [passes_append sep r.text (passes_restriction hsep r), passes_append sep b (passes_blank hsep hb)]
      exact ih hu

theorem passes_constraint {c : Option DepConstraint} {t : Text} (h : RendersConstraint c t) :
    passes sep ⟨0, 0, 0⟩ t = some ⟨0, 0, 0⟩ := by
  cases c with
  | none =>
      obtain rfl : t = [] := h
      rfl
  | some c =>
      obtain ⟨b₁, b₂, b₃, h₁, h₂, h₃, rfl⟩ := h
      have hop : ∀ d ∈ c.op, isParen d = false := by
        intro d hd
        rw [isParen, decide_eq_false_iff_not]
        rintro (rfl | rfl | rfl | rfl) <;> exact absurd (c.op_chars _ hd) (by decide)
      rw [passes, show Depth.next ⟨0, 0, 0⟩ 40 = ⟨1, 0, 0⟩ by decide, if_neg (by simp),
        passes_append sep b₁ (passes_par (blank_not_paren h₁)), passes_append sep c.op (passes_par hop),
        passes_append sep b₂ (passes_par (blank_not_paren h₂)),
        passes_append sep c.version (passes_par c.version_chars),
        passes_append sep b₃ (passes_par (blank_not_paren h₃))]
      rcases hsep with rfl | rfl <;> decide

theorem passes_term {a : DepTerm} {t : Text} (h : RendersTerm a t) : passes sep ⟨0, 0, 0⟩ t = some ⟨0, 0, 0⟩ := by
  obtain ⟨b₁, b₂, c, b₃, r, h₁, h₂, hc, h₃, hr, rfl⟩ := h
  have hname : passes sep ⟨0, 0, 0⟩ a.name = some ⟨0, 0, 0⟩ :=
    passes_plain (fun d hd => nameChar_plain hsep (a.name_chars d hd))
  have hqual : passes sep ⟨0, 0, 0⟩ (a.qual.elim [] (fun q => 58 :: q)) = some ⟨0, 0, 0⟩ := by
    cases hq : a.qual with
    | none => rfl
    | some q =>
        apply passes_plain
        intro d hd
        rcases List.mem_cons.mp hd with rfl | hd
        · rcases hsep with rfl | rfl <;> decide
        · exact nameChar_plain hsep (nameChar_of_qualChar (a.qual_chars q hq d hd))
  rw [passes_append sep b₁ (passes_blank hsep h₁), passes_append sep _ hname, passes_append sep _ hqual,
    passes_append sep b₂ (passes_blank hsep h₂), passes_append sep c (passes_constraint hsep hc),
    passes_append sep b₃ (passes_blank hsep h₃)]
  exact passes_restrictions hsep _ hr

end

/-! ## Pieces -/

/-- A rendering is cut at its separators. -/
theorem splitTop_rendersSep {α : Type} {sep : UInt8} {R : α → Text → Prop}
    (hR : ∀ a t, R a t → passes sep ⟨0, 0, 0⟩ t = some ⟨0, 0, 0⟩) (hnext : Depth.next ⟨0, 0, 0⟩ sep = ⟨0, 0, 0⟩)
    (as : List α) : ∀ {t : Text}, RendersSep sep R as t → List.Forall₂ R as (splitTop sep ⟨0, 0, 0⟩ [] t) := by
  induction as with
  | nil => exact fun h => h.elim
  | cons a as ih =>
      intro t h
      cases as with
      | nil =>
          have ht : R a t := h
          have hsplit := @splitTop_append sep t ⟨0, 0, 0⟩ ⟨0, 0, 0⟩ [] [] (hR a t ht)
          rw [List.append_nil] at hsplit
          rw [hsplit, splitTop, if_pos rfl]
          exact List.Forall₂.cons ht List.Forall₂.nil
      | cons a' as =>
          obtain ⟨u, v, hu, hv, rfl⟩ := h
          rw [splitTop_append sep u (hR a u hu), List.nil_append, splitTop, if_pos ⟨rfl, hnext⟩]
          exact List.Forall₂.cons hu (ih hv)

/-- Alternatives with bars between them are one piece for the commas. -/
theorem passes_rendersSep {as : List DepTerm} : ∀ {t : Text}, RendersSep 124 RendersTerm as t →
    passes 44 ⟨0, 0, 0⟩ t = some ⟨0, 0, 0⟩ := by
  induction as with
  | nil => exact fun h => h.elim
  | cons a as ih =>
      intro t h
      cases as with
      | nil => exact passes_term (Or.inl rfl) h
      | cons a' as =>
          obtain ⟨u, v, hu, hv, rfl⟩ := h
          rw [passes_append 44 u (passes_term (Or.inl rfl) hu), passes, show Depth.next ⟨0, 0, 0⟩ 124 = ⟨0, 0, 0⟩ by decide,
            if_neg (by decide)]
          exact ih hv

/-! ## Parsing a term -/

theorem dropWhile_append_of_head {p : UInt8 → Bool} {b u : Text} (hb : ∀ c ∈ b, p c = true)
    (hu : ∀ c, u.head? = some c → p c = false) : (b ++ u).dropWhile p = u := by
  rw [List.dropWhile_append_of_pos hb]
  cases u with
  | nil => rfl
  | cons c u => exact List.dropWhile_cons_of_neg (by simp [hu c rfl])

theorem takeWhile_append_of_head {p : UInt8 → Bool} {b u : Text} (hb : ∀ c ∈ b, p c = true)
    (hu : ∀ c, u.head? = some c → p c = false) : (b ++ u).takeWhile p = b := by
  rw [List.takeWhile_append_of_pos hb]
  cases u with
  | nil => rw [List.takeWhile_nil, List.append_nil]
  | cons c u => rw [List.takeWhile_cons_of_neg (by simp [hu c rfl]), List.append_nil]

/-- Text that neither starts nor ends with a blank, with blanks behind it. -/
theorem trimCopy_eq {cap : Nat} {t b : Text} (hfirst : ∀ c, t.head? = some c → isBlank c = false)
    (hlast : ∀ c, t.getLast? = some c → isBlank c = false) (hb : Blank b) (hlen : t.length ≤ cap - 1) :
    trimCopy cap (t ++ b) = t := by
  have hdrop : ((t ++ b).dropWhile isBlank).reverse.dropWhile isBlank = t.reverse := by
    cases t with
    | nil =>
        rw [List.nil_append, List.dropWhile_eq_nil_iff.mpr hb]
        rfl
    | cons c t =>
        rw [List.cons_append, List.dropWhile_cons_of_neg (by simp [hfirst c rfl]), ← List.cons_append,
          List.reverse_append]
        apply dropWhile_append_of_head
        · exact fun d hd => hb d (List.mem_reverse.mp hd)
        · intro d hd
          rw [List.head?_reverse] at hd
          exact hlast d hd
  unfold trimCopy
  rw [hdrop, List.reverse_reverse, List.take_of_length_le hlen]

/-- What may come behind a name or a qualifier: a blank, or an opening bracket. -/
def Delimits (t : Text) : Prop := ∀ c, t.head? = some c → isBlank c = true ∨ c = 40 ∨ c = 60 ∨ c = 91

theorem delimits_append {b u : Text} (hb : Delimits b) (hu : Delimits u) : Delimits (b ++ u) := by
  intro c hc
  rw [List.head?_append] at hc
  cases hhead : b.head? with
  | none =>
      rw [hhead] at hc
      exact hu c hc
  | some d =>
      rw [hhead] at hc
      cases hc
      exact hb _ hhead

theorem delimits_blank {b : Text} (hb : Blank b) : Delimits b :=
  fun c hc => Or.inl (hb c (List.mem_of_mem_head? hc))

/-- The restrictions are empty or start with an opening bracket. -/
theorem restrictions_head {rs : List Restriction} {t : Text} (h : RendersRestrictions rs t) :
    ∀ c, t.head? = some c → c = 60 ∨ c = 91 := by
  intro c hc
  cases rs with
  | nil =>
      obtain rfl : t = [] := h
      cases hc
  | cons r rs =>
      obtain ⟨b, u, -, -, rfl⟩ := h
      unfold Restriction.text at hc
      split at hc
      · cases hc
        exact Or.inl rfl
      · cases hc
        exact Or.inr rfl

theorem delimits_constraint {c : Option DepConstraint} {t : Text} (h : RendersConstraint c t) : Delimits t := by
  intro d hd
  cases c with
  | none =>
      obtain rfl : t = [] := h
      cases hd
  | some c =>
      obtain ⟨b₁, b₂, b₃, -, -, -, rfl⟩ := h
      cases hd
      exact Or.inr (Or.inl rfl)

/-- White space is below all printed bytes. -/
theorem isAlnum_of_small {c : UInt8} (h : c ≤ 13) : isAlnum c = false := by
  rw [isAlnum, decide_eq_false_iff_not]
  rintro (hd | ⟨h₁, -⟩ | ⟨h₁, -⟩)
  · have hrange : 48 ≤ c ∧ c ≤ 57 := of_decide_eq_true hd
    exact absurd (UInt8.le_trans hrange.1 h) (by decide)
  · exact absurd (UInt8.le_trans h₁ h) (by decide)
  · exact absurd (UInt8.le_trans h₁ h) (by decide)

theorem nameChar_not_blank {c : UInt8} (h : isNameChar c = true) : isBlank c = false := by
  rw [isBlank, decide_eq_false_iff_not]
  rintro (rfl | ⟨-, h₂⟩)
  · exact absurd h (by decide)
  · rcases of_decide_eq_true h with h | rfl | rfl | rfl
    · rw [isAlnum_of_small h₂] at h
      cases h
    · exact absurd h₂ (by decide)
    · exact absurd h₂ (by decide)
    · exact absurd h₂ (by decide)

theorem delimiter_not_name {c : UInt8} (h : isBlank c = true ∨ c = 40 ∨ c = 60 ∨ c = 91) :
    isNameChar c = false ∧ isQualChar c = false ∧ c ≠ 58 := by
  rcases h with h | rfl | rfl | rfl
  · rcases of_decide_eq_true h with rfl | ⟨h₁, h₂⟩
    · decide
    · have hne : ∀ d : UInt8, ¬ d ≤ 13 → c ≠ d := by
        rintro d hd rfl
        exact hd h₂
      unfold isNameChar isQualChar
      simp [isAlnum_of_small h₂, hne 43 (by decide), hne 45 (by decide), hne 46 (by decide), hne 58 (by decide)]
  · decide
  · decide
  · decide

/-- What is behind an opening parenthesis. -/
theorem parseConstraint_open (t : Text) : parseConstraint (40 :: t) =
    if 41 ∈ ((t.dropWhile isBlank).drop ((t.dropWhile isBlank).takeWhile (fun c => c = 60 ∨ c = 62 ∨ c = 61)).length).dropWhile isBlank
    then some (trimCopy 4 ((t.dropWhile isBlank).takeWhile (fun c => c = 60 ∨ c = 62 ∨ c = 61)),
      trimCopy 128 ((((t.dropWhile isBlank).drop
        ((t.dropWhile isBlank).takeWhile (fun c => c = 60 ∨ c = 62 ∨ c = 61)).length).dropWhile isBlank).takeWhile (· ≠ 41)))
    else none := rfl

/-- The constraint of a term, with what comes behind it. -/
theorem parseConstraint_renders {c : Option DepConstraint} {b₂ b₃ ct r : Text} (h₂ : Blank b₂) (h₃ : Blank b₃)
    (hc : RendersConstraint c ct) (hr : ∀ d, r.head? = some d → d = 60 ∨ d = 91) :
    parseConstraint ((b₂ ++ (ct ++ (b₃ ++ r))).dropWhile isBlank) =
      some (c.elim [] DepConstraint.op, c.elim [] DepConstraint.version) := by
  cases c with
  | none =>
      obtain rfl : ct = [] := hc
      have hblank : ∀ d ∈ b₂ ++ b₃, isBlank d = true := by
        intro d hd
        rcases List.mem_append.mp hd with hd | hd
        · exact h₂ d hd
        · exact h₃ d hd
      rw [List.nil_append, ← List.append_assoc, dropWhile_append_of_head hblank
        (fun d hd => by rcases hr d hd with rfl | rfl <;> decide)]
      cases r with
      | nil => rfl
      | cons d r =>
          rcases hr d rfl with rfl | rfl
          · rfl
          · rfl
  | some c =>
      obtain ⟨s₁, s₂, s₃, hs₁, hs₂, hs₃, rfl⟩ := hc
      obtain ⟨o, op, hop⟩ := List.exists_cons_of_ne_nil c.op_ne
      obtain ⟨v, version, hver⟩ := List.exists_cons_of_ne_nil c.version_ne
      have ho : isBlank o = false := opChar_not_blank (c.op_chars o (by rw [hop]; exact List.mem_cons_self ..))
      obtain ⟨hvb, hvo⟩ := c.version_first v (by rw [hver]; rfl)
      obtain ⟨w, hw⟩ : ∃ w, w = c.version ++ (s₃ ++ 41 :: (b₃ ++ r)) := ⟨_, rfl⟩
      have hwhead : ∀ d, w.head? = some d → d = v := by
        intro d hd
        rw [hw, hver] at hd
        exact (Option.some.inj hd).symm
      -- the relation ends at a blank or at the version
      have hrest : ∀ d, (s₂ ++ w).head? = some d → isOpChar d = false := by
        intro d hd
        rw [List.head?_append] at hd
        cases hs : s₂.head? with
        | none =>
            rw [hs] at hd
            rw [hwhead d hd, hvo]
        | some e =>
            rw [hs] at hd
            cases hd
            exact blank_not_op (hs₂ _ (List.mem_of_mem_head? hs))
      have hno41 : ∀ d ∈ c.version ++ s₃, decide (d ≠ 41) = true := by
        intro d hd
        rw [decide_eq_true_iff]
        rintro rfl
        rcases List.mem_append.mp hd with hd | hd
        · exact absurd (c.version_chars _ hd) (by decide)
        · exact absurd (hs₃ _ hd) (by decide)
      have hop4 : trimCopy 4 c.op = c.op := by
        have hop' : ∀ d ∈ c.op, isBlank d = false := fun d hd => opChar_not_blank (c.op_chars d hd)
        have := @trimCopy_eq 4 c.op [] (fun d hd => hop' d (List.mem_of_mem_head? hd))
          (fun d hd => hop' d (List.mem_of_mem_getLast? hd)) (fun d hd => by cases hd) c.op_short
        rwa [List.append_nil] at this
      have hver128 : trimCopy 128 (c.version ++ s₃) = c.version :=
        trimCopy_eq (fun d hd => (c.version_first d hd).1) c.version_last hs₃ c.version_short
      have htext : 40 :: (s₁ ++ (c.op ++ (s₂ ++ (c.version ++ (s₃ ++ [41]))))) ++ (b₃ ++ r) =
          40 :: (s₁ ++ (c.op ++ (s₂ ++ w))) := by
        rw [hw]
        simp
      rw [htext, dropWhile_append_of_head (p := isBlank) h₂ (fun d hd => by cases hd; decide)]
      rw [parseConstraint_open, dropWhile_append_of_head (p := isBlank) hs₁ (fun d hd => by rw [hop] at hd; cases hd; exact ho)]
      have htake : (c.op ++ (s₂ ++ w)).takeWhile (fun c => decide (c = 60 ∨ c = 62 ∨ c = 61)) = c.op :=
        takeWhile_append_of_head c.op_chars hrest
      rw [htake, List.drop_left, dropWhile_append_of_head (p := isBlank) hs₂ (fun d hd => by rw [hwhead d hd]; exact hvb),
        if_pos]
      · rw [hop4, hw, ← List.append_assoc, takeWhile_append_of_head hno41 (fun d hd => by cases hd; decide), hver128]
        rfl
      · rw [hw]
        exact List.mem_append_right _ (List.mem_append_right _ (List.mem_cons_self ..))

/-- A term is parsed as what it is. -/
theorem parseAlt_renders {a : DepTerm} {t : Text} (h : RendersTerm a t) : parseAlt t = some a.alt := by
  obtain ⟨b₁, b₂, c, b₃, r, h₁, h₂, hc, h₃, hr, rfl⟩ := h
  have hdelim : Delimits (b₂ ++ (c ++ (b₃ ++ r))) :=
    delimits_append (delimits_blank h₂) (delimits_append (delimits_constraint hc) (delimits_append (delimits_blank h₃)
      (fun d hd => Or.inr (Or.inr (restrictions_head hr d hd)))))
  have hconstraint := @parseConstraint_renders a.constraint b₂ b₃ c r h₂ h₃ hc (restrictions_head hr)
  obtain ⟨w, hw⟩ : ∃ w, w = b₂ ++ (c ++ (b₃ ++ r)) := ⟨_, rfl⟩
  rw [← hw] at hdelim hconstraint ⊢
  -- behind the name
  have hqual : ∀ d, (a.qual.elim [] (fun q => 58 :: q) ++ w).head? = some d → isNameChar d = false := by
    intro d hd
    cases hq : a.qual with
    | none =>
        rw [hq] at hd
        exact (delimiter_not_name (hdelim d hd)).1
    | some q =>
        rw [hq] at hd
        cases hd
        decide
  have hblank : ∀ d ∈ a.name, isBlank d = false := fun d hd => nameChar_not_blank (a.name_chars d hd)
  have hname : (a.name ++ (a.qual.elim [] (fun q => 58 :: q) ++ w)).takeWhile
      (fun c => decide (isAlnum c = true ∨ c = 43 ∨ c = 45 ∨ c = 46)) = a.name :=
    takeWhile_append_of_head a.name_chars hqual
  have hname128 : trimCopy 128 a.name = a.name := by
    have := @trimCopy_eq 128 a.name [] (fun d hd => hblank d (List.mem_of_mem_head? hd))
      (fun d hd => hblank d (List.mem_of_mem_getLast? hd)) (fun d hd => by cases hd) a.name_short
    rwa [List.append_nil] at this
  unfold parseAlt
  rw [dropWhile_append_of_head h₁ (fun d hd => by
    obtain ⟨n, name, hn⟩ := List.exists_cons_of_ne_nil a.name_ne
    rw [hn] at hd
    cases hd
    exact hblank _ (by rw [hn]; exact List.mem_cons_self ..))]
  dsimp only []
  rw [hname, if_neg a.name_ne, List.drop_left, hname128]
  cases hq : a.qual with
  | none =>
      rw [Option.elim_none, List.nil_append]
      split
      · exact absurd rfl (delimiter_not_name (hdelim 58 rfl)).2.2
      · rw [hconstraint]
        rfl
  | some q =>
      have hskip : (q ++ w).dropWhile (fun c => decide (isAlnum c = true ∨ c = 45)) = w :=
        dropWhile_append_of_head (a.qual_chars q hq) (fun d hd => (delimiter_not_name (hdelim d hd)).2.1)
      rw [Option.elim_some, List.cons_append]
      show Option.map _ (parseConstraint (((q ++ w).dropWhile (fun c => decide (isAlnum c = true ∨ c = 45))).dropWhile isBlank)) = _
      rw [hskip, hconstraint]
      rfl

/-! ## The round trip -/

theorem mapM_of_forall₂ {α β γ : Type} {R : α → β → Prop} {f : β → Option γ} {g : α → γ}
    (hf : ∀ a b, R a b → f b = some (g a)) {as : List α} {bs : List β} (h : List.Forall₂ R as bs) :
    bs.mapM f = some (as.map g) := by
  induction h with
  | nil => rfl
  | cons hab _ ih =>
      rw [List.mapM_cons, hf _ _ hab, ih]
      rfl

theorem rendersSep_ne_nil {α : Type} {sep : UInt8} {R : α → Text → Prop} (hR : ∀ a t, R a t → t ≠ []) {as : List α}
    {t : Text} (h : RendersSep sep R as t) : t ≠ [] := by
  cases as with
  | nil => exact h.elim
  | cons a as =>
      cases as with
      | nil => exact hR a t h
      | cons a' as =>
          obtain ⟨u, v, -, -, rfl⟩ := h
          simp

theorem rendersTerm_ne_nil (a : DepTerm) (t : Text) (h : RendersTerm a t) : t ≠ [] := by
  obtain ⟨b₁, b₂, c, b₃, r, -, -, -, -, -, rfl⟩ := h
  intro hnil
  rw [List.append_eq_nil_iff, List.append_eq_nil_iff] at hnil
  exact a.name_ne hnil.2.1

theorem parseGroup_renders {g : List DepTerm} {t : Text} (hg : g.length ≤ debDepMaxAlts)
    (h : RendersSep 124 RendersTerm g t) : parseGroup t = some (g.map DepTerm.alt) := by
  have hpieces := splitTop_rendersSep (fun a t => passes_term (Or.inr rfl)) (by decide) g h
  unfold parseGroup
  dsimp only []
  rw [← hpieces.length_eq, if_neg (not_lt.mpr hg)]
  exact mapM_of_forall₂ (fun a u (hau : RendersTerm a u) => parseAlt_renders hau) hpieces

/-- A dependency list with no more groups and alternatives than the parser has room for. -/
structure DepList where
  groups : List (List DepTerm)
  few_groups : groups.length ≤ debDepMaxGroups
  few_alts : ∀ g ∈ groups, g.length ≤ debDepMaxAlts

/-- However a dependency list is written, its groups and alternatives are read again. -/
theorem debDepParse_renders {l : DepList} {t : Text} (h : RendersList l.groups t) :
    debDepParse t = some (l.groups.map (List.map DepTerm.alt)) := by
  unfold RendersList at h
  unfold debDepParse
  by_cases hempty : l.groups = []
  · rw [if_pos hempty] at h
    rw [if_pos h, hempty]
    rfl
  · rw [if_neg hempty] at h
    rw [if_neg (rendersSep_ne_nil (fun g u hg => rendersSep_ne_nil rendersTerm_ne_nil hg) h)]
    have hpieces := splitTop_rendersSep (fun g u => passes_rendersSep) (by decide) l.groups h
    dsimp only []
    rw [← hpieces.length_eq, if_neg (not_lt.mpr l.few_groups)]
    -- the limit on the alternatives is needed for each group
    have hlimit : List.Forall₂ (fun g u => g ∈ l.groups ∧ RendersSep 124 RendersTerm g u) l.groups
        (splitTop 44 ⟨0, 0, 0⟩ [] t) := by
      rw [List.forall₂_and_left]
      exact ⟨fun g hg => hg, hpieces⟩
    exact mapM_of_forall₂ (fun g u hgu => parseGroup_renders (l.few_alts g hgu.1) hgu.2) hlimit

/-- `a:any (>= 1)` -/
def termA : DepTerm where
  name := [97]
  qual := some [97, 110, 121]
  constraint := some ⟨[62, 61], [49], by decide, forall_mem_of_all (by decide), by decide, by decide, forall_mem_of_all (by decide),
    by simp [isBlank, isOpChar], by simp [isBlank], by decide⟩
  restrictions := []
  name_ne := by decide
  name_chars := forall_mem_of_all (by decide)
  name_short := by decide
  qual_chars := fun q hq => by cases hq; exact forall_mem_of_all (by decide)

/-- `b [c]` -/
def termB : DepTerm where
  name := [98]
  qual := none
  constraint := none
  restrictions := [⟨false, [99], forall_mem_of_all (by decide)⟩]
  name_ne := by decide
  name_chars := forall_mem_of_all (by decide)
  name_short := by decide
  qual_chars := fun q hq => by cases hq

/-- `a:any (>=1 ) ,b [c]` -/
theorem debDepParse_renders_two : debDepParse [97, 58, 97, 110, 121, 32, 40, 62, 61, 49, 32, 41, 32, 44, 98, 32, 91, 99, 93] =
    some [[⟨[97], [62, 61], [49]⟩], [⟨[98], [], []⟩]] := by
  refine @debDepParse_renders ⟨[[termA], [termB]], by decide, by decide⟩ _ ?_
  unfold RendersList
  rw [if_neg (List.cons_ne_nil _ _)]
  refine ⟨[97, 58, 97, 110, 121, 32, 40, 62, 61, 49, 32, 41, 32], [98, 32, 91, 99, 93], ?_, ?_, rfl⟩
  · exact ⟨[], [32], [40, 62, 61, 49, 32, 41], [32], [], by decide, by decide,
      ⟨[], [], [32], by decide, by decide, by decide, rfl⟩, by decide, rfl, rfl⟩
  · exact ⟨[], [32], [], [], [91, 99, 93], by decide, by decide, rfl, by decide, ⟨[], [], by decide, rfl, rfl⟩, rfl⟩

end Guppy.Pkg
