import Mathlib.Algebra.Order.BigOperators.Group.List
import Mathlib.Algebra.Order.Ring.Nat
import Mathlib.Data.List.Induction
import Mathlib.Data.List.TakeWhile

set_option autoImplicit false

/-! # Texts of lines

A text is cut into lines at a separator; the last line need not be ended. `join` ends every line. A text of ended lines
is cut into these lines (`split_join`), whatever stands behind them (`split_join_append`), and what a text is cut into
are its lines again, ended (`join_split`).
-/

namespace Guppy.Lines

variable {α : Type} [DecidableEq α] (sep : α)

/-- The lines of a text. -/
def split : List α → List (List α)
  | [] => []
  | c :: t => if c = sep then [] :: split t else (c :: (split t).headD []) :: (split t).tail

/-- The lines, each with its end. -/
def join (ls : List (List α)) : List α := ls.flatMap (· ++ [sep])

/-- A text whose last line is ended. -/
def ended (t : List α) : List α := if t = [] ∨ t.getLast? = some sep then t else t ++ [sep]

variable {sep} {t l : List α} {ls : List (List α)}

@[simp] theorem split_nil : split sep [] = [] := rfl

@[simp] theorem split_sep : split sep (sep :: t) = [] :: split sep t := if_pos rfl

theorem split_cons {c : α} (h : c ≠ sep) : split sep (c :: t) = (c :: (split sep t).headD []) :: (split sep t).tail :=
  if_neg h

omit [DecidableEq α] in
@[simp] theorem join_nil : join sep [] = [] := rfl

omit [DecidableEq α] in
@[simp] theorem join_cons : join sep (l :: ls) = l ++ sep :: join sep ls := by
  simp [join]

omit [DecidableEq α] in
theorem join_append (ls' : List (List α)) : join sep (ls ++ ls') = join sep ls ++ join sep ls' := List.flatMap_append ..

/-- A line is what stands before the first separator, and no line holds one. -/
theorem not_mem_of_mem_split (h : l ∈ split sep t) : sep ∉ l := by
  induction t generalizing l with
  | nil => exact absurd h List.not_mem_nil
  | cons c t ih =>
      by_cases hc : c = sep
      · subst hc
        rw [split_sep] at h
        rcases List.mem_cons.mp h with rfl | h
        · exact List.not_mem_nil
        · exact ih h
      · rw [split_cons hc] at h
        have hhead : sep ∉ (split sep t).headD [] := by
          cases hs : split sep t with
          | nil => exact List.not_mem_nil
          | cons l' ls' => exact ih (by rw [hs]; exact List.mem_cons_self)
        rcases List.mem_cons.mp h with rfl | h
        · exact fun hmem => (List.mem_cons.mp hmem).elim (fun he => hc he.symm) hhead
        · exact ih (List.mem_of_mem_tail h)

theorem split_line_append (h : sep ∉ l) (t : List α) : split sep (l ++ sep :: t) = l :: split sep t := by
  induction l with
  | nil => exact split_sep
  | cons c l ih =>
      have hc : c ≠ sep := fun he => h (he ▸ List.mem_cons_self)
      rw [List.cons_append, split_cons hc, ih fun hmem => h (List.mem_cons_of_mem c hmem)]
      rfl

/-- A last line that is not ended. -/
theorem split_line (h : sep ∉ l) (hne : l ≠ []) : split sep l = [l] := by
  induction l with
  | nil => exact absurd rfl hne
  | cons c l ih =>
      have hc : c ≠ sep := fun he => h (he ▸ List.mem_cons_self)
      rw [split_cons hc]
      cases l with
      | nil => rfl
      | cons d l =>
          rw [ih (fun hmem => h (List.mem_cons_of_mem c hmem)) (List.cons_ne_nil d l)]
          rfl

theorem split_join_append (h : ∀ l ∈ ls, sep ∉ l) (t : List α) : split sep (join sep ls ++ t) = ls ++ split sep t := by
  induction ls with
  | nil => rfl
  | cons l ls ih =>
      obtain ⟨hl, hls⟩ := List.forall_mem_cons.mp h
      rw [join_cons, List.append_assoc, List.cons_append, split_line_append hl, ih hls, List.cons_append]

/-- The lines that a text was made of. -/
theorem split_join (h : ∀ l ∈ ls, sep ∉ l) : split sep (join sep ls) = ls := by
  simpa using split_join_append h []

@[simp] theorem ended_nil : ended sep [] = [] := rfl

theorem ended_append_sep (t : List α) : ended sep (t ++ [sep]) = t ++ [sep] := if_pos (by simp)

theorem length_le_ended (t : List α) : t.length ≤ (ended sep t).length := by
  unfold ended
  split
  · exact le_rfl
  · rw [List.length_append]
    exact Nat.le_add_right _ _

theorem ended_cons_cons (c d : α) (t : List α) : ended sep (c :: d :: t) = c :: ended sep (d :: t) := by
  unfold ended
  rw [List.getLast?_cons_cons]
  by_cases hlast : (d :: t).getLast? = some sep
  · rw [if_pos (Or.inr hlast), if_pos (Or.inr hlast)]
  · rw [if_neg (by simpa using hlast), if_neg (by simpa using hlast), List.cons_append]

/-- The lines of a text, ended, are the text itself, but for the end of its last line. -/
theorem join_split (t : List α) : join sep (split sep t) = ended sep t := by
  induction t with
  | nil => rfl
  | cons c t ih =>
      by_cases hc : c = sep
      · subst hc
        rw [split_sep, join_cons, ih, List.nil_append]
        cases t with
        | nil => simp [ended]
        | cons d t => rw [ended_cons_cons]
      · rw [split_cons hc]
        cases t with
        | nil => simp [ended, hc]
        | cons d t =>
            have hhead : join sep ((c :: (split sep (d :: t)).headD []) :: (split sep (d :: t)).tail) =
                c :: join sep (split sep (d :: t)) := by
              cases hs : split sep (d :: t) with
              | nil =>
                  rw [split] at hs
                  split at hs <;> cases hs
              | cons l ls => simp
            rw [hhead, ih, ended_cons_cons]

/-- The lines of a text are those of the text with its last line ended. -/
theorem split_ended (t : List α) : split sep (ended sep t) = split sep t := by
  rw [← join_split, split_join fun _ => not_mem_of_mem_split]

theorem split_ended_append (t t' : List α) : split sep (ended sep t ++ t') = split sep t ++ split sep t' := by
  rw [← join_split, split_join_append fun _ => not_mem_of_mem_split]

theorem takeWhile_cut (h : sep ∉ l) (t : List α) : (l ++ sep :: t).takeWhile (fun c => decide (c ≠ sep)) = l := by
  have hall : ∀ c ∈ l, decide (c ≠ sep) = true := fun c hc => decide_eq_true fun he => h (he ▸ hc)
  rw [List.takeWhile_append_of_pos hall]
  simp

theorem dropWhile_cut (h : sep ∉ l) (t : List α) : (l ++ sep :: t).dropWhile (fun c => decide (c ≠ sep)) = sep :: t := by
  have hall : ∀ c ∈ l, decide (c ≠ sep) = true := fun c hc => decide_eq_true fun he => h (he ▸ hc)
  rw [List.dropWhile_append_of_pos hall]
  simp

/-- The first line and the rest, as a search for the separator finds them. -/
theorem split_cut (h : t ≠ []) :
    split sep t = t.takeWhile (fun c => decide (c ≠ sep)) :: split sep ((t.dropWhile fun c => decide (c ≠ sep)).drop 1) := by
  have hline : sep ∉ t.takeWhile fun c => decide (c ≠ sep) := fun hmem => by
    simpa using List.mem_takeWhile_imp hmem
  have hcut := List.takeWhile_append_dropWhile (p := fun c => decide (c ≠ sep)) (l := t)
  cases hrest : t.dropWhile fun c => decide (c ≠ sep) with
  | nil =>
      rw [hrest, List.append_nil] at hcut
      rw [hcut] at hline ⊢
      exact split_line hline h
  | cons d r =>
      have hd : d = sep := by
        have hhead := List.head?_dropWhile_not (fun c => decide (c ≠ sep)) t
        rw [hrest] at hhead
        simpa using hhead
      rw [hrest, hd] at hcut
      conv_lhs => rw [← hcut]
      exact split_line_append hline r

/-! ## Lines inside a text -/

/-- The first separator of a text is at one place. -/
theorem line_inj {l' r r' : List α} (hl : sep ∉ l) (hl' : sep ∉ l') (h : l ++ sep :: r = l' ++ sep :: r') :
    l = l' ∧ r = r' := by
  have hline : l = l' := by rw [← takeWhile_cut hl r, h, takeWhile_cut hl' r']
  subst hline
  exact ⟨rfl, (List.cons_eq_cons.mp (List.append_cancel_left h)).2⟩

/-- Ended lines stand in a text of ended lines: the first one as the end of a line, the others as lines. -/
theorem join_isInfix_iff {ms : List (List α)} (hl : sep ∉ l) (hls : ∀ l ∈ ls, sep ∉ l) (hms : ∀ m ∈ ms, sep ∉ m) :
    join sep (l :: ls) <:+: join sep ms ↔ ∃ pre m post, ms = pre ++ m :: (ls ++ post) ∧ l <:+ m := by
  constructor
  · rintro ⟨a, b, h⟩
    rw [join_cons] at h
    induction ms generalizing a with
    | nil => exact absurd (congrArg List.length h) (by simp)
    | cons m ms ih =>
        obtain ⟨hm, hms⟩ := List.forall_mem_cons.mp hms
        by_cases ha : sep ∈ a
        · -- the lines begin behind the first line
          obtain ⟨a₁, a₂, rfl, ha₁⟩ := List.eq_append_cons_of_mem ha
          have heq : a₁ ++ sep :: (a₂ ++ (l ++ sep :: join sep ls) ++ b) = m ++ sep :: join sep ms := by
            rw [← @join_cons _ _ m, ← h]
            simp
          obtain ⟨-, hrest⟩ := line_inj ha₁ hm heq
          obtain ⟨pre, m', post, rfl, hsuffix⟩ := ih hms a₂ hrest
          exact ⟨m :: pre, m', post, rfl, hsuffix⟩
        · have hal : sep ∉ a ++ l := fun hmem => (List.mem_append.mp hmem).elim ha hl
          have heq : (a ++ l) ++ sep :: (join sep ls ++ b) = m ++ sep :: join sep ms := by
            rw [← @join_cons _ _ m, ← h]
            simp
          obtain ⟨rfl, hrest⟩ := line_inj hal hm heq
          refine ⟨[], a ++ l, split sep b, ?_, List.suffix_append a l⟩
          rw [List.nil_append, ← split_join_append hls b, hrest, split_join (List.forall_mem_cons.mp hms).2]
  · rintro ⟨pre, m, post, rfl, ⟨a, rfl⟩⟩
    refine ⟨join sep pre ++ a, join sep post, ?_⟩
    rw [join_append, join_cons, join_cons, join_append]
    simp

/-! ## Separators inside lines -/

theorem count_join (ls : List (List α)) : (join sep ls).count sep = (ls.map (List.count sep)).sum + ls.length := by
  induction ls with
  | nil => rfl
  | cons l ls ih =>
      rw [join_cons, List.count_append, List.count_cons_self, ih, List.map_cons, List.sum_cons, List.length_cons]
      omega

/-- Texts that are as many lines as there are texts are lines themselves. -/
theorem not_mem_of_length_split (h : (split sep (join sep ls)).length = ls.length) : ∀ l ∈ ls, sep ∉ l := by
  have hended : join sep (split sep (join sep ls)) = join sep ls := by
    rw [join_split]
    induction ls using List.reverseRecOn with
    | nil => rfl
    | append_singleton ls l _ => rw [join_append, join_cons, join_nil, ← List.append_assoc, ended_append_sep]
  -- both sides hold one separator for each line, and the right side those inside its texts as well
  have hcount := congrArg (List.count sep) hended
  have hzero : ((split sep (join sep ls)).map (List.count sep)).sum = 0 := by
    refine List.sum_eq_zero fun n hn => ?_
    obtain ⟨l, hl, rfl⟩ := List.mem_map.mp hn
    exact List.count_eq_zero.mpr (not_mem_of_mem_split hl)
  rw [count_join, count_join, hzero, h] at hcount
  have hsum : (ls.map (List.count sep)).sum = 0 := by omega
  intro l hl
  have hle : l.count sep ≤ (ls.map (List.count sep)).sum := List.single_le_sum (fun _ _ => Nat.zero_le _) _ (List.mem_map_of_mem hl)
  exact List.count_eq_zero.mp (by omega)

/-! ## Lines with their ends -/

variable (sep) in
/-- The lines of a text, each with its separator when it has one. -/
def splitEnds : List α → List (List α)
  | [] => []
  | c :: t => if c = sep then [c] :: splitEnds t else (c :: (splitEnds t).headD []) :: (splitEnds t).tail

theorem splitEnds_line_append (h : sep ∉ l) (t : List α) :
    splitEnds sep (l ++ sep :: t) = (l ++ [sep]) :: splitEnds sep t := by
  induction l with
  | nil => exact if_pos rfl
  | cons c l ih =>
      have hc : c ≠ sep := fun he => h (he ▸ List.mem_cons_self)
      rw [List.cons_append, splitEnds, if_neg hc, ih fun hmem => h (List.mem_cons_of_mem c hmem)]
      rfl

theorem splitEnds_line (h : sep ∉ l) (hne : l ≠ []) : splitEnds sep l = [l] := by
  induction l with
  | nil => exact absurd rfl hne
  | cons c l ih =>
      have hc : c ≠ sep := fun he => h (he ▸ List.mem_cons_self)
      rw [splitEnds, if_neg hc]
      cases l with
      | nil => rfl
      | cons d l =>
          rw [ih (fun hmem => h (List.mem_cons_of_mem c hmem)) (List.cons_ne_nil d l)]
          rfl

/-- An induction over the lines of a text. -/
theorem lines_induction {motive : List α → Prop} (nil : motive []) (last : ∀ l, sep ∉ l → l ≠ [] → motive l)
    (line : ∀ l t, sep ∉ l → motive t → motive (l ++ sep :: t)) (t : List α) : motive t := by
  induction hn : t.length using Nat.strong_induction_on generalizing t with
  | _ n ih =>
      by_cases hsep : sep ∈ t
      · obtain ⟨l, r, rfl, hl⟩ := List.eq_append_cons_of_mem hsep
        refine line l r hl (ih r.length ?_ r rfl)
        rw [← hn, List.length_append, List.length_cons]
        omega
      · cases t with
        | nil => exact nil
        | cons c t => exact last _ hsep (List.cons_ne_nil c t)

/-! ## Fields -/

/-- A field of a text that is split holds no separator. -/
theorem not_mem_of_mem_splitOn (h : l ∈ t.splitOn sep) : sep ∉ l := by
  induction t generalizing l with
  | nil =>
      rw [List.splitOn_nil, List.mem_singleton] at h
      rw [h]
      exact List.not_mem_nil
  | cons c t ih =>
      rw [List.splitOn_cons_eq_if_modifyHead] at h
      cases hs : t.splitOn sep with
      | nil => exact absurd hs (List.splitOn_ne_nil sep t)
      | cons f fs =>
          rw [hs] at h ih
          by_cases hc : c = sep
          · rw [if_pos (beq_iff_eq.mpr hc)] at h
            rcases List.mem_cons.mp h with rfl | h
            · exact List.not_mem_nil
            · exact ih h
          · rw [if_neg fun he => hc (beq_iff_eq.mp he)] at h
            rcases List.mem_cons.mp h with rfl | h
            · exact fun hmem => (List.mem_cons.mp hmem).elim (fun he => hc he.symm) (ih List.mem_cons_self)
            · exact ih (List.mem_cons_of_mem f h)

/-- A text has these fields when it is made of them and they hold no separator. -/
theorem splitOn_eq_iff (hne : ls ≠ []) : t.splitOn sep = ls ↔ t = [sep].intercalate ls ∧ ∀ f ∈ ls, sep ∉ f := by
  constructor
  · rintro rfl
    exact ⟨(List.intercalate_splitOn sep).symm, fun f => not_mem_of_mem_splitOn⟩
  · rintro ⟨rfl, hfields⟩
    exact List.splitOn_intercalate sep hfields hne

end Guppy.Lines
