import Guppy.Lib.Lines
import Mathlib.Logic.Function.Basic

set_option autoImplicit false

/-! # Files of lines that grow

Files by their paths, and a line that is appended to a file unless the file has it already. A sequence of such lines
extends every file by some of the lines that are meant for it, and by at least one that it did not have
(`foldl_extended`). When no line holds a separator, the file has all of them afterwards (`foldl_mem`), so that the same
sequence changes nothing a second time (`foldl_again`).
-/

namespace Guppy.LineFiles

variable {P α : Type} [DecidableEq P] [DecidableEq α] (sep : α)

/-- The contents of the files that exist. -/
abbrev Store (P α : Type) := P → Option (List α)

/-- The lines of a file. -/
def linesAt (s : Store P α) (p : P) : List (List α) := Lines.split sep ((s p).getD [])

/-- A line for a file. -/
def append (s : Store P α) (c : P × List α) : Store P α :=
  if c.2 ∈ linesAt sep s c.1 then s
  else Function.update s c.1 (some (Lines.ended sep ((s c.1).getD []) ++ (c.2 ++ [sep])))

/-- The new contents are the old ones with these lines behind them. -/
def Extended (old : Option (List α)) (ls : List (List α)) (new : Option (List α)) : Prop :=
  (ls = [] ∧ new = old) ∨ (ls ≠ [] ∧ new = some (Lines.ended sep (old.getD []) ++ Lines.join sep ls))

variable {sep} {s : Store P α} {p : P} {l : List α} {cs : List (P × List α)}

/-! ## One line -/

theorem append_present {c : P × List α} (h : c.2 ∈ linesAt sep s c.1) : append sep s c = s := if_pos h

theorem append_other {c : P × List α} (h : c.1 ≠ p) : append sep s c p = s p := by
  unfold append
  split
  · rfl
  · exact Function.update_of_ne h.symm _ _

theorem append_same (h : l ∉ linesAt sep s p) :
    append sep s (p, l) p = some (Lines.ended sep ((s p).getD []) ++ (l ++ [sep])) := by
  rw [append, if_neg h]
  exact Function.update_self ..

theorem linesAt_append_same (h : l ∉ linesAt sep s p) :
    linesAt sep (append sep s (p, l)) p = linesAt sep s p ++ Lines.split sep (l ++ [sep]) := by
  rw [linesAt, append_same h, Option.getD_some, Lines.split_ended_append]
  rfl

/-- A file keeps its lines. -/
theorem mem_linesAt_append {c : P × List α} (h : l ∈ linesAt sep s p) : l ∈ linesAt sep (append sep s c) p := by
  by_cases hp : c.1 = p
  · subst hp
    by_cases hc : c.2 ∈ linesAt sep s c.1
    · rw [append_present hc]
      exact h
    · rw [linesAt_append_same hc]
      exact List.mem_append_left _ h
  · rw [linesAt, append_other hp]
    exact h

theorem mem_linesAt_self {c : P × List α} (h : sep ∉ c.2) : c.2 ∈ linesAt sep (append sep s c) c.1 := by
  by_cases hc : c.2 ∈ linesAt sep s c.1
  · rw [append_present hc]
    exact hc
  · rw [linesAt_append_same hc, Lines.split_line_append h]
    simp

/-! ## Contents that were extended -/

theorem Extended.refl (old : Option (List α)) : Extended sep old [] old := Or.inl ⟨rfl, rfl⟩

/-- A line, and lines behind it. -/
theorem Extended.cons {old new : Option (List α)} {ls : List (List α)}
    (h : Extended sep (some (Lines.ended sep (old.getD []) ++ (l ++ [sep]))) ls new) : Extended sep old (l :: ls) new := by
  refine Or.inr ⟨List.cons_ne_nil l ls, ?_⟩
  rcases h with ⟨rfl, rfl⟩ | ⟨-, rfl⟩
  · rw [Lines.join_cons, Lines.join_nil]
  · rw [Option.getD_some, ← List.append_assoc _ l, Lines.ended_append_sep, Lines.join_cons]
    simp

/-- Contents with a line more are not the old ones. -/
theorem Extended.ne {old new : Option (List α)} {ls : List (List α)} (h : Extended sep old ls new) (hne : ls ≠ []) :
    new ≠ old := by
  rcases h with ⟨rfl, -⟩ | ⟨-, rfl⟩
  · exact absurd rfl hne
  · intro hold
    have hlen : (Lines.ended sep (old.getD []) ++ Lines.join sep ls).length = (old.getD []).length :=
      congrArg (fun o => (Option.getD o []).length) hold
    have hended : (old.getD []).length ≤ (Lines.ended sep (old.getD [])).length := Lines.length_le_ended _
    cases ls with
    | nil => exact hne rfl
    | cons l ls =>
        rw [Lines.join_cons, List.length_append, List.length_append, List.length_cons] at hlen
        omega

/-- The lines of contents that were extended. -/
theorem Extended.lines {old new : Option (List α)} {ls : List (List α)} (h : Extended sep old ls new)
    (hls : ∀ l ∈ ls, sep ∉ l) : Lines.split sep (new.getD []) = Lines.split sep (old.getD []) ++ ls := by
  rcases h with ⟨rfl, rfl⟩ | ⟨-, rfl⟩
  · rw [List.append_nil]
  · rw [Option.getD_some, Lines.split_ended_append, Lines.split_join hls]

/-! ## A sequence of lines -/

/-- Every file is extended by lines that are meant for it and that it did not have. -/
theorem foldl_extended (cs : List (P × List α)) : ∀ (s : Store P α) (p : P), ∃ ls,
    Extended sep (s p) ls (cs.foldl (append sep) s p) ∧ (∀ l ∈ ls, (p, l) ∈ cs ∧ l ∉ linesAt sep s p) ∧
      ((∃ l, (p, l) ∈ cs ∧ l ∉ linesAt sep s p) → ls ≠ []) := by
  induction cs with
  | nil => exact fun s p => ⟨[], Extended.refl _, fun l hl => absurd hl List.not_mem_nil, nofun⟩
  | cons c cs ih =>
      intro s p
      obtain ⟨ls, hext, hmem, hnew⟩ := ih (append sep s c) p
      rw [List.foldl_cons]
      by_cases hc : c.1 = p ∧ c.2 ∉ linesAt sep s p
      · -- the first line is new
        obtain ⟨rfl, hc⟩ := hc
        rw [show append sep s c c.1 = _ from append_same hc] at hext
        refine ⟨c.2 :: ls, hext.cons, List.forall_mem_cons.mpr ⟨⟨List.mem_cons_self, hc⟩, fun l hl => ?_⟩,
          fun _ => List.cons_ne_nil _ _⟩
        exact ⟨List.mem_cons_of_mem c (hmem l hl).1, fun h => (hmem l hl).2 (mem_linesAt_append h)⟩
      · -- the first line leaves this file as it is
        have hsame : append sep s c p = s p := by
          by_cases hp : c.1 = p
          · subst hp
            rw [append_present (not_not.mp fun h => hc ⟨rfl, h⟩)]
          · exact append_other hp
        have hlines : linesAt sep (append sep s c) p = linesAt sep s p := by rw [linesAt, hsame, linesAt]
        rw [hsame] at hext
        rw [hlines] at hmem hnew
        refine ⟨ls, hext, fun l hl => ⟨List.mem_cons_of_mem c (hmem l hl).1, (hmem l hl).2⟩, ?_⟩
        rintro ⟨l, hl, hno⟩
        rcases List.mem_cons.mp hl with rfl | hl
        · exact absurd ⟨rfl, hno⟩ hc
        · exact hnew ⟨l, hl, hno⟩

/-- A file gets something when one of its lines is new. -/
theorem foldl_ne (hl : (p, l) ∈ cs) (hno : l ∉ linesAt sep s p) : cs.foldl (append sep) s p ≠ s p := by
  obtain ⟨ls, hext, -, hnew⟩ := foldl_extended cs s p
  exact hext.ne (hnew ⟨l, hl, hno⟩)

/-- A file that changes had a line that is new. -/
theorem exists_of_foldl_ne (h : cs.foldl (append sep) s p ≠ s p) : ∃ l, (p, l) ∈ cs ∧ l ∉ linesAt sep s p := by
  obtain ⟨ls, hext, hmem, -⟩ := foldl_extended cs s p
  rcases hext with ⟨-, hsame⟩ | ⟨hne, -⟩
  · exact absurd hsame h
  · obtain ⟨l, hl⟩ := List.exists_mem_of_ne_nil ls hne
    exact ⟨l, hmem l hl⟩

theorem mem_linesAt_foldl (cs : List (P × List α)) : ∀ {s : Store P α}, l ∈ linesAt sep s p →
    l ∈ linesAt sep (cs.foldl (append sep) s) p := by
  induction cs with
  | nil => exact fun h => h
  | cons c cs ih => exact fun h => ih (mem_linesAt_append h)

/-- Afterwards every file has the lines that are meant for it. -/
theorem foldl_mem (hcs : ∀ c ∈ cs, sep ∉ c.2) {c : P × List α} (hc : c ∈ cs) :
    c.2 ∈ linesAt sep (cs.foldl (append sep) s) c.1 := by
  induction cs generalizing s with
  | nil => cases hc
  | cons d cs ih =>
      obtain ⟨hd, hcs⟩ := List.forall_mem_cons.mp hcs
      rcases List.mem_cons.mp hc with rfl | hc
      · exact mem_linesAt_foldl cs (mem_linesAt_self hd)
      · exact ih hcs hc

theorem foldl_present (h : ∀ c ∈ cs, c.2 ∈ linesAt sep s c.1) : cs.foldl (append sep) s = s := by
  induction cs with
  | nil => rfl
  | cons c cs ih =>
      obtain ⟨hc, hcs⟩ := List.forall_mem_cons.mp h
      rw [List.foldl_cons, append_present hc]
      exact ih hcs

/-- The same lines a second time change nothing. -/
theorem foldl_again (hcs : ∀ c ∈ cs, sep ∉ c.2) :
    cs.foldl (append sep) (cs.foldl (append sep) s) = cs.foldl (append sep) s :=
  foldl_present fun _ hc => foldl_mem hcs hc

end Guppy.LineFiles
