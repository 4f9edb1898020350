import Guppy.Lib.Nesting
import Guppy.Pkg.Control

set_option autoImplicit false

/-! # Maintainer scripts without a shell

`process_postinst_fresh` of `src/pkg_configure.c` goes through the lines of a `postinst` script and
performs the two kinds of actions that it knows, on a target where no earlier version of the package
was. What is for upgrades stands behind a guard that compares versions and is left out. The function
counts guards, and takes every `fi` behind a guard for the end of one.
-/

namespace Guppy.Pkg.Postinst

open Vfs Archive

/-! ## The scanner -/

/-- `trim` -/
def trim (s : Text) : Text := (s.dropWhile isBlank).rdropWhile isBlank

/-- `strstr`: the text from the first occurrence on. -/
def strstr (needle : Text) : Text → Option Text
  | [] => if needle = [] then some [] else none
  | c :: t => if needle <+: c :: t then some (c :: t) else strstr needle t

def has (line : Text) (needle : String) : Bool := (strstr (ascii needle) line).isSome

def starts (line : Text) (start : String) : Bool := ascii start <+: line

/-- `extract_tmpfiles_name` -/
def extractTmpfilesName (cap : Nat) (line : Text) : Option Text :=
  match strstr (ascii "--create") line with
  | none => none
  | some p =>
      let p := (p.drop 8).dropWhile isBlank
      let p := if p.head? = some 34 ∨ p.head? = some 39 then p.drop 1 else p
      let name := p.takeWhile (fun c => !isBlank c && c ≠ 34 && c ≠ 39 && c ≠ 59 && c ≠ 124)
      if cap ≤ name.length ∨ name = [] then none else some name

/-- The name behind `dpkg-trigger --no-await`. -/
def triggerName (line : Text) : Text :=
  (trim (line.drop 24)).takeWhile (fun c => !isBlank c && c ≠ 59 && c ≠ 124)

/-- What the scanner can do to the target: `tmpfiles_apply` and `pkg_trigger_activate_noawait`. -/
inductive Action
  | tmpfiles (conf : Text)
  | trigger (name : Text)
  deriving DecidableEq

def isStructural (line : Text) : Bool := line = [] ∨ line.head? = some 35 ∨ starts line "#!" ∨ line = ascii "set -e"

def isGuard (line : Text) : Bool :=
  !isStructural line && has line "dpkg --compare-versions \"$2\"" && has line "if [ \"$1\" = configure ]"

def isFi (line : Text) : Bool := line = ascii "fi"

/-- A line with `guardDepth` guards before it: the guards behind it and the action to perform. Without
a result the script is not supported. -/
def lineStep (guardDepth : Nat) (line : Text) : Option (Nat × Option Action) :=
  if isStructural line = true then some (guardDepth, none)
  else if isGuard line = true then some (guardDepth + 1, none)
  else if guardDepth ≠ 0 then some (if isFi line = true then guardDepth - 1 else guardDepth, none)
  else if starts line "if [ \"$1\" = \"configure\" ]" && has line "abort-" then some (guardDepth, none)
  else if has line "if [ -x \"$(command -v systemd-tmpfiles)\" ]; then" then some (guardDepth, none)
  else if has line "systemd-tmpfiles" && has line "--create" then
    (extractTmpfilesName 256 line).map (fun conf => (guardDepth, some (.tmpfiles conf)))
  else if isFi line = true then some (guardDepth, none)
  else if starts line "dpkg-trigger --no-await " then some (guardDepth, some (.trigger (triggerName line)))
  else none

/-- What a run returns, and the actions it tried with the numbers of their lines. -/
structure Run where
  rc : Int
  calls : List (Nat × Action)
  deriving DecidableEq

/-- The loop over the lines. Whether an action works depends on those before it. -/
def postinstLoop (works : List (Nat × Action) → Action → Bool) : Nat → Nat → List (Nat × Action) → List Text → Run
  | guardDepth, _, calls, [] => ⟨if guardDepth ≠ 0 then 1 else 0, calls⟩
  | guardDepth, n, calls, line :: lines =>
      match lineStep guardDepth line with
      | none => ⟨1, calls⟩
      | some (guardDepth, none) => postinstLoop works guardDepth (n + 1) calls lines
      | some (guardDepth, some a) =>
          if works calls a = true then postinstLoop works guardDepth (n + 1) (calls ++ [(n, a)]) lines
          else ⟨1, calls ++ [(n, a)]⟩

/-- The lines of a script, trimmed. -/
def scriptLinesFrom : Nat → Text → List Text
  | 0, _ => []
  | _ + 1, [] => []
  | fuel + 1, cur => trim (cur.takeWhile (· ≠ 10)) :: scriptLinesFrom fuel ((cur.dropWhile (· ≠ 10)).drop 1)

def scriptLines (script : Text) : List Text := scriptLinesFrom (cText script).length (cText script)

/-- `process_postinst_fresh`: a package without a script needs nothing. -/
def processPostinstFresh (works : List (Nat × Action) → Action → Bool) (script : Option Text) : Run :=
  match script with
  | none => ⟨0, []⟩
  | some script => postinstLoop works 0 0 [] (scriptLines script)

/-! ## Blocks -/

/-- A line that opens a block: its first word is `if`. -/
def isIf (line : Text) : Bool := line.takeWhile (fun c => !isBlank c) = ascii "if"

/-- As many lines `fi` as there are blocks, each behind its block. -/
def Balanced (lines : List Text) : Prop :=
  Nesting.StaysOpen isFi isIf lines ∧ lines.countP isFi = lines.countP isIf

/-- Behind these lines a block is open that a guard opened. -/
def InGuard (lines : List Text) : Prop := Nesting.Inside isFi isIf isGuard lines

/-- By the count of guards and lines `fi`, a guard is open behind these lines. -/
def Counted (lines : List Text) : Prop := Nesting.Raised isGuard isFi lines

/-- The action of a line outside of guards. -/
def actionOf (line : Text) : Option Action := (lineStep 0 line).bind (·.2)

def actionAt (lines : List Text) (i : Nat) : Option Action := lines[i]?.bind actionOf

/-- Nothing for upgrades is done, and a run that succeeds has done all else. -/
def SkipsGuards (script : Text) : Prop :=
  ∀ works, let run := processPostinstFresh works (some script)
    (∀ p ∈ run.calls, ¬ InGuard ((scriptLines script).take p.1)) ∧
    (run.rc = 0 → ∀ i a, actionAt (scriptLines script) i = some a → ¬ InGuard ((scriptLines script).take i) → (i, a) ∈ run.calls)

/-- No line before this one makes the scanner give up. -/
def Reached (lines : List Text) (i : Nat) : Prop :=
  ∀ j line, j < i → lines[j]? = some line → lineStep 0 line = none → Counted (lines.take j)

/-- Where the count of guards and lines `fi` has the blocks right. -/
structure CountsRight (lines : List Text) : Prop where
  inside : ∀ i a, actionAt lines i = some a → Reached lines i → InGuard (lines.take i) → Counted (lines.take i)
  outside : Reached lines lines.length → ¬ Counted lines → ∀ i a, actionAt lines i = some a →
    Counted (lines.take i) → InGuard (lines.take i)

/-! ## A line -/

theorem guard_not_fi (line : Text) (h : isGuard line = true) : isFi line = false := by
  by_contra hfi
  have heq : line = ascii "fi" := by simpa [isFi] using hfi
  rw [heq] at h
  exact absurd h (by decide)

/-- The guards that the scanner has counted behind some lines. -/
def guardDepth (lines : List Text) : Nat := Nesting.depth isGuard isFi lines

theorem guardDepth_eq_zero_iff (lines : List Text) : guardDepth lines = 0 ↔ ¬ Counted lines :=
  Nesting.depth_eq_zero_iff guard_not_fi lines

theorem structural_not_fi {line : Text} (h : isStructural line = true) : isGuard line = false ∧ isFi line = false := by
  constructor
  · unfold isGuard
    rw [h]
    rfl
  · by_contra hfi
    have heq : line = ascii "fi" := by simpa [isFi] using hfi
    rw [heq] at h
    exact absurd h (by decide)

/-- Within a guard only the count changes. -/
theorem lineStep_counted {d : Nat} (hd : d ≠ 0) (line : Text) :
    lineStep d line = some (Nesting.step isGuard isFi d line, none) := by
  unfold lineStep Nesting.step
  by_cases hs : isStructural line = true
  · obtain ⟨hg, hf⟩ := structural_not_fi hs
    simp [hs, hg, hf]
  · rw [if_neg hs]
    by_cases hg : isGuard line = true
    · rw [if_pos hg, if_pos hg]
    · rw [if_neg hg, if_neg hg, if_pos hd]

theorem lineStep_top (line : Text) :
    lineStep 0 line = none ∨ lineStep 0 line = some (Nesting.step isGuard isFi 0 line, actionOf line) := by
  have hstep : ¬ isGuard line = true → Nesting.step isGuard isFi 0 line = 0 := by
    intro hg
    unfold Nesting.step
    rw [if_neg hg]
    split <;> rfl
  unfold actionOf lineStep
  by_cases hs : isStructural line = true
  · rw [if_pos hs, hstep (by simp [(structural_not_fi hs).1])]
    exact Or.inr rfl
  · rw [if_neg hs]
    by_cases hg : isGuard line = true
    · rw [if_pos hg]
      refine Or.inr ?_
      unfold Nesting.step
      rw [if_pos hg]
      rfl
    · rw [if_neg hg, hstep hg, if_neg (fun h => h rfl)]
      -- outside of guards the depth stays what it is
      split
      · exact Or.inr rfl
      · split
        · exact Or.inr rfl
        · split
          · cases extractTmpfilesName 256 line with
            | none => exact Or.inl rfl
            | some conf => exact Or.inr rfl
          · split
            · exact Or.inr rfl
            · split
              · exact Or.inr rfl
              · exact Or.inl rfl

theorem guardDepth_concat (pre : List Text) (line : Text) :
    guardDepth (pre ++ [line]) = Nesting.step isGuard isFi (guardDepth pre) line := Nesting.depth_concat _ _ pre line

/-! ## A run -/

section

variable {works : List (Nat × Action) → Action → Bool}

theorem loop_cons_stop {d n : Nat} {calls : List (Nat × Action)} {line : Text} {lines : List Text}
    (h : lineStep d line = none) : postinstLoop works d n calls (line :: lines) = ⟨1, calls⟩ := by
  rw [postinstLoop, h]

theorem loop_cons_go {d d' n : Nat} {calls : List (Nat × Action)} {line : Text} {lines : List Text}
    (h : lineStep d line = some (d', none)) :
    postinstLoop works d n calls (line :: lines) = postinstLoop works d' (n + 1) calls lines := by
  rw [postinstLoop, h]

theorem loop_cons_call {d d' n : Nat} {calls : List (Nat × Action)} {line : Text} {lines : List Text} {a : Action}
    (h : lineStep d line = some (d', some a)) :
    postinstLoop works d n calls (line :: lines) =
      if works calls a = true then postinstLoop works d' (n + 1) (calls ++ [(n, a)]) lines
      else ⟨1, calls ++ [(n, a)]⟩ := by
  rw [postinstLoop, h]

/-- What can happen at a line. -/
theorem line_cases (pre : List Text) (line : Text) :
    (¬ Counted pre ∧ lineStep (guardDepth pre) line = none ∧ lineStep 0 line = none) ∨
    ((Counted pre ∨ actionOf line = none) ∧ lineStep (guardDepth pre) line = some (guardDepth (pre ++ [line]), none)) ∨
    (¬ Counted pre ∧ ∃ a, actionOf line = some a ∧
      lineStep (guardDepth pre) line = some (guardDepth (pre ++ [line]), some a)) := by
  rw [guardDepth_concat]
  by_cases hc : Counted pre
  · have hd : guardDepth pre ≠ 0 := fun h => (guardDepth_eq_zero_iff pre).mp h hc
    exact Or.inr (Or.inl ⟨Or.inl hc, lineStep_counted hd line⟩)
  · rw [(guardDepth_eq_zero_iff pre).mpr hc]
    rcases lineStep_top line with h | h
    · exact Or.inl ⟨hc, h, h⟩
    · cases ha : actionOf line with
      | none => exact Or.inr (Or.inl ⟨Or.inr rfl, ha ▸ h⟩)
      | some a => exact Or.inr (Or.inr ⟨hc, a, rfl, ha ▸ h⟩)

theorem at_line {all pre lines : List Text} {line : Text} (h : all = pre ++ line :: lines) :
    all[pre.length]? = some line ∧ all.take pre.length = pre ∧ all = (pre ++ [line]) ++ lines := by
  subst h
  simp

theorem reached_succ {all : List Text} {i : Nat} (h : Reached all i)
    (hi : ∀ line, all[i]? = some line → lineStep 0 line = none → Counted (all.take i)) : Reached all (i + 1) := by
  intro j line hj hline hnone
  by_cases hlast : j = i
  · subst hlast
    exact hi line hline hnone
  · exact h j line (by omega) hline hnone

/-- A line that the scanner gets over. -/
theorem reached_next {all pre lines : List Text} {line : Text} {r : Nat × Option Action} (h : all = pre ++ line :: lines)
    (hreached : Reached all pre.length) (hgo : lineStep (guardDepth pre) line = some r) :
    Reached all (pre ++ [line]).length := by
  obtain ⟨hline, htake, _⟩ := at_line h
  rw [show (pre ++ [line]).length = pre.length + 1 by simp]
  refine reached_succ hreached fun l hl hnone => ?_
  rw [htake]
  by_contra hc
  obtain rfl : line = l := Option.some.inj (hline.symm.trans hl)
  rw [(guardDepth_eq_zero_iff pre).mpr hc, hnone] at hgo
  cases hgo

/-- What is tried is an action outside of the guards as they are counted, on a line that is reached. -/
theorem loop_calls {all : List Text} (lines : List Text) : ∀ {pre : List Text} {calls : List (Nat × Action)},
    all = pre ++ lines → Reached all pre.length →
    ∀ p ∈ (postinstLoop works (guardDepth pre) pre.length calls lines).calls, p ∈ calls ∨
      (actionAt all p.1 = some p.2 ∧ ¬ Counted (all.take p.1) ∧ Reached all p.1) := by
  induction lines with
  | nil => exact fun _ _ p hp => Or.inl hp
  | cons line lines ih =>
      intro pre calls hall hreached p hp
      obtain ⟨hline, htake, hnext⟩ := at_line hall
      have hlen : (pre ++ [line]).length = pre.length + 1 := by simp
      rcases line_cases pre line with ⟨_, hstop, _⟩ | ⟨hskip, hgo⟩ | ⟨hout, a, ha, hcall⟩
      · rw [loop_cons_stop hstop] at hp
        exact Or.inl hp
      · rw [loop_cons_go hgo, ← hlen] at hp
        exact ih hnext (reached_next hall hreached hgo) p hp
      · have hdone : actionAt all pre.length = some a ∧ ¬ Counted (all.take pre.length) ∧ Reached all pre.length := by
          refine ⟨?_, by rwa [htake], hreached⟩
          unfold actionAt
          rw [hline]
          exact ha
        have hmore : ∀ q ∈ calls ++ [(pre.length, a)], q ∈ calls ∨
            (actionAt all q.1 = some q.2 ∧ ¬ Counted (all.take q.1) ∧ Reached all q.1) := by
          intro q hq
          rcases List.mem_append.mp hq with hq | hq
          · exact Or.inl hq
          · obtain rfl := List.mem_singleton.mp hq
            exact Or.inr hdone
        rw [loop_cons_call hcall] at hp
        split at hp
        · rw [← hlen] at hp
          exact (ih hnext (reached_next hall hreached hcall) p hp).elim (hmore p) Or.inr
        · exact hmore p hp

/-- A run that succeeds has reached every line, with all guards closed by the count, and has performed
every action outside of them. -/
theorem loop_complete {all : List Text} (lines : List Text) : ∀ {pre : List Text} {calls : List (Nat × Action)},
    all = pre ++ lines → Reached all pre.length → (postinstLoop works (guardDepth pre) pre.length calls lines).rc = 0 →
    Reached all all.length ∧ ¬ Counted all ∧
      (∀ p ∈ calls, p ∈ (postinstLoop works (guardDepth pre) pre.length calls lines).calls) ∧
      ∀ i a, pre.length ≤ i → actionAt all i = some a → ¬ Counted (all.take i) →
        (i, a) ∈ (postinstLoop works (guardDepth pre) pre.length calls lines).calls := by
  induction lines with
  | nil =>
      intro pre calls hall hreached hrc
      rw [List.append_nil] at hall
      subst hall
      have hzero : guardDepth all = 0 := by
        by_contra hne
        rw [postinstLoop, if_pos hne] at hrc
        cases hrc
      refine ⟨hreached, (guardDepth_eq_zero_iff all).mp hzero, fun p hp => hp, fun i a hi ha _ => ?_⟩
      unfold actionAt at ha
      rw [List.getElem?_eq_none hi] at ha
      cases ha
  | cons line lines ih =>
      intro pre calls hall hreached hrc
      obtain ⟨hline, htake, hnext⟩ := at_line hall
      have hlen : (pre ++ [line]).length = pre.length + 1 := by simp
      rcases line_cases pre line with ⟨_, hstop, _⟩ | ⟨hskip, hgo⟩ | ⟨hout, a, ha, hcall⟩
      · rw [loop_cons_stop hstop] at hrc
        cases hrc
      · rw [loop_cons_go hgo, ← hlen] at hrc ⊢
        obtain ⟨hend, hclosed, hkept, hrest⟩ := ih hnext (reached_next hall hreached hgo) hrc
        refine ⟨hend, hclosed, hkept, fun i a hi ha hc => ?_⟩
        by_cases hi' : i = pre.length
        · subst hi'
          rw [htake] at hc
          unfold actionAt at ha
          rw [hline] at ha
          rcases hskip with h | h
          · exact absurd h hc
          · exact absurd (h.symm.trans ha) (by simp)
        · exact hrest i a (by omega) ha hc
      · rw [loop_cons_call hcall] at hrc ⊢
        split at hrc
        · rename_i hworks
          rw [if_pos hworks, ← hlen]
          rw [← hlen] at hrc
          obtain ⟨hend, hclosed, hkept, hrest⟩ := ih hnext (reached_next hall hreached hcall) hrc
          refine ⟨hend, hclosed, fun p hp => hkept p (List.mem_append_left _ hp), fun i b hi hb hc => ?_⟩
          by_cases hi' : i = pre.length
          · subst hi'
            unfold actionAt at hb
            rw [hline] at hb
            obtain rfl : a = b := Option.some.inj (ha.symm.trans hb)
            exact hkept _ (by simp [hlen])
          · exact hrest i b (by omega) hb hc
        · cases hrc

/-- When every action works, each one that is reached outside of the guards is performed, and the run
succeeds unless a line or the count stops it. -/
theorem loop_all {all : List Text} (hworks : ∀ calls a, works calls a = true) (lines : List Text) :
    ∀ {pre : List Text} {calls : List (Nat × Action)}, all = pre ++ lines →
    (∀ p ∈ calls, p ∈ (postinstLoop works (guardDepth pre) pre.length calls lines).calls) ∧
    (∀ i a, pre.length ≤ i → actionAt all i = some a → ¬ Counted (all.take i) → Reached all i →
      (i, a) ∈ (postinstLoop works (guardDepth pre) pre.length calls lines).calls) ∧
    (Reached all all.length → ¬ Counted all → (postinstLoop works (guardDepth pre) pre.length calls lines).rc = 0) := by
  induction lines with
  | nil =>
      intro pre calls hall
      rw [List.append_nil] at hall
      subst hall
      refine ⟨fun p hp => hp, fun i a hi ha _ _ => ?_, fun _ hclosed => ?_⟩
      · unfold actionAt at ha
        rw [List.getElem?_eq_none hi] at ha
        cases ha
      · rw [postinstLoop, if_neg (fun h => h ((guardDepth_eq_zero_iff all).mpr hclosed))]
  | cons line lines ih =>
      intro pre calls hall
      obtain ⟨hline, htake, hnext⟩ := at_line hall
      have hlen : (pre ++ [line]).length = pre.length + 1 := by simp
      rcases line_cases pre line with ⟨hout, hstop, hnone⟩ | ⟨hskip, hgo⟩ | ⟨hout, a, ha, hcall⟩
      · -- nothing behind this line is reached
        rw [loop_cons_stop hstop]
        refine ⟨fun p hp => hp, fun i a hi ha _ hreached => ?_, fun hreached _ => ?_⟩
        · by_cases hi' : i = pre.length
          · subst hi'
            unfold actionAt actionOf at ha
            rw [hline, Option.bind_some, hnone] at ha
            cases ha
          · exact absurd (htake ▸ hreached pre.length line (by omega) hline hnone) hout
        · exact absurd (htake ▸ hreached pre.length line (by rw [hall]; simp) hline hnone) hout
      · rw [loop_cons_go hgo, ← hlen]
        obtain ⟨hkept, hrest, hrc⟩ := @ih (pre ++ [line]) calls hnext
        refine ⟨hkept, fun i a hi ha hc hreached => ?_, hrc⟩
        by_cases hi' : i = pre.length
        · subst hi'
          rw [htake] at hc
          unfold actionAt at ha
          rw [hline] at ha
          rcases hskip with h | h
          · exact absurd h hc
          · exact absurd (h.symm.trans ha) (by simp)
        · exact hrest i a (by omega) ha hc hreached
      · rw [loop_cons_call hcall, if_pos (hworks _ _), ← hlen]
        obtain ⟨hkept, hrest, hrc⟩ := @ih (pre ++ [line]) (calls ++ [((pre ++ [line]).length - 1, a)]) hnext
        have hlast : (pre ++ [line]).length - 1 = pre.length := by simp
        rw [hlast] at hkept hrest hrc
        refine ⟨fun p hp => hkept p (List.mem_append_left _ hp), fun i b hi hb hc hreached => ?_, hrc⟩
        by_cases hi' : i = pre.length
        · subst hi'
          unfold actionAt at hb
          rw [hline] at hb
          obtain rfl : a = b := Option.some.inj (ha.symm.trans hb)
          exact hkept _ (by simp)
        · exact hrest i b (by omega) hb hc hreached

end

/-! ## Scripts -/

theorem run_eq (works : List (Nat × Action) → Action → Bool) (script : Text) : processPostinstFresh works (some script) =
    postinstLoop works (guardDepth []) ([] : List Text).length [] (scriptLines script) := rfl

theorem reached_zero (lines : List Text) : Reached lines 0 := fun j _ hj => absurd hj (Nat.not_lt_zero j)

/-- When the count of guards and lines `fi` does for the blocks. -/
theorem skipsGuards_iff (script : Text) : SkipsGuards script ↔ CountsRight (scriptLines script) := by
  obtain ⟨lines, hlines⟩ : ∃ lines, lines = scriptLines script := ⟨_, rfl⟩
  have hall : lines = [] ++ lines := rfl
  unfold SkipsGuards
  dsimp only []
  simp only [run_eq, ← hlines]
  constructor
  · intro h
    obtain ⟨hsafe, hdone⟩ := h (fun _ _ => true)
    obtain ⟨_, hcalled, hrc⟩ := @loop_all (fun _ _ => true) lines (fun _ _ => rfl) lines [] [] hall
    constructor
    · intro i a ha hreached hin
      by_contra hc
      exact hsafe _ (hcalled i a (Nat.zero_le i) ha hc hreached) hin
    · intro hreached hclosed i a ha hc
      by_contra hout
      have hmem := hdone (hrc hreached hclosed) i a ha hout
      rcases loop_calls lines hall (reached_zero lines) _ hmem with hnil | ⟨_, hnot, _⟩
      · cases hnil
      · exact hnot hc
  · intro h works
    constructor
    · intro p hp hin
      rcases loop_calls lines hall (reached_zero lines) p hp with hnil | ⟨ha, hnot, hreached⟩
      · cases hnil
      · exact hnot (h.inside p.1 p.2 ha hreached hin)
    · intro hrc i a ha hout
      obtain ⟨hreached, hclosed, _, hcalled⟩ := loop_complete lines hall (reached_zero lines) hrc
      refine hcalled i a (Nat.zero_le i) ha fun hc => ?_
      exact hout (h.outside hreached hclosed i a ha hc)

/-- Scripts whose guards are `if` lines, with no other `if` within their blocks. -/
structure Flat (lines : List Text) : Prop where
  opens : ∀ line ∈ lines, isGuard line = true → isIf line = true
  guards : ∀ pre line, pre ++ [line] <+: lines → InGuard pre → isIf line = true → isGuard line = true

theorem countsRight_of_flat {lines : List Text} (h : Flat lines) : CountsRight lines := by
  constructor
  · intro i a _ _ hin
    refine Nesting.raised_of_inside guard_not_fi (fun pre line hpre => ?_) hin
    exact h.guards pre line (hpre.trans (List.take_prefix i lines))
  · intro _ _ i a _ hc
    exact Nesting.inside_of_raised (fun line hline => h.opens line (List.mem_of_mem_take hline)) hc

def guardLine : Text := ascii "if [ \"$1\" = configure ] && dpkg --compare-versions \"$2\" lt 1; then"

/-- A test within a guard, and an action behind the test. -/
def nestedScript : Text :=
  guardLine ++ ascii "\nif [ -x foo ]; then\nfi\nsystemd-tmpfiles --create x.conf\nfi\n"

theorem nested_action_performed : Balanced (scriptLines nestedScript) ∧ InGuard ((scriptLines nestedScript).take 3) ∧
    processPostinstFresh (fun _ _ => true) (some nestedScript) = ⟨0, [(3, .tmpfiles (ascii "x.conf"))]⟩ := by
  have hlines : scriptLines nestedScript =
      [guardLine, ascii "if [ -x foo ]; then", ascii "fi", ascii "systemd-tmpfiles --create x.conf", ascii "fi"] := by
    decide +kernel
  refine ⟨?_, ?_, ?_⟩
  · rw [hlines]
    constructor
    · decide +kernel
    · decide +kernel
  · rw [hlines]
    refine ⟨[], guardLine, [ascii "if [ -x foo ]; then", ascii "fi"], rfl, ?_, ?_, ?_⟩
    · decide +kernel
    · decide +kernel
    · decide +kernel
  · decide +kernel

end Guppy.Pkg.Postinst
