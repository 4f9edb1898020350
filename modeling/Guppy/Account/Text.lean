import Guppy.Lib.Lines
import Guppy.Pkg.Depends
import Guppy.Vfs.Path
import Mathlib.Data.List.GetD

set_option autoImplicit false

/-! # The account files

The text functions of `src/account_util.c`. An account file has one line for each name, with the name in front of the
first colon. `account_append_line` and `account_replace_named_line` put a line into such a file; the second copies line
by line into a buffer that it grows by hand. Both leave the lines of all other names as they are (`account_lines`).
-/

namespace Guppy.Account

open Vfs (Text)
open Pkg (isAlnum isDigit)

/-! ## The code -/

/-- `isalpha` -/
def isAlpha (c : UInt8) : Bool := isAlnum c && !isDigit c

/-- `account_valid_name` -/
def accountValidName : Text → Bool
  | [] => false
  | c :: rest =>
      (isAlpha c || c = 95) && rest.all (fun c => isAlnum c || c = 95 || c = 45) && decide ((c :: rest).length ≤ 31)

/-- The lines that the loops over a text come to: up to the next newline, or all that is left. -/
def textLinesFrom : Nat → Text → List Text
  | 0, _ => []
  | _ + 1, [] => []
  | fuel + 1, c :: t => (c :: t).takeWhile (fun c => decide (c ≠ 10)) ::
      textLinesFrom fuel (((c :: t).dropWhile fun c => decide (c ≠ 10)).drop 1)

def textLines (text : Text) : List Text := textLinesFrom text.length text

/-- The test for a line of a name: it is longer than the name, starts with it, and a colon follows. -/
def isEntryOf (name line : Text) : Bool :=
  name.length < line.length && line.take name.length = name && line.getD name.length 0 = 58

/-- `account_has_name` -/
def accountHasName (text name : Text) : Bool := (textLines text).any (isEntryOf name)

/-- `account_append_line`, into a buffer of the size that it computes -/
def accountAppendLine (oldText line : Text) : Option Text :=
  let a := oldText.length
  let b := line.length
  let needNl := a ≠ 0 ∧ oldText.getLast? ≠ some 10
  let cap := a + (if needNl then 1 else 0) + b + 2
  let o := oldText ++ (if needNl then [10] else []) ++ line ++ if b = 0 ∨ line.getLast? ≠ some 10 then [10] else []
  if o.length < cap then some o else none

/-- The output of `account_replace_named_line`: what was written, and the size of the buffer. -/
structure OutBuf where
  out : Text
  cap : Nat

/-- A line and a newline, in a buffer that is grown when there is no room for them and a zero; nothing when they are
written behind its end. -/
def OutBuf.put (b : OutBuf) (grow : Nat → Nat) (src : Text) : Option OutBuf :=
  let need := b.out.length + src.length + 2
  let cap := if need > b.cap then grow need else b.cap
  if b.out.length + src.length + 1 ≤ cap then some ⟨b.out ++ src ++ [10], cap⟩ else none

/-- The loop of `account_replace_named_line` -/
def replaceLoop (name newline : Text) : List Text → OutBuf → Bool → Option (OutBuf × Bool)
  | [], b, replaced => some (b, replaced)
  | line :: lines, b, replaced =>
      let hit := isEntryOf name line
      match b.put (· * 2) (if hit then newline else line) with
      | none => none
      | some b => replaceLoop name newline lines b (replaced || hit)

/-- `account_replace_named_line`; the last write is the zero behind the text. -/
def accountReplaceNamedLine (oldText name newline : Text) : Option Text :=
  match replaceLoop name newline (textLines oldText) ⟨[], oldText.length + newline.length + 64⟩ false with
  | none => none
  | some (b, replaced) =>
      match if replaced then some b else b.put id newline with
      | none => none
      | some b => if b.out.length < b.cap then some b.out else none

/-! ## Lines -/

theorem textLinesFrom_eq (fuel : Nat) : ∀ {t : Text}, t.length ≤ fuel → textLinesFrom fuel t = Lines.split 10 t := by
  induction fuel with
  | zero =>
      intro t ht
      rw [List.length_eq_zero_iff.mp (Nat.le_zero.mp ht)]
      rfl
  | succ fuel ih =>
      intro t ht
      cases t with
      | nil => rfl
      | cons c t =>
          have hrest : (((c :: t).dropWhile fun c => decide (c ≠ 10)).drop 1).length ≤ fuel := by
            have hle := List.length_dropWhile_le (fun c : UInt8 => decide (c ≠ 10)) (c :: t)
            rw [List.length_drop]
            rw [List.length_cons] at ht hle
            omega
          rw [textLinesFrom, ih hrest, Lines.split_cut (List.cons_ne_nil c t)]

theorem textLines_eq (text : Text) : textLines text = Lines.split 10 text := textLinesFrom_eq _ le_rfl

theorem textLines_join {ls : List Text} (h : ∀ l ∈ ls, 10 ∉ l) : textLines (Lines.join 10 ls) = ls := by
  rw [textLines_eq, Lines.split_join h]

theorem not_mem_textLines {text l : Text} (h : l ∈ textLines text) : 10 ∉ l := by
  rw [textLines_eq] at h
  exact Lines.not_mem_of_mem_split h

theorem accountHasName_join {ls : List Text} (h : ∀ l ∈ ls, 10 ∉ l) (name : Text) :
    accountHasName (Lines.join 10 ls) name = ls.any (isEntryOf name) := by
  rw [accountHasName, textLines_join h]

/-- A line of a name is the name, a colon and the other fields. -/
theorem isEntryOf_iff {name l : Text} : isEntryOf name l = true ↔ ∃ rest, l = name ++ 58 :: rest := by
  unfold isEntryOf
  constructor
  · intro h
    simp only [Bool.and_eq_true, decide_eq_true_eq] at h
    obtain ⟨⟨hlt, htake⟩, hcolon⟩ := h
    rw [List.getD_eq_getElem _ _ hlt] at hcolon
    refine ⟨l.drop (name.length + 1), ?_⟩
    calc l = l.take name.length ++ l.drop name.length := (List.take_append_drop _ _).symm
      _ = name ++ 58 :: l.drop (name.length + 1) := by rw [htake, List.drop_eq_getElem_cons hlt, hcolon]
  · rintro ⟨rest, rfl⟩
    simp

/-- The name of a line is the text before its first colon, so a line is of one name only. -/
theorem isEntryOf_unique {name other line : Text} (hname : 58 ∉ name) (hother : 58 ∉ other)
    (h : isEntryOf name line = true) (h' : isEntryOf other line = true) : other = name := by
  obtain ⟨rest, rfl⟩ := isEntryOf_iff.mp h
  obtain ⟨rest', heq⟩ := isEntryOf_iff.mp h'
  have hcut : ∀ {n r : Text}, 58 ∉ n → (n ++ 58 :: r).takeWhile (fun c => decide (c ≠ 58)) = n := by
    intro n r hn
    have hall : ∀ c ∈ n, decide (c ≠ 58) = true := fun c hc => decide_eq_true fun he => hn (he ▸ hc)
    rw [List.takeWhile_append_of_pos hall]
    simp
  rw [← hcut hother (r := rest'), ← heq, hcut hname]

theorem accountValidName_spec {name : Text} (h : accountValidName name = true) :
    name ≠ [] ∧ name.length ≤ 31 ∧ ∀ c ∈ name, isAlnum c = true ∨ c = 95 ∨ c = 45 := by
  cases name with
  | nil => cases h
  | cons c rest =>
      simp only [accountValidName, Bool.and_eq_true, Bool.or_eq_true, decide_eq_true_eq, List.all_eq_true, isAlpha] at h
      obtain ⟨⟨hfirst, hrest⟩, hlen⟩ := h
      refine ⟨List.cons_ne_nil c rest, hlen, List.forall_mem_cons.mpr ⟨?_, fun d hd => ?_⟩⟩
      · exact hfirst.elim (fun ha => Or.inl ha.1) fun he => Or.inr (Or.inl he)
      · exact or_assoc.mp (hrest d hd)

/-- A valid name holds no colon and no newline. -/
theorem accountValidName_plain {name : Text} (h : accountValidName name = true) : 58 ∉ name ∧ 10 ∉ name := by
  obtain ⟨-, -, hall⟩ := accountValidName_spec h
  exact ⟨fun hc => absurd (hall 58 hc) (by decide), fun hc => absurd (hall 10 hc) (by decide)⟩

/-! ## The two functions -/

/-- The lines of a file with the lines of a name replaced, or with a new line when there are none. -/
def replacedLines (name newline : Text) (lines : List Text) : List Text :=
  if lines.any (isEntryOf name) then lines.map fun line => if isEntryOf name line then newline else line
  else lines ++ [newline]

/-- There is always room: the buffer is larger than what was written. -/
theorem put_eq (b : OutBuf) {grow : Nat → Nat} (hgrow : ∀ n, n ≤ grow n) (src : Text) :
    ∃ cap, b.put grow src = some ⟨b.out ++ src ++ [10], cap⟩ ∧ (b.out ++ src ++ [10]).length < cap := by
  unfold OutBuf.put
  dsimp only []
  have hlen : (b.out ++ src ++ [10]).length = b.out.length + src.length + 1 := by
    rw [List.length_append, List.length_append, List.length_singleton]
  by_cases hfull : b.out.length + src.length + 2 > b.cap
  · have hg := hgrow (b.out.length + src.length + 2)
    rw [if_pos hfull, if_pos (by omega)]
    exact ⟨_, rfl, by omega⟩
  · rw [if_neg hfull, if_pos (by omega)]
    exact ⟨_, rfl, by omega⟩

theorem replaceLoop_eq (name newline : Text) (lines : List Text) : ∀ (b : OutBuf) (replaced : Bool),
    b.out.length < b.cap → ∃ b', replaceLoop name newline lines b replaced =
        some (b', replaced || lines.any (isEntryOf name)) ∧ b'.out.length < b'.cap ∧
      b'.out = b.out ++ Lines.join 10 (lines.map fun line => if isEntryOf name line then newline else line) := by
  induction lines with
  | nil =>
      intro b replaced hb
      exact ⟨b, by simp [replaceLoop], hb, by simp⟩
  | cons line lines ih =>
      intro b replaced hb
      obtain ⟨cap, hput, hcap⟩ :=
        put_eq b (fun n => Nat.le_mul_of_pos_right n Nat.two_pos) (if isEntryOf name line then newline else line)
      obtain ⟨b', hloop, hroom, hout⟩ := ih ⟨_, cap⟩ (replaced || isEntryOf name line) hcap
      refine ⟨b', ?_, hroom, ?_⟩
      · rw [replaceLoop, hput]
        dsimp only []
        rw [hloop, List.any_cons, Bool.or_assoc]
      · rw [hout, List.map_cons, Lines.join_cons]
        simp

theorem accountReplaceNamedLine_eq (text name newline : Text) :
    accountReplaceNamedLine text name newline = some (Lines.join 10 (replacedLines name newline (textLines text))) := by
  obtain ⟨b, hloop, hroom, hout⟩ := replaceLoop_eq name newline (textLines text)
    ⟨[], text.length + newline.length + 64⟩ false (Nat.succ_pos _)
  rw [List.nil_append] at hout
  rw [accountReplaceNamedLine, hloop, Bool.false_or]
  dsimp only []
  unfold replacedLines
  by_cases hany : (textLines text).any (isEntryOf name) = true
  · rw [if_pos hany, if_pos hany]
    dsimp only []
    rw [if_pos hroom, hout]
  · -- without a line of the name the loop has copied the text
    have hsame : (textLines text).map (fun line => if isEntryOf name line then newline else line) = textLines text := by
      refine (List.map_congr_left fun line hl => ?_).trans (List.map_id _)
      rw [if_neg fun he => hany (List.any_eq_true.mpr ⟨line, hl, he⟩)]
      rfl
    obtain ⟨cap, hput, hcap⟩ := @put_eq b id (fun n => le_rfl) newline
    rw [if_neg hany, if_neg hany, hput]
    dsimp only []
    rw [if_pos hcap, hout, hsame, Lines.join_append]
    simp

theorem accountAppendLine_eq (text line : Text) : accountAppendLine text line =
    some (Lines.ended 10 text ++ line ++ if line.getLast? = some 10 then [] else [10]) := by
  have hold : (text ++ if text.length ≠ 0 ∧ text.getLast? ≠ some 10 then [10] else []) = Lines.ended 10 text := by
    unfold Lines.ended
    cases text with
    | nil => rfl
    | cons c t =>
        by_cases hlast : (c :: t).getLast? = some 10
        · simp [hlast]
        · simp [hlast]
  have hnew : (if line.length = 0 ∨ line.getLast? ≠ some 10 then [10] else []) =
      if line.getLast? = some 10 then ([] : Text) else [10] := by
    cases line with
    | nil => rfl
    | cons c t =>
        by_cases hlast : (c :: t).getLast? = some 10
        · simp [hlast]
        · simp [hlast]
  unfold accountAppendLine
  dsimp only []
  rw [hold, hnew, if_pos]
  rw [← hold]
  simp only [List.length_append]
  split
  · split
    · simp
    · simp
  · split
    · simp
    · simp

theorem accountAppendLine_line {text line : Text} (h : 10 ∉ line) :
    accountAppendLine text line = some (Lines.join 10 (textLines text ++ [line])) := by
  have hlast : line.getLast? ≠ some 10 := fun hl => h (List.mem_of_getLast? hl)
  rw [accountAppendLine_eq, if_neg hlast, textLines_eq, Lines.join_append, Lines.join_split]
  simp

/-! ## The entries afterwards -/

/-- The text has a line of the name, and lines of other names as before. -/
structure Entered (name old out : Text) : Prop where
  has : accountHasName out name = true
  others : ∀ other, other ≠ name → 58 ∉ other → accountHasName out other = accountHasName old other

section Entries

variable {text name newline : Text}

/-- A line of the name is of no other name. -/
theorem not_isEntryOf_other (hname : accountValidName name = true) {other line : Text} (hne : other ≠ name)
    (hother : 58 ∉ other) (h : isEntryOf name line = true) : isEntryOf other line = false := by
  cases hline : isEntryOf other line with
  | false => rfl
  | true => exact absurd (isEntryOf_unique (accountValidName_plain hname).1 hother h hline) hne

theorem replacedLines_any (hentry : isEntryOf name newline = true) :
    (replacedLines name newline (textLines text)).any (isEntryOf name) = true := by
  unfold replacedLines
  by_cases hany : (textLines text).any (isEntryOf name) = true
  · obtain ⟨line, hline, he⟩ := List.any_eq_true.mp hany
    rw [if_pos hany]
    exact List.any_eq_true.mpr ⟨newline, List.mem_map.mpr ⟨line, hline, if_pos he⟩, hentry⟩
  · rw [if_neg hany]
    simp [hentry]

theorem replacedLines_other (hname : accountValidName name = true) (hentry : isEntryOf name newline = true) {other : Text}
    (hne : other ≠ name) (hother : 58 ∉ other) :
    (replacedLines name newline (textLines text)).any (isEntryOf other) = (textLines text).any (isEntryOf other) := by
  have hnew := not_isEntryOf_other hname hne hother hentry
  unfold replacedLines
  by_cases hany : (textLines text).any (isEntryOf name) = true
  · rw [if_pos hany, List.any_map]
    refine congrArg (List.any (textLines text)) (funext fun line => ?_)
    by_cases he : isEntryOf name line = true
    · rw [Function.comp_apply, if_pos he, hnew, not_isEntryOf_other hname hne hother he]
    · rw [Function.comp_apply, if_neg he]
  · rw [if_neg hany]
    simp [hnew]

end Entries

/-- Both functions keep the lines of a text in order, but for those of the name. -/
theorem account_lines (text name newline : Text) (hname : accountValidName name = true)
    (hentry : isEntryOf name newline = true) (hline : 10 ∉ newline) :
    (∃ out, accountReplaceNamedLine text name newline = some out ∧
      out = Lines.join 10 (replacedLines name newline (textLines text)) ∧
      textLines out = replacedLines name newline (textLines text) ∧ Entered name text out) ∧
    ∃ out, accountAppendLine text newline = some out ∧ out = Lines.join 10 (textLines text ++ [newline]) ∧
      textLines out = textLines text ++ [newline] ∧ Entered name text out := by
  have hreplaced : ∀ l ∈ replacedLines name newline (textLines text), 10 ∉ l := by
    unfold replacedLines
    split
    · refine List.forall_mem_map.mpr fun l hl => ?_
      split
      · exact hline
      · exact not_mem_textLines hl
    · exact List.forall_mem_append.mpr ⟨fun l hl => not_mem_textLines hl, List.forall_mem_singleton.mpr hline⟩
  have happended : ∀ l ∈ textLines text ++ [newline], 10 ∉ l :=
    List.forall_mem_append.mpr ⟨fun l hl => not_mem_textLines hl, List.forall_mem_singleton.mpr hline⟩
  constructor
  · refine ⟨_, accountReplaceNamedLine_eq text name newline, rfl, textLines_join hreplaced, ?_, fun other hne hother => ?_⟩
    · rw [accountHasName_join hreplaced]
      exact replacedLines_any hentry
    · rw [accountHasName_join hreplaced]
      exact replacedLines_other hname hentry hne hother
  · refine ⟨_, accountAppendLine_line hline, rfl, textLines_join happended, ?_, fun other hne hother => ?_⟩
    · rw [accountHasName_join happended]
      simp [hentry]
    · rw [accountHasName_join happended]
      simp [not_isEntryOf_other hname hne hother hentry, accountHasName]

/-- The file has lines of `ab` and `a`; `a` gets a new one. -/
theorem account_lines_a :
    (∃ out, accountReplaceNamedLine [97, 98, 58, 10, 97, 58] [97] [97, 58, 49] = some out ∧
      out = Lines.join 10 (replacedLines [97] [97, 58, 49] (textLines [97, 98, 58, 10, 97, 58])) ∧
      textLines out = replacedLines [97] [97, 58, 49] (textLines [97, 98, 58, 10, 97, 58]) ∧
      Entered [97] [97, 98, 58, 10, 97, 58] out) ∧
    ∃ out, accountAppendLine [97, 98, 58, 10, 97, 58] [97, 58, 49] = some out ∧
      out = Lines.join 10 (textLines [97, 98, 58, 10, 97, 58] ++ [[97, 58, 49]]) ∧
      textLines out = textLines [97, 98, 58, 10, 97, 58] ++ [[97, 58, 49]] ∧ Entered [97] [97, 98, 58, 10, 97, 58] out :=
  account_lines [97, 98, 58, 10, 97, 58] [97] [97, 58, 49] (by decide) (by decide) (by decide)

end Guppy.Account
