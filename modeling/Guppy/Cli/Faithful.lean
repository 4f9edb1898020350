import Guppy.Cli.Dispatch

set_option autoImplicit false

/-! # What commands receive

A line of a script should give its command the words of that line, and the arguments of the program should reach the
command as they are. A script line does so exactly when all of it but blanks comes in one piece of the buffer, with at
most 32 words and no zero byte (`lineCommands_iff`); arguments do so exactly when they are plain words that fit the
buffer (`oneShot_iff`). Otherwise words are counted: the letters of a line are all in its words, and no piece has those
of another.
-/

namespace Guppy.Cli

open Vfs (Text)
open Archive (cText)
open Pkg (ascii)
open Words (words PlainWord weight)

/-! ## Tokens -/

/-- The words of a line, as many as there are. -/
def tokens (line : Text) : List Text := words isSep isQuote line

theorem splitArgvFrom_eq (maxv fuel : Nat) : ∀ (argc : Nat) (p : Text),
    splitArgvFrom maxv fuel argc p = (Words.wordsFrom isSep isQuote fuel p).take (maxv - argc) := by
  induction fuel with
  | zero => exact fun argc p => List.take_nil.symm
  | succ fuel ih =>
      intro argc p
      rw [splitArgvFrom, Words.wordsFrom]
      cases p.dropWhile isSep with
      | nil => exact List.take_nil.symm
      | cons c t =>
          dsimp only []
          by_cases hfull : argc ≥ maxv
          · rw [if_pos hfull, Nat.sub_eq_zero_of_le hfull, List.take_zero]
          · have hroom : maxv - argc = maxv - (argc + 1) + 1 := by omega
            rw [if_neg hfull, ih, hroom, List.take_succ_cons]

/-- `split_argv` takes the first words of a line. -/
theorem splitArgv_eq (line : Text) (maxv : Nat) : splitArgv line maxv = (tokens line).take maxv := splitArgvFrom_eq ..

/-- What the command of a line receives: nothing for a blank line and a comment. -/
theorem runCommandLine_argv (line : Text) : (runCommandLine line).argv =
    if rstripCrlf (line.take 1023) = [] ∨ (rstripCrlf (line.take 1023)).head? = some 35 then none
    else if (tokens (rstripCrlf (line.take 1023))).take 32 = [] then none
    else some ((tokens (rstripCrlf (line.take 1023))).take 32) := by
  unfold runCommandLine
  dsimp only []
  generalize rstripCrlf (line.take 1023) = buf
  by_cases hon : buf = ascii "debug on"
  · rw [hon]
    decide +kernel
  by_cases hoff : buf = ascii "debug off"
  · rw [hoff]
    decide +kernel
  rw [if_neg hon, if_neg hoff, splitArgv_eq]
  by_cases hempty : buf = [] ∨ buf.head? = some 35
  · rw [if_pos hempty, if_pos hempty]
    rfl
  rw [if_neg hempty, if_neg hempty]
  split
  · rfl
  · rfl

theorem isTrailing_of_isSep {c : UInt8} (h : isSep c = true) : isTrailing c = true := by
  simp only [isSep, decide_eq_true_eq] at h
  simp only [isTrailing, decide_eq_true_eq]
  exact Or.inr (Or.inr h)

theorem rstrip_append_trailing {b : Text} (h : ∀ c ∈ b, isTrailing c = true) (a : Text) : rstrip (a ++ b) = rstrip a := by
  induction b using List.reverseRecOn with
  | nil => rw [List.append_nil]
  | append_singleton b c ih =>
      obtain ⟨hb, hc⟩ := List.forall_mem_append.mp h
      rw [← List.append_assoc, rstrip, List.rdropWhile_concat_pos _ _ _ (hc c (List.mem_singleton_self c))]
      exact ih hb

theorem rstrip_append {b : Text} (h : rstrip b ≠ []) (a : Text) : rstrip (a ++ b) = a ++ rstrip b := by
  induction b using List.reverseRecOn with
  | nil => exact absurd (List.rdropWhile_nil _) h
  | append_singleton b c ih =>
      by_cases hc : isTrailing c = true
      · rw [rstrip, List.rdropWhile_concat_pos _ _ _ hc] at h
        rw [← List.append_assoc, rstrip, rstrip, List.rdropWhile_concat_pos _ _ _ hc, List.rdropWhile_concat_pos _ _ _ hc]
        exact ih h
      · rw [← List.append_assoc, rstrip, rstrip, List.rdropWhile_concat_neg _ _ _ hc, List.rdropWhile_concat_neg _ _ _ hc,
          List.append_assoc]

theorem rstrip_eq_nil_iff {t : Text} : rstrip t = [] ↔ ∀ c ∈ t, isTrailing c = true := List.rdropWhile_eq_nil_iff

/-- A line and what was stripped from it. -/
theorem exists_trailing (t : Text) : ∃ b, t = rstrip t ++ b ∧ ∀ c ∈ b, isTrailing c = true :=
  ⟨t.rtakeWhile isTrailing, (List.rdropWhile_append_rtakeWhile ..).symm, fun _ hc => List.mem_rtakeWhile_imp hc⟩

theorem rstrip_getLast {t : Text} {c : UInt8} (h : (rstrip t).getLast? = some c) : isTrailing c = false := by
  have hne : rstrip t ≠ [] := fun he => by rw [he] at h; cases h
  have hlast := List.rdropWhile_last_not isTrailing t hne
  rw [List.getLast?_eq_getLast_of_ne_nil hne] at h
  rw [← Option.some.inj h]
  exact (Bool.not_eq_true _).mp hlast

/-! ## Comments -/

theorem isBlankOrComment_seps {b : Text} (h : ∀ c ∈ b, isSep c = true) (t : Text) :
    isBlankOrComment (b ++ t) = isBlankOrComment t := by
  rw [isBlankOrComment, List.dropWhile_append_of_pos h, isBlankOrComment]

/-- A line that is neither blank nor a comment is not empty, and its first character and its words are those of a command. -/
theorem command_line {t : Text} (h : isBlankOrComment t = false) :
    t ≠ [] ∧ t.head? ≠ some 35 ∧ tokens t ≠ [] := by
  refine ⟨?_, ?_, ?_⟩
  · rintro rfl
    cases h
  · intro hhead
    cases t with
    | nil => cases hhead
    | cons c t =>
        cases Option.some.inj hhead
        exact absurd h (by simp [isBlankOrComment, isSep])
  · intro hnil
    have hall := Words.words_eq_nil_iff.mp hnil
    have hdrop : t.dropWhile isSep = [] := List.dropWhile_eq_nil_iff.mpr hall
    rw [isBlankOrComment, hdrop] at h
    cases h

/-- A blank line or a comment without the signs of comments is blank. -/
theorem seps_of_blank {t : Text} (h : isBlankOrComment t = true) (h59 : 59 ∉ t) (h35 : 35 ∉ t) :
    ∀ c ∈ t, isSep c = true := by
  rw [← List.dropWhile_eq_nil_iff]
  cases hd : t.dropWhile isSep with
  | nil => rfl
  | cons c r =>
      have hmem : c ∈ t := List.dropWhile_subset _ (hd ▸ List.mem_cons_self)
      rw [isBlankOrComment, hd] at h
      simp only [List.head?_cons, Option.all_some, decide_eq_true_eq] at h
      rcases h with rfl | rfl
      · exact absurd hmem h59
      · exact absurd hmem h35

/-- What a command receives from a line that was stripped and fits the buffer. -/
theorem run_stripped {t : Text} (hlen : t.length ≤ 1023) (hstrip : rstrip t = t) (h : isBlankOrComment t = false) :
    (runCommandLine t).argv = some ((tokens t).take 32) := by
  obtain ⟨hne, hhead, htokens⟩ := command_line h
  have hbuf : rstripCrlf (t.take 1023) = t := by
    rw [List.take_of_length_le hlen, rstripCrlf, List.rdropWhile_eq_self_iff]
    intro hn hlast
    -- the last character is none that `rstrip` takes away
    have hget : (rstrip t).getLast? = some (t.getLast hn) := by rw [hstrip, List.getLast?_eq_getLast_of_ne_nil hn]
    have htrail := rstrip_getLast hget
    simp only [decide_eq_true_eq] at hlast
    simp only [isTrailing, decide_eq_false_iff_not] at htrail
    exact htrail (hlast.elim Or.inl fun h => Or.inr (Or.inl h))
  have htake : (tokens t).take 32 ≠ [] := fun hnil => by
    rcases List.take_eq_nil_iff.mp hnil with h | h
    · cases h
    · exact htokens h
  rw [runCommandLine_argv, hbuf, if_neg (by simp [hne, hhead]), if_neg htake]

/-- The letters of a line are in its words. -/
theorem count_tokens {a : UInt8} (hs : isSep a = false) (hq : isQuote a = false) (t : Text) :
    (tokens t).flatten.count a = t.count a := Words.count_words hs hq t

theorem count_take_tokens {a : UInt8} (hs : isSep a = false) (hq : isQuote a = false) (t : Text) (n : Nat) :
    ((tokens t).take n).flatten.count a ≤ t.count a := by
  calc ((tokens t).take n).flatten.count a ≤ (tokens t).flatten.count a :=
        (List.Sublist.flatten (List.take_sublist n _)).count_le a
    _ = t.count a := count_tokens hs hq t

/-! ## The pieces of a line -/

theorem fgets_spec {c : UInt8} {t : List UInt8} :
    (fgets 1024 (c :: t)).1 ++ (fgets 1024 (c :: t)).2 = c :: t ∧ (fgets 1024 (c :: t)).1 ≠ [] ∧
      (fgets 1024 (c :: t)).1.length ≤ 1023 := by
  unfold fgets
  by_cases hnl : 10 ∈ (c :: t).take (1024 - 1)
  · rw [if_pos hnl]
    obtain ⟨l, r, hlr, hl⟩ := List.eq_append_cons_of_mem hnl
    -- the newline stands where the piece ends
    have hline : c :: t = l ++ 10 :: (r ++ (c :: t).drop (1024 - 1)) := by
      rw [← List.cons_append, ← List.append_assoc, ← hlr, List.take_append_drop]
    have hlen : l.length + 1 ≤ 1023 := by
      have hle := List.length_take_le (1024 - 1) (c :: t)
      rw [hlr, List.length_append, List.length_cons] at hle
      omega
    have htake : (c :: t).takeWhile (fun d => decide (d ≠ 10)) = l := by
      rw [hline, Lines.takeWhile_cut hl]
    have hdrop : (c :: t).dropWhile (fun d => decide (d ≠ 10)) = 10 :: (r ++ (c :: t).drop (1024 - 1)) := by
      conv_lhs => rw [hline, Lines.dropWhile_cut hl]
    dsimp only []
    rw [htake, hdrop]
    refine ⟨?_, by simp, ?_⟩
    · conv_rhs => rw [hline]
      simp
    · rw [List.length_append, List.length_singleton]
      omega
  · rw [if_neg hnl]
    refine ⟨List.take_append_drop _ _, ?_, ?_⟩
    · simp
    · rw [List.length_take]
      omega

theorem length_fgets_lt (c : UInt8) (t : List UInt8) : (fgets 1024 (c :: t)).2.length < (c :: t).length := by
  obtain ⟨hcut, hne, -⟩ := @fgets_spec c t
  have hlen := congrArg List.length hcut
  have hpos := List.length_pos_iff.mpr hne
  rw [List.length_append] at hlen
  omega

theorem readPiecesFrom_stable (n : Nat) : ∀ {m : Nat} {t : List UInt8}, t.length ≤ n → t.length ≤ m →
    readPiecesFrom n t = readPiecesFrom m t := by
  induction n with
  | zero =>
      intro m t hn _
      rw [List.length_eq_zero_iff.mp (Nat.le_zero.mp hn)]
      cases m with
      | zero => rfl
      | succ m => rfl
  | succ n ih =>
      intro m t hn hm
      cases t with
      | nil =>
          cases m with
          | zero => rfl
          | succ m => rfl
      | cons c t =>
          cases m with
          | zero => cases hm
          | succ m =>
              have hlt := length_fgets_lt c t
              exact congrArg (List.cons _) (ih (by omega) (by omega))

theorem readPieces_cons (c : UInt8) (t : List UInt8) :
    readPieces (c :: t) = (fgets 1024 (c :: t)).1 :: readPieces (fgets 1024 (c :: t)).2 := by
  have hlt := length_fgets_lt c t
  rw [List.length_cons] at hlt
  rw [readPieces, List.length_cons, readPiecesFrom]
  exact congrArg (List.cons _) (readPiecesFrom_stable _ (by omega) le_rfl)

/-- An induction over the pieces of a file. -/
theorem readPieces_induction {motive : List UInt8 → Prop} (nil : motive [])
    (cons : ∀ c t, motive (fgets 1024 (c :: t)).2 → motive (c :: t)) (t : List UInt8) : motive t := by
  induction hn : t.length using Nat.strong_induction_on generalizing t with
  | _ n ih =>
      cases t with
      | nil => exact nil
      | cons c t =>
          have hlt := length_fgets_lt c t
          exact cons c t (ih _ (by omega) _ rfl)

theorem readPieces_flatten (t : List UInt8) : (readPieces t).flatten = t := by
  induction t using readPieces_induction with
  | nil => rfl
  | cons c t ih => rw [readPieces_cons, List.flatten_cons, ih, fgets_spec.1]

theorem readPieces_mem {t p : List UInt8} (h : p ∈ readPieces t) : p ≠ [] ∧ p.length ≤ 1023 := by
  induction t using readPieces_induction with
  | nil => cases h
  | cons c t ih =>
      rw [readPieces_cons] at h
      rcases List.mem_cons.mp h with rfl | h
      · exact fgets_spec.2
      · exact ih h

/-- The rest of a line that fits the buffer. -/
theorem fgets_line {l : List UInt8} (hl : 10 ∉ l) (hlen : l.length < 1023) (r : List UInt8) :
    fgets 1024 (l ++ 10 :: r) = (l ++ [10], r) := by
  have hmem : (10 : UInt8) ∈ (l ++ 10 :: r).take (1024 - 1) := by
    obtain ⟨k, hk⟩ : ∃ k, 1024 - 1 - l.length = k + 1 := ⟨1024 - 1 - l.length - 1, by omega⟩
    rw [List.take_append, hk, List.take_succ_cons]
    exact List.mem_append_right _ List.mem_cons_self
  rw [fgets, if_pos hmem, Lines.takeWhile_cut hl, Lines.dropWhile_cut hl]
  rfl

/-- The front of a line that does not. -/
theorem fgets_long {l : List UInt8} (hl : 10 ∉ l) (hlen : 1023 ≤ l.length) (r : List UInt8) :
    fgets 1024 (l ++ r) = (l.take 1023, l.drop 1023 ++ r) := by
  have htake : (l ++ r).take 1023 = l.take 1023 := List.take_append_of_le_length hlen
  have hmem : (10 : UInt8) ∉ (l ++ r).take (1024 - 1) := by
    rw [htake]
    exact fun h => hl (List.mem_of_mem_take h)
  rw [fgets, if_neg hmem, htake, List.drop_append_of_le_length hlen]

theorem readPieces_of_ne_nil {t : List UInt8} (h : t ≠ []) :
    readPieces t = (fgets 1024 t).1 :: readPieces (fgets 1024 t).2 := by
  cases t with
  | nil => exact absurd rfl h
  | cons c t => exact readPieces_cons c t

/-- A piece ends at the end of a line, so the pieces of a file are those of its lines. -/
theorem readPieces_line {l : List UInt8} (hl : 10 ∉ l) (t : List UInt8) :
    readPieces (l ++ 10 :: t) = readPieces (l ++ [10]) ++ readPieces t := by
  induction hn : l.length using Nat.strong_induction_on generalizing l with
  | _ n ih =>
      have hne : ∀ r : List UInt8, l ++ 10 :: r ≠ [] := fun r => by simp
      rw [readPieces_of_ne_nil (hne t), readPieces_of_ne_nil (hne [])]
      by_cases hlen : l.length < 1023
      · rw [fgets_line hl hlen, fgets_line hl hlen]
        rfl
      · have hrest := ih (l.drop 1023).length (by rw [List.length_drop]; omega) (fun h => hl (List.mem_of_mem_drop h)) rfl
        rw [fgets_long hl (by omega), fgets_long hl (by omega)]
        exact congrArg (List.cons _) hrest

theorem readPieces_lines (file : List UInt8) : readPieces file = (Lines.splitEnds 10 file).flatMap readPieces := by
  induction file using @Lines.lines_induction UInt8 _ 10 with
  | nil => rfl
  | last l hl hne => rw [Lines.splitEnds_line hl hne, List.flatMap_singleton]
  | line l t hl ih => rw [readPieces_line hl, Lines.splitEnds_line_append hl, List.flatMap_cons, ih]

/-- A line of a file, with its newline when it has one. -/
theorem newline_last {file raw : List UInt8} (h : raw ∈ Lines.splitEnds 10 file) : 10 ∉ raw.dropLast := by
  induction file using @Lines.lines_induction UInt8 _ 10 with
  | nil => cases h
  | last l hl hne =>
      rw [Lines.splitEnds_line hl hne, List.mem_singleton] at h
      rw [h]
      exact fun hmem => hl (List.dropLast_subset l hmem)
  | line l t hl ih =>
      rw [Lines.splitEnds_line_append hl] at h
      rcases List.mem_cons.mp h with rfl | h
      · rw [List.dropLast_concat]
        exact hl
      · exact ih h

/-! ## Script lines -/

/-- What the command of a piece receives. -/
def pieceCommand (piece : List UInt8) : Option (List Text) :=
  if isBlankOrComment (rstrip (cText piece)) then none else (runCommandLine (rstrip (cText piece))).argv

/-- What the commands receive that a line runs. -/
def lineCommands (raw : List UInt8) : List (List Text) := (readPieces raw).filterMap pieceCommand

/-- What the command of a line should receive: the words of the line. -/
def intended (raw : List UInt8) : Option (List Text) :=
  if isBlankOrComment (rstrip raw) then none else some (tokens (rstrip raw))

/-- All of a line but blanks is in one piece, without a zero byte and with at most 32 words; a comment is a comment in
all its pieces. -/
structure LineFits (raw : List UInt8) : Prop where
  comment : isBlankOrComment (rstrip raw) = true → ∀ p ∈ readPieces raw, isBlankOrComment (rstrip (cText p)) = true
  command : isBlankOrComment (rstrip raw) = false → 0 ∉ raw ∧ ∃ pre p post, readPieces raw = pre ++ p :: post ∧
    (∀ q ∈ pre, ∀ c ∈ q, isSep c = true) ∧ (∀ q ∈ post, ∀ c ∈ q, isTrailing c = true) ∧ (tokens (rstrip p)).length ≤ 32

/-- The commands that the loop runs are those of the pieces, up to one that fails. -/
theorem doLoop_called (exec : List (List Text) → List Text → Int) (pieces : List (List UInt8)) :
    ∀ called, ∃ k, (doLoop exec pieces called).2 = called ++ (pieces.filterMap pieceCommand).take k ∧
      ((doLoop exec pieces called).1 = 0 → (doLoop exec pieces called).2 = called ++ pieces.filterMap pieceCommand) := by
  induction pieces with
  | nil => exact fun called => ⟨0, by simp [doLoop], fun _ => by simp [doLoop]⟩
  | cons piece pieces ih =>
      intro called
      rw [doLoop]
      dsimp only []
      by_cases hblank : isBlankOrComment (rstrip (cText piece)) = true
      · rw [if_pos hblank, List.filterMap_cons_none (by rw [pieceCommand, if_pos hblank])]
        exact ih called
      rw [if_neg hblank]
      have hpiece : pieceCommand piece = (runCommandLine (rstrip (cText piece))).argv := by rw [pieceCommand, if_neg hblank]
      have hlist : (piece :: pieces).filterMap pieceCommand =
          (runCommandLine (rstrip (cText piece))).argv.toList ++ pieces.filterMap pieceCommand := by
        rw [← hpiece]
        cases hc : pieceCommand piece with
        | none => rw [List.filterMap_cons_none hc]; rfl
        | some argv => rw [List.filterMap_cons_some hc]; rfl
      rw [hlist]
      generalize runCommandLine (rstrip (cText piece)) = a
      by_cases hrc : a.rc exec called ≠ 0
      · rw [if_pos hrc]
        refine ⟨a.argv.toList.length, by rw [List.take_left' rfl], fun h => absurd h hrc⟩
      · rw [if_neg hrc]
        obtain ⟨k, hk, hall⟩ := ih (called ++ a.argv.toList)
        refine ⟨a.argv.toList.length + k, ?_, fun h => ?_⟩
        · rw [hk, List.take_length_add_append, List.append_assoc]
        · rw [hall h, List.append_assoc]

section Line

variable {raw : List UInt8}

theorem rstrip_rstrip (t : Text) : rstrip (rstrip t) = rstrip t := List.rdropWhile_idempotent _ t

theorem rstrip_front (t : Text) : rstrip t <+: t := List.rdropWhile_prefix isTrailing t

theorem count_rstrip_le (a : UInt8) (t : Text) : (rstrip t).count a ≤ t.count a := (rstrip_front t).sublist.count_le a

/-- A piece runs a command with the first words of what is left of it, unless that is blank or a comment. -/
theorem pieceCommand_eq {p : List UInt8} (h : p.length ≤ 1023) : pieceCommand p =
    if isBlankOrComment (rstrip (cText p)) then none else some ((tokens (rstrip (cText p))).take 32) := by
  unfold pieceCommand
  split
  · rfl
  · rename_i hblank
    have hlen : (rstrip (cText p)).length ≤ 1023 :=
      (rstrip_front _).length_le.trans ((List.takeWhile_prefix _).length_le.trans h)
    exact run_stripped hlen (rstrip_rstrip _) ((Bool.not_eq_true _).mp hblank)

theorem pieceCommand_none_iff {p : List UInt8} (h : p.length ≤ 1023) :
    pieceCommand p = none ↔ isBlankOrComment (rstrip (cText p)) = true := by
  rw [pieceCommand_eq h]
  split
  · exact iff_of_true rfl ‹_›
  · exact iff_of_false nofun ‹_›

theorem blank_of_trailing {q : List UInt8} (h : ∀ c ∈ q, isTrailing c = true) :
    isBlankOrComment (rstrip (cText q)) = true := by
  have hnil : rstrip (cText q) = [] := rstrip_eq_nil_iff.mpr fun c hc => h c (List.takeWhile_subset _ hc)
  rw [hnil]
  rfl

variable {pre post : List (List UInt8)} {p : List UInt8}

theorem raw_eq (hpieces : readPieces raw = pre ++ p :: post) : raw = pre.flatten ++ p ++ post.flatten := by
  rw [← readPieces_flatten raw, hpieces, List.flatten_append, List.flatten_cons, List.append_assoc]

/-- A piece of a line without zero bytes is a text as it is. -/
theorem cText_piece (hzero : 0 ∉ raw) {q : List UInt8} (hq : q ∈ readPieces raw) : cText q = q := by
  refine Archive.cText_self fun h0 => hzero ?_
  rw [← readPieces_flatten raw]
  exact List.mem_flatten_of_mem hq h0

/-- A line whose last pieces are blank. -/
theorem rstrip_raw (hpieces : readPieces raw = pre ++ p :: post)
    (hpost : ∀ q ∈ post, ∀ c ∈ q, isTrailing c = true) : rstrip raw = rstrip (pre.flatten ++ p) := by
  rw [raw_eq hpieces]
  exact rstrip_append_trailing (List.forall_mem_flatten.mpr hpost) _

/-- A line that fits runs one command, with its words. -/
theorem lineCommands_of_fits (hblank : isBlankOrComment (rstrip raw) = false) (hzero : 0 ∉ raw)
    (hpieces : readPieces raw = pre ++ p :: post)
    (hpre : ∀ q ∈ pre, ∀ c ∈ q, isSep c = true) (hpost : ∀ q ∈ post, ∀ c ∈ q, isTrailing c = true)
    (hcount : (tokens (rstrip p)).length ≤ 32) : lineCommands raw = [tokens (rstrip raw)] := by
  have hpresep : ∀ c ∈ pre.flatten, isSep c = true := List.forall_mem_flatten.mpr hpre
  have hraw := rstrip_raw hpieces hpost
  have hp : p ∈ readPieces raw := by rw [hpieces]; simp
  -- the piece is not blank, since the line is not
  have hne : rstrip p ≠ [] := fun hnil => by
    have hall : ∀ c ∈ pre.flatten ++ p, isTrailing c = true :=
      List.forall_mem_append.mpr ⟨fun c hc => isTrailing_of_isSep (hpresep c hc), rstrip_eq_nil_iff.mp hnil⟩
    rw [hraw, rstrip_eq_nil_iff.mpr hall] at hblank
    cases hblank
  rw [rstrip_append hne] at hraw
  have htext : cText p = p := cText_piece hzero hp
  have hcommand : pieceCommand p = some (tokens (rstrip raw)) := by
    rw [hraw, isBlankOrComment_seps hpresep] at hblank
    rw [pieceCommand_eq (readPieces_mem hp).2, htext, hblank, if_neg Bool.false_ne_true, List.take_of_length_le hcount,
      hraw, tokens, tokens, Words.words_seps_append hpresep]
  have hnone : ∀ {l : List (List UInt8)}, (∀ q ∈ l, pieceCommand q = none) → l.filterMap pieceCommand = [] :=
    fun h => List.filterMap_eq_nil_iff.mpr h
  have hpreNone : ∀ q ∈ pre, pieceCommand q = none := fun q hq => by
    rw [pieceCommand, if_pos (blank_of_trailing fun c hc => isTrailing_of_isSep (hpre q hq c hc))]
  have hpostNone : ∀ q ∈ post, pieceCommand q = none := fun q hq => by
    rw [pieceCommand, if_pos (blank_of_trailing (hpost q hq))]
  rw [lineCommands, hpieces, List.filterMap_append, List.filterMap_cons_some hcommand, hnone hpreNone, hnone hpostNone]
  rfl

/-! A line whose words are those of one of its pieces. -/

section OnePiece

/-- The letters of the line are those of its words, and these come from the piece. -/
theorem count_le_of_tokens (htokens : (tokens (rstrip (cText p))).take 32 = tokens (rstrip raw)) {a : UInt8}
    (hs : isSep a = false) (hq : isQuote a = false) : (rstrip raw).count a ≤ (rstrip (cText p)).count a := by
  calc (rstrip raw).count a = (tokens (rstrip raw)).flatten.count a := (count_tokens hs hq _).symm
    _ = ((tokens (rstrip (cText p))).take 32).flatten.count a := by rw [htokens]
    _ ≤ (rstrip (cText p)).count a := count_take_tokens hs hq _ _

theorem zero_not_mem_of_tokens (htokens : (tokens (rstrip (cText p))).take 32 = tokens (rstrip raw)) : 0 ∉ raw := by
  obtain ⟨tail, htail, htrailing⟩ := exists_trailing raw
  have h0 := @count_le_of_tokens raw p htokens 0 (by decide) (by decide)
  rw [List.count_eq_zero.mpr fun h => Archive.cText_noNul p ((rstrip_front _).subset h)] at h0
  rw [htail]
  intro hmem
  rcases List.mem_append.mp hmem with h | h
  · exact List.count_eq_zero.mp (Nat.le_zero.mp h0) h
  · exact absurd (htrailing 0 h) (by decide)

/-- No other piece has a letter. -/
theorem not_mem_of_tokens (hpieces : readPieces raw = pre ++ p :: post) (htext : cText p = p)
    (htokens : (tokens (rstrip (cText p))).take 32 = tokens (rstrip raw)) {a : UInt8} (ht : isTrailing a = false)
    (hq : isQuote a = false) : a ∉ pre.flatten ∧ a ∉ post.flatten := by
  have hs : isSep a = false := by
    cases hs : isSep a with
    | false => rfl
    | true => rw [isTrailing_of_isSep hs] at ht; cases ht
  obtain ⟨tail, htail, htrailing⟩ := exists_trailing raw
  have hle := count_le_of_tokens htokens hs hq
  rw [htext] at hle
  have hpiece := count_rstrip_le a p
  have htailzero : tail.count a = 0 := List.count_eq_zero.mpr fun h => by rw [htrailing a h] at ht; cases ht
  have htotal : (rstrip raw).count a + tail.count a = pre.flatten.count a + p.count a + post.flatten.count a := by
    rw [← List.count_append, ← htail, ← List.count_append, ← List.count_append, ← raw_eq hpieces]
  exact ⟨List.count_eq_zero.mp (by omega), List.count_eq_zero.mp (by omega)⟩

/-- A piece that runs nothing and has no letter is blank. -/
theorem trailing_of_none {q : List UInt8} (hlen : q.length ≤ 1023) (htext : cText q = q) (hnone : pieceCommand q = none)
    (hno : ∀ a, isTrailing a = false → isQuote a = false → a ∉ q) : ∀ c ∈ q, isTrailing c = true := by
  rw [pieceCommand_none_iff hlen, htext] at hnone
  have hstrip : ∀ a, isTrailing a = false → isQuote a = false → a ∉ rstrip q := fun a ht hq hmem =>
    hno a ht hq ((rstrip_front _).subset hmem)
  have hseps := seps_of_blank hnone (hstrip 59 (by decide) (by decide)) (hstrip 35 (by decide) (by decide))
  rw [← rstrip_eq_nil_iff, ← rstrip_rstrip, rstrip_eq_nil_iff]
  exact fun c hc => isTrailing_of_isSep (hseps c hc)

/-- What is blank at the front of a line with words is blank to `split_argv` as well. -/
theorem seps_of_tokens (hnewline : 10 ∉ raw.dropLast) (hpieces : readPieces raw = pre ++ p :: post) (htext : cText p = p)
    (htokens : (tokens (rstrip (cText p))).take 32 = tokens (rstrip raw)) (hne : rstrip p ≠ [])
    (hpre : ∀ c ∈ pre.flatten, isTrailing c = true) (hpost : ∀ q ∈ post, ∀ c ∈ q, isTrailing c = true) :
    ∀ c ∈ pre.flatten, isSep c = true := by
  have hstrip := rstrip_raw hpieces hpost
  rw [rstrip_append hne] at hstrip
  intro c hc
  have ht := hpre c hc
  simp only [isTrailing, decide_eq_true_eq] at ht
  rcases ht with rfl | rfl | hsep
  · -- a newline ends the line
    have hp0 := (readPieces_mem (t := raw) (p := p) (by simp [hpieces])).1
    refine absurd ?_ hnewline
    have htailne : p ++ post.flatten ≠ [] := by simp [hp0]
    rw [raw_eq hpieces, List.append_assoc, List.dropLast_append_of_ne_nil htailne]
    exact List.mem_append_left _ hc
  · -- a carriage return in front would be in the words
    have h13 := @count_le_of_tokens raw p htokens 13 (by decide) (by decide)
    rw [hstrip, List.count_append, htext] at h13
    exact absurd hc (List.count_eq_zero.mp (by omega))
  · simpa [isSep] using hsep

end OnePiece

/-- A line that runs one command with its words fits: the other pieces have none of its letters. -/
theorem fits_of_lineCommands (hnewline : 10 ∉ raw.dropLast) (h : lineCommands raw = [tokens (rstrip raw)]) :
    0 ∉ raw ∧ ∃ pre p post, readPieces raw = pre ++ p :: post ∧ (∀ q ∈ pre, ∀ c ∈ q, isSep c = true) ∧
      (∀ q ∈ post, ∀ c ∈ q, isTrailing c = true) ∧ (tokens (rstrip p)).length ≤ 32 := by
  obtain ⟨pre, p, post, hpieces, hpre, hp, hpost⟩ := List.filterMap_eq_cons_iff.mp h
  rw [List.filterMap_eq_nil_iff] at hpost
  have hmem : ∀ q ∈ pre ++ p :: post, q ∈ readPieces raw := fun q hq => by rw [hpieces]; exact hq
  rw [pieceCommand_eq (readPieces_mem (hmem p (by simp))).2] at hp
  split at hp
  · cases hp
  rename_i hpblank
  have htokens := Option.some.inj hp
  have hzero := zero_not_mem_of_tokens htokens
  have htext : ∀ q ∈ pre ++ p :: post, cText q = q := fun q hq => cText_piece hzero (hmem q hq)
  have hother := @not_mem_of_tokens raw pre post p hpieces (htext p (by simp)) htokens
  have hblank : ∀ q ∈ pre ++ p :: post, pieceCommand q = none → (∀ a, isTrailing a = false → isQuote a = false → a ∉ q) →
      ∀ c ∈ q, isTrailing c = true := fun q hq => trailing_of_none (readPieces_mem (hmem q hq)).2 (htext q hq)
  have hpreTrailing : ∀ q ∈ pre, ∀ c ∈ q, isTrailing c = true := fun q hq =>
    hblank q (by simp [hq]) (hpre q hq) fun a ht ha hc => (hother ht ha).1 (List.mem_flatten_of_mem hq hc)
  have hpostTrailing : ∀ q ∈ post, ∀ c ∈ q, isTrailing c = true := fun q hq =>
    hblank q (by simp [hq]) (hpost q hq) fun a ht ha hc => (hother ht ha).2 (List.mem_flatten_of_mem hq hc)
  have hne : rstrip p ≠ [] := fun hnil => by
    rw [htext p (by simp), hnil] at hpblank
    exact hpblank rfl
  have hpreSep := seps_of_tokens hnewline hpieces (htext p (by simp)) htokens hne
    (List.forall_mem_flatten.mpr hpreTrailing) hpostTrailing
  refine ⟨hzero, pre, p, post, hpieces, List.forall_mem_flatten.mp hpreSep, hpostTrailing, ?_⟩
  have hstrip := rstrip_raw hpieces hpostTrailing
  rw [rstrip_append hne] at hstrip
  rw [htext p (by simp), hstrip, tokens, tokens, Words.words_seps_append hpreSep] at htokens
  rw [tokens, ← htokens]
  exact List.length_take_le _ _

/-- A line runs what it should exactly when it fits. -/
theorem lineCommands_iff (hnewline : 10 ∉ raw.dropLast) : lineCommands raw = (intended raw).toList ↔ LineFits raw := by
  unfold intended
  cases hblank : isBlankOrComment (rstrip raw) with
  | true =>
      rw [if_pos rfl, Option.toList_none, lineCommands, List.filterMap_eq_nil_iff]
      constructor
      · intro h
        refine ⟨fun _ p hp => (pieceCommand_none_iff (readPieces_mem hp).2).mp (h p hp), fun hno => ?_⟩
        rw [hblank] at hno
        cases hno
      · intro h p hp
        exact (pieceCommand_none_iff (readPieces_mem hp).2).mpr (h.comment hblank p hp)
  | false =>
      rw [if_neg Bool.false_ne_true, Option.toList_some]
      constructor
      · intro h
        refine ⟨fun hyes => ?_, fun _ => fits_of_lineCommands hnewline h⟩
        rw [hblank] at hyes
        cases hyes
      · intro h
        obtain ⟨hzero, pre, p, post, hpieces, hpre, hpost, hcount⟩ := h.command hblank
        exact lineCommands_of_fits hblank hzero hpieces hpre hpost hcount

end Line

/-! ## Arguments -/

/-- The arguments are plain words that fit the buffer and the table of tokens, and their line is no comment and does not
end in what is taken for the end of a line. -/
structure OneShotFits (args : List Text) : Prop where
  words : ∀ a ∈ args, PlainWord isSep isQuote a
  count : args.length ≤ 32
  length : (joinArgs args).length ≤ 1023
  comment : (joinArgs args).head? ≠ some 35
  last : ∀ c ∈ (joinArgs args).getLast?, c ≠ 10 ∧ c ≠ 13

theorem joinArgs_eq (args : List Text) : joinArgs args = [32].intercalate args := by
  induction args with
  | nil => rfl
  | cons a args ih =>
      cases args with
      | nil => exact List.intercalate_singleton.symm
      | cons b args => rw [joinArgs, ih, List.intercalate_cons_cons, List.append_assoc, List.singleton_append]

theorem weight_args {args : List Text} (h : args ≠ []) : weight args = (joinArgs args).length + 1 := by
  induction args with
  | nil => exact absurd rfl h
  | cons a args ih =>
      cases args with
      | nil => rfl
      | cons b args =>
          rw [Words.weight_cons, ih (List.cons_ne_nil b args), joinArgs, List.length_append, List.length_cons]
          omega

theorem rstripCrlf_eq_self_iff {t : Text} : rstripCrlf t = t ↔ ∀ c ∈ t.getLast?, c ≠ 10 ∧ c ≠ 13 := by
  rw [rstripCrlf, List.rdropWhile_eq_self_iff]
  constructor
  · intro h c hc
    have hne : t ≠ [] := fun he => by rw [he] at hc; cases hc
    have hlast := h hne
    rw [List.getLast?_eq_getLast_of_ne_nil hne] at hc
    rw [Option.some.inj hc] at hlast
    simpa using hlast
  · intro h hne
    have hlast := h _ (List.getLast?_eq_getLast_of_ne_nil hne)
    simpa using hlast

/-- The command of one line receives the arguments exactly when they fit. -/
theorem oneShot_iff {args : List Text} (hne : args ≠ []) :
    (runCommandLine (joinArgs args)).argv = some args ↔ OneShotFits args := by
  rw [runCommandLine_argv]
  constructor
  · intro h
    split at h
    · cases h
    rename_i hbuf
    split at h
    · cases h
    have hargs := Option.some.inj h
    -- the arguments are as long as their line, so the buffer holds all of it
    obtain ⟨hle, hplain⟩ :=
      @Words.plain_of_weight _ _ isSep isQuote (rstripCrlf ((joinArgs args).take 1023)) 32
    have hprefix : rstripCrlf ((joinArgs args).take 1023) <+: (joinArgs args).take 1023 := List.rdropWhile_prefix _ _
    have hlen := hprefix.length_le
    rw [tokens] at hargs
    rw [hargs, weight_args hne] at hle hplain
    rw [List.length_take] at hlen
    have hfit : (joinArgs args).length ≤ 1023 := by omega
    rw [List.take_of_length_le hfit] at hprefix hle hplain hbuf
    have hself : rstripCrlf (joinArgs args) = joinArgs args := hprefix.eq_of_length_le (by omega)
    rw [hself] at hplain hbuf
    refine ⟨hplain rfl, ?_, hfit, fun hhead => hbuf (Or.inr hhead), rstripCrlf_eq_self_iff.mp hself⟩
    rw [← hargs]
    exact List.length_take_le _ _
  · rintro ⟨hwords, hcount, hfit, hcomment, hlast⟩
    have htokens : tokens (joinArgs args) = args := by
      rw [tokens, joinArgs_eq]
      exact Words.words_intercalate (by decide) hwords
    have hline : joinArgs args ≠ [] := fun hnil => by
      rw [hnil] at htokens
      exact hne htokens.symm
    rw [List.take_of_length_le hfit, rstripCrlf_eq_self_iff.mpr hlast, htokens, List.take_of_length_le hcount,
      if_neg (by simp [hline, hcomment]), if_neg hne]

/-- What is run receives all arguments: a script its path, with an option of the program itself behind it. -/
def Start.Keeps (args : List Text) : Start → Prop
  | .repl => args = []
  | .script doArgv interactive => args = doArgv.drop 1 ++ if interactive then [ascii "--interactive"] else []
  | .doCommand doArgv => args = doArgv
  | .oneShot line _ => (runCommandLine line).argv = some args

/-- The arguments that are kept: a script may have the one option behind it. -/
def ArgumentsFit : List Text → Prop
  | [] => True
  | path :: rest =>
      if endsWith path (ascii ".script") then rest = [] ∨ rest = [ascii "--interactive"]
      else path = ascii "do" ∨ OneShotFits (path :: rest)

theorem keeps_iff (args : List Text) : (mainDispatch args).Keeps args ↔ ArgumentsFit args := by
  cases args with
  | nil => exact iff_of_true rfl trivial
  | cons path rest =>
      rw [mainDispatch, ArgumentsFit]
      by_cases hscript : endsWith path (ascii ".script") = true
      · rw [if_pos hscript, if_pos hscript]
        cases rest with
        | nil => simp [Start.Keeps]
        | cons option rest =>
            by_cases hoption : option = ascii "--interactive"
            · simp [Start.Keeps, hoption]
            · simp [Start.Keeps, hoption]
      rw [if_neg hscript, if_neg hscript]
      by_cases hdo : path = ascii "do"
      · rw [if_pos hdo]
        exact iff_of_true rfl (Or.inl hdo)
      · rw [if_neg hdo, or_iff_right hdo]
        exact oneShot_iff (List.cons_ne_nil path rest)

/-! ## Scripts and arguments -/

theorem flatMap_filterMap (file : List UInt8) :
    (readPieces file).filterMap pieceCommand = (Lines.splitEnds 10 file).flatMap lineCommands := by
  rw [readPieces_lines, List.filterMap_flatMap]
  rfl

/-- A script runs the commands of its lines in turn, up to one that fails. A line runs what it should exactly when it
fits, and arguments are kept exactly when they do. -/
theorem dispatch_faithful_iff (exec : List (List Text) → List Text → Int) (file : List UInt8) (args : List Text) :
    (∃ k, (doLoop exec (readPieces file) []).2 = ((Lines.splitEnds 10 file).flatMap lineCommands).take k) ∧
    ((doLoop exec (readPieces file) []).1 = 0 →
      (doLoop exec (readPieces file) []).2 = (Lines.splitEnds 10 file).flatMap lineCommands) ∧
    (∀ raw ∈ Lines.splitEnds 10 file, lineCommands raw = (intended raw).toList ↔ LineFits raw) ∧
    ((mainDispatch args).Keeps args ↔ ArgumentsFit args) := by
  obtain ⟨k, hrun, hall⟩ := doLoop_called exec (readPieces file) []
  rw [List.nil_append, flatMap_filterMap] at hrun hall
  exact ⟨⟨k, hrun⟩, hall, fun raw hraw => lineCommands_iff (newline_last hraw), keeps_iff args⟩

theorem dispatch_faithful_help : (lineCommands (ascii "help\n") = (intended (ascii "help\n")).toList ↔ LineFits (ascii "help\n")) ∧
    (doLoop (fun _ _ => 0) (readPieces (ascii "help\n")) []).2 = (Lines.splitEnds 10 (ascii "help\n")).flatMap lineCommands :=
  ⟨(dispatch_faithful_iff (fun _ _ => 0) (ascii "help\n") [ascii "help"]).2.2.1 (ascii "help\n") (by decide +kernel),
    (dispatch_faithful_iff (fun _ _ => 0) (ascii "help\n") [ascii "help"]).2.1 (by decide +kernel)⟩

/-- A comment of 1023 bytes and more: its end is run as a command. -/
def longComment : List UInt8 := List.replicate 1023 35 ++ ascii "rm x"

theorem longComment_runs : lineCommands longComment = [[ascii "rm", ascii "x"]] := by
  have hcut : readPieces longComment = [List.replicate 1023 35, ascii "rm x"] := by decide +kernel
  have hfirst : pieceCommand (List.replicate 1023 35) = none := by decide +kernel
  have hsecond : pieceCommand (ascii "rm x") = some [ascii "rm", ascii "x"] := by decide +kernel
  rw [lineCommands, hcut, List.filterMap_cons_none hfirst, List.filterMap_cons_some hsecond, List.filterMap_nil]

/-- The end of a long comment is run, and an argument with a blank becomes two. -/
theorem dispatch_splits :
    (longComment ∈ Lines.splitEnds 10 longComment ∧ lineCommands longComment ≠ (intended longComment).toList) ∧
      ¬ (mainDispatch [ascii "rm", ascii "a b"]).Keeps [ascii "rm", ascii "a b"] := by
  refine ⟨⟨?_, ?_⟩, ?_⟩
  · have hnl : (10 : UInt8) ∉ longComment := by decide +kernel
    rw [Lines.splitEnds_line hnl (by decide +kernel)]
    exact List.mem_singleton_self longComment
  · have hnone : intended longComment = none := by decide +kernel
    rw [longComment_runs, hnone]
    exact List.cons_ne_nil _ _
  · rw [keeps_iff]
    intro h
    have hfits : OneShotFits [ascii "rm", ascii "a b"] := by
      rw [ArgumentsFit, if_neg (by decide)] at h
      exact h.resolve_left (by decide)
    have hplain := hfits.words (ascii "a b") (by simp)
    exact absurd (hplain.seps 32 (by decide)) (by decide)

end Guppy.Cli
