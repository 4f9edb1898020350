import Guppy.Account.Commands

set_option autoImplicit false

/-! # The lines that the account commands enter

A line of `passwd` has seven fields between colons, and a line of `shadow` nine. `useradd` and `passwd` paste their
values into such a line through a fixed buffer. The comment, the home, the shell and a hash are taken as they are, so the
line has the intended fields exactly when these hold no colon and no newline and the line fits the buffer
(`useradd_adds_iff`, `passwd_enters_iff`).
-/

namespace Guppy.Account

open Vfs (Text)
open Pkg (ascii)
open Digits (numeral)

/-! ## Records -/

/-- A value that can be a field of a line. -/
structure Plain (f : Text) : Prop where
  colon : 58 ∉ f
  newline : 10 ∉ f

/-- The line of the fields. -/
def record (fields : List Text) : Text := [58].intercalate fields

/-- The file got one line more, with these fields. -/
def AddsLine (writes : List (AccountFile × Text)) (f : AccountFile) (oldText : Text) (fields : List Text) : Prop :=
  ∃ text line, (f, text) ∈ writes ∧ textLines text = textLines oldText ++ [line] ∧ line.splitOn 58 = fields

/-- The lines of the name became one line with these fields, or there is one line more. -/
def EntersLine (writes : List (AccountFile × Text)) (f : AccountFile) (name oldText : Text) (fields : List Text) : Prop :=
  ∃ text line, (f, text) ∈ writes ∧ textLines text = replacedLines name line (textLines oldText) ∧ line.splitOn 58 = fields

section Records

variable {fields : List Text} {n : Nat}

theorem mem_record {f : Text} {c : UInt8} (hf : f ∈ fields) (hc : c ∈ f) : c ∈ record fields := by
  unfold record
  induction fields with
  | nil => cases hf
  | cons g fields ih =>
      cases fields with
      | nil =>
          rw [List.mem_singleton.mp hf] at hc
          rw [List.intercalate_singleton]
          exact hc
      | cons g' fields =>
          rw [List.intercalate_cons_cons]
          rcases List.mem_cons.mp hf with rfl | hf
          · simp [hc]
          · simp [ih hf]

theorem newline_not_mem_record (h : ∀ f ∈ fields, Plain f) : 10 ∉ record fields := by
  unfold record
  induction fields with
  | nil => exact List.not_mem_nil
  | cons g fields ih =>
      obtain ⟨hg, hfields⟩ := List.forall_mem_cons.mp h
      cases fields with
      | nil =>
          rw [List.intercalate_singleton]
          exact hg.newline
      | cons g' fields =>
          rw [List.intercalate_cons_cons]
          simp [hg.newline, ih hfields]

/-- What is left of a record in a buffer is a line with its fields exactly when they are plain and the record fits. -/
theorem cut_record_iff (hne : fields ≠ []) :
    10 ∉ (record fields).take n ∧ ((record fields).take n).splitOn 58 = fields ↔
      (∀ f ∈ fields, Plain f) ∧ (record fields).length ≤ n := by
  rw [Lines.splitOn_eq_iff hne]
  constructor
  · rintro ⟨hline, hcut, hcolon⟩
    have hlen : (record fields).length ≤ n := by
      have := congrArg List.length hcut
      rw [List.length_take] at this
      change min n _ = (record fields).length at this
      omega
    rw [List.take_of_length_le hlen] at hline
    exact ⟨fun f hf => ⟨hcolon f hf, fun hc => hline (mem_record hf hc)⟩, hlen⟩
  · rintro ⟨hplain, hlen⟩
    rw [List.take_of_length_le hlen]
    exact ⟨newline_not_mem_record hplain, rfl, fun f hf => (hplain f hf).colon⟩

/-- The lines of a file after a text is appended to it. -/
theorem textLines_append {old line text : Text} (hne : line ≠ []) (h : accountAppendLine old line = some text) :
    textLines text = textLines old ++ Lines.split 10 line := by
  rw [accountAppendLine_eq] at h
  have hend : (line ++ if line.getLast? = some 10 then [] else [10]) = Lines.ended 10 line := by
    unfold Lines.ended
    by_cases hlast : line.getLast? = some 10
    · rw [if_pos hlast, if_pos (Or.inr hlast), List.append_nil]
    · rw [if_neg hlast, if_neg fun h => h.elim hne hlast]
  rw [← Option.some.inj h, List.append_assoc, hend, textLines_eq, textLines_eq, Lines.split_ended_append, Lines.split_ended]

/-- An appended record is one line with its fields exactly when it is cut nowhere and no field breaks it. -/
theorem appended_iff {old text : Text} (hne : fields ≠ []) (hcut : (record fields).take n ≠ [])
    (h : accountAppendLine old ((record fields).take n) = some text) :
    (∃ line, textLines text = textLines old ++ [line] ∧ line.splitOn 58 = fields) ↔
      (∀ f ∈ fields, Plain f) ∧ (record fields).length ≤ n := by
  rw [textLines_append hcut h, ← cut_record_iff hne]
  constructor
  · rintro ⟨line, hlines, hfields⟩
    have hsplit := List.append_cancel_left hlines
    have hline : 10 ∉ line := Lines.not_mem_of_mem_split (by rw [hsplit]; exact List.mem_singleton_self line)
    -- the text is the line, with its end or without it
    have hended : Lines.join 10 (Lines.split 10 ((record fields).take n)) = Lines.ended 10 ((record fields).take n) :=
      Lines.join_split _
    rw [hsplit, Lines.join_cons, Lines.join_nil] at hended
    have hrec := ((Lines.splitOn_eq_iff hne).mp hfields).1
    have hle : ((record fields).take n).length ≤ line.length := by
      rw [hrec, List.length_take]
      exact Nat.min_le_right n _
    have hsame : (record fields).take n = line := by
      unfold Lines.ended at hended
      split at hended
      · have hlen := congrArg List.length hended
        rw [List.length_append, List.length_singleton] at hlen
        omega
      · exact (List.append_cancel_right hended).symm
    rw [hsame]
    exact ⟨hline, hfields⟩
  · rintro ⟨hline, hfields⟩
    exact ⟨_, by rw [Lines.split_line hline hcut], hfields⟩

theorem length_replacedLines (name line line' : Text) (lines : List Text) :
    (replacedLines name line lines).length = (replacedLines name line' lines).length := by
  unfold replacedLines
  split
  · rw [List.length_map, List.length_map]
  · rw [List.length_append, List.length_append, List.length_singleton, List.length_singleton]

theorem mem_replacedLines (name line : Text) (lines : List Text) : line ∈ replacedLines name line lines := by
  unfold replacedLines
  by_cases hany : lines.any (isEntryOf name) = true
  · obtain ⟨l, hl, he⟩ := List.any_eq_true.mp hany
    rw [if_pos hany]
    exact List.mem_map.mpr ⟨l, hl, if_pos he⟩
  · rw [if_neg hany]
    exact List.mem_append_right _ (List.mem_singleton_self line)

theorem replacedLines_injective {name line line' : Text} {lines : List Text}
    (h : replacedLines name line lines = replacedLines name line' lines) : line = line' := by
  unfold replacedLines at h
  by_cases hany : lines.any (isEntryOf name) = true
  · obtain ⟨l, hl, he⟩ := List.any_eq_true.mp hany
    rw [if_pos hany, if_pos hany] at h
    have hat := List.map_inj_left.mp h l hl
    rw [if_pos he, if_pos he] at hat
    exact hat
  · rw [if_neg hany, if_neg hany] at h
    exact List.singleton_inj.mp (List.append_cancel_left h)

/-- A record that is entered for a name is one line with its fields under the same condition. -/
theorem entered_iff {old name text : Text} (hne : fields ≠ [])
    (h : accountReplaceNamedLine old name ((record fields).take n) = some text) :
    (∃ line, textLines text = replacedLines name line (textLines old) ∧ line.splitOn 58 = fields) ↔
      (∀ f ∈ fields, Plain f) ∧ (record fields).length ≤ n := by
  rw [accountReplaceNamedLine_eq] at h
  rw [← cut_record_iff hne, ← Option.some.inj h]
  constructor
  · rintro ⟨line, hlines, hfields⟩
    -- there are as many lines as texts, so none of these holds a newline
    have hlen := congrArg List.length hlines
    rw [length_replacedLines name line ((record fields).take n), textLines_eq] at hlen
    have hall := Lines.not_mem_of_length_split hlen
    rw [textLines_join hall] at hlines
    rw [replacedLines_injective hlines] at hall ⊢
    exact ⟨hall _ (mem_replacedLines name line _), hfields⟩
  · rintro ⟨hline, hfields⟩
    refine ⟨_, textLines_join fun l hl => ?_, hfields⟩
    unfold replacedLines at hl
    split at hl
    · obtain ⟨l', hl', rfl⟩ := List.mem_map.mp hl
      split
      · exact hline
      · exact not_mem_textLines hl'
    · rcases List.mem_append.mp hl with hl | hl
      · exact not_mem_textLines hl
      · rw [List.mem_singleton.mp hl]
        exact hline

end Records

/-! ## Values that the commands make -/

theorem plain_of_digits {f : Text} (h : ∀ c ∈ f, 48 ≤ c.toNat ∧ c.toNat < 58) : Plain f :=
  ⟨fun hc => absurd (h 58 hc).2 (by decide), fun hc => absurd (h 10 hc).1 (by decide)⟩

theorem unsigned_plain (v : UInt32) : Plain (unsigned v) :=
  plain_of_digits fun _ hc => Digits.mem_numeral (by omega) (by omega) hc

theorem signed_plain (v : Int) : Plain (signed v) := by
  have hdigits : Plain (numeral 10 v.natAbs) := plain_of_digits fun _ hc => Digits.mem_numeral (by omega) (by omega) hc
  unfold signed
  split
  · exact ⟨by simp [hdigits.colon], by simp [hdigits.newline]⟩
  · exact hdigits

theorem length_signed_days (now : Int64) : (signed (daysOf now)).length ≤ 20 := by
  have hlow := now.le_toInt
  have hhigh := now.toInt_lt
  have hdays : (daysOf now).natAbs < 10 ^ 19 := by
    unfold daysOf
    rw [Int.natAbs_tdiv]
    refine Nat.lt_of_le_of_lt (Nat.div_le_self _ _) ?_
    omega
  have hlen : (numeral 10 (daysOf now).natAbs).length ≤ 19 := Digits.length_numeral_le (by omega) hdays
  unfold signed
  rw [List.length_append]
  split
  · rw [List.length_singleton]
    omega
  · rw [List.length_nil]
    omega

theorem b64Loop_mem (n : Nat) : ∀ {w : Nat} {c : UInt8}, c ∈ b64Loop n w → c ∈ b64t := by
  induction n with
  | zero => exact fun hc => absurd hc List.not_mem_nil
  | succ n ih =>
      intro w c hc
      rcases List.mem_cons.mp hc with rfl | hc
      · have hlt : w % 64 < b64t.length := Nat.lt_of_lt_of_eq (Nat.mod_lt w (by omega)) (by decide +kernel)
        rw [List.getD_eq_getElem _ _ hlt]
        exact List.getElem_mem hlt
      · exact ih hc

theorem encodeC_mem {d : List UInt8} {c : UInt8} (hc : c ∈ encodeC d) : c ∈ b64t := by
  simp only [encodeC, List.mem_append] at hc
  rcases hc with (((((((((hc | hc) | hc) | hc) | hc) | hc) | hc) | hc) | hc) | hc) | hc
  all_goals exact b64Loop_mem _ hc

theorem saltLoop_mem (n : Nat) : ∀ {x : UInt64} {c : UInt8}, c ∈ saltLoop n x → c ∈ saltAlphabet := by
  induction n with
  | zero => exact fun hc => absurd hc List.not_mem_nil
  | succ n ih =>
      intro x c hc
      rcases List.mem_cons.mp hc with rfl | hc
      · have hlen : saltAlphabet.length = 64 := by decide +kernel
        have hlt : ∀ y : UInt64, (y &&& 63).toNat < saltAlphabet.length := fun y => by
          rw [hlen, UInt64.toNat_and]
          exact Nat.lt_of_le_of_lt Nat.and_le_right (by decide)
        rw [List.getD_eq_getElem _ _ (hlt _)]
        exact List.getElem_mem (hlt _)
      · exact ih hc

theorem saltOf_mem {saltIn : Text} {c : UInt8} (hc : c ∈ saltOf saltIn) : c ∈ saltIn :=
  List.takeWhile_subset _ (List.mem_of_mem_take hc)

/-- The hash of a password can be a field. -/
theorem crypt_plain {p h : Text} {seed : UInt64} {cap : Nat} (hc : accountSha256Crypt p (makeSalt seed) cap = some h) :
    Plain h ∧ h.length < cap := by
  unfold accountSha256Crypt at hc
  dsimp only [] at hc
  split at hc
  · cases hc
  split at hc
  · rename_i hlen
    rw [← Option.some.inj hc]
    have hsalt : ∀ c, c ∉ saltAlphabet → c ∉ saltOf (makeSalt seed) := fun c hno hmem => hno (saltLoop_mem 16 (saltOf_mem hmem))
    have hcode : ∀ c, c ∉ b64t → ∀ d, c ∉ encodeC d := fun c hno d hmem => hno (encodeC_mem hmem)
    refine ⟨⟨?_, ?_⟩, hlen⟩
    · simp [hsalt 58 (by decide +kernel), hcode 58 (by decide +kernel)]
    · simp [hsalt 10 (by decide +kernel), hcode 10 (by decide +kernel)]
  · cases hc

/-! ## `useradd` -/

/-- The fields of the two lines that `useradd` is to add. -/
def UseraddJob.passwdFields (j : UseraddJob) : List Text :=
  [j.name, ascii "x", unsigned j.uid, unsigned j.gid, j.comment, j.home, j.shell]

/-- The fields of a line of `shadow`: a name, a hash, the day of the last change and the ageing values. -/
def shadowFields (name hash : Text) (now : Int64) : List Text :=
  [name, hash, signed (daysOf now), ascii "0", ascii "99999", ascii "7", [], [], []]

/-- What `useradd` is to write. -/
structure UseraddJob.Adds (j : UseraddJob) (now : Int64) (writes : List (AccountFile × Text)) : Prop where
  passwd : AddsLine writes .passwd j.passwdText j.passwdFields
  shadow : AddsLine writes .shadow j.shadowText (shadowFields j.name (ascii "!") now)

/-- The free texts can be fields, and the line with its six colons and the `x` fits 511 bytes. -/
structure UseraddJob.Fits (j : UseraddJob) : Prop where
  comment : Plain j.comment
  home : Plain j.home
  shell : Plain j.shell
  length : j.name.length + (unsigned j.uid).length + (unsigned j.gid).length + j.comment.length + j.home.length +
    j.shell.length + 7 ≤ 511

theorem ascii_colon : ascii ":" = [58] := by decide

theorem UseraddJob.passwdFields_ne_nil (j : UseraddJob) : j.passwdFields ≠ [] := List.cons_ne_nil _ _

theorem shadowFields_ne_nil (name hash : Text) (now : Int64) : shadowFields name hash now ≠ [] := List.cons_ne_nil _ _

theorem pline_eq (j : UseraddJob) : j.pline = (record j.passwdFields).take 511 := by
  have hx : ascii ":x:" = [58, 120, 58] := by decide
  have hx' : ascii "x" = [120] := by decide
  simp [UseraddJob.pline, UseraddJob.passwdFields, snprintf, record, hx, hx', ascii_colon, List.intercalate_cons_cons]

theorem length_passwdRecord (j : UseraddJob) : (record j.passwdFields).length = j.name.length + (unsigned j.uid).length +
    (unsigned j.gid).length + j.comment.length + j.home.length + j.shell.length + 7 := by
  have hx : (ascii "x").length = 1 := by decide
  simp only [UseraddJob.passwdFields, record, List.intercalate_cons_cons, List.intercalate_singleton, List.length_append,
    List.length_singleton, hx]
  omega

theorem ageing_eq : ascii ":0:99999:7:::" = 58 :: record [ascii "0", ascii "99999", ascii "7", [], [], []] := by
  decide +kernel

theorem shadowRecord_eq (name hash : Text) (now : Int64) : record (shadowFields name hash now) =
    name ++ ascii ":" ++ hash ++ ascii ":" ++ signed (daysOf now) ++ ascii ":0:99999:7:::" := by
  rw [ageing_eq, ascii_colon]
  simp [shadowFields, record, List.intercalate_cons_cons]

theorem shadowFields_plain {name hash : Text} (hname : Plain name) (now : Int64) :
    (∀ f ∈ shadowFields name hash now, Plain f) ↔ Plain hash := by
  have hconst : Plain (ascii "0") ∧ Plain (ascii "99999") ∧ Plain (ascii "7") ∧ Plain [] := by
    refine ⟨⟨?_, ?_⟩, ⟨?_, ?_⟩, ⟨?_, ?_⟩, ⟨?_, ?_⟩⟩
    all_goals decide
  obtain ⟨h0, h99999, h7, hnil⟩ := hconst
  simp [shadowFields, hname, signed_plain, h0, h99999, h7, hnil]

theorem length_shadowRecord (name hash : Text) (now : Int64) :
    (record (shadowFields name hash now)).length ≤ name.length + hash.length + 35 := by
  have hdays := length_signed_days now
  have hage : (ascii ":0:99999:7:::").length = 13 := by decide
  rw [shadowRecord_eq, ascii_colon]
  simp only [List.length_append, List.length_singleton, hage]
  omega

/-! ## Runs that succeed -/

theorem writeAccounts_all (t : Target) (root : Text) (l : List (AccountFile × Text)) :
    (writeAccounts t root l).2 = true → (writeAccounts t root l).1 = l := by
  induction l with
  | nil => exact fun _ => rfl
  | cons p l ih =>
      obtain ⟨f, text⟩ := p
      rw [writeAccounts]
      cases accountJoinPath 512 root f.rel with
      | none => exact nofun
      | some path =>
          dsimp only []
          split
          · exact nofun
          · exact fun h => congrArg (List.cons (f, text)) (ih h)

/-- A job that has been settled, or an error, which is not zero. -/
def Settled {α : Type} (P : α → Prop) : Except Nat α → Prop
  | .error rc => rc ≠ 0
  | .ok j => P j

theorem settleUseradd_name (o : UseraddArgs) (root name p s g gs : Text) :
    Settled (fun j => j.name = name) (settleUseradd o root name p s g gs) := by
  unfold settleUseradd
  split
  · exact Nat.succ_ne_zero 0
  split
  · exact Nat.succ_ne_zero 0
  dsimp only []
  split
  · exact Nat.succ_ne_zero 0
  · rfl

/-- The name that a job enters is valid. -/
theorem useraddJob_settled (t : Target) (argv : List Text) :
    Settled (fun j => accountValidName j.name = true) (useraddJob t argv) := by
  unfold useraddJob
  split
  · exact Nat.succ_ne_zero 1
  split
  · rename_i root name _ _
    by_cases hvalid : accountValidName name = false
    · rw [if_pos hvalid]
      exact Nat.succ_ne_zero 1
    rw [if_neg hvalid]
    split
    · exact Nat.succ_ne_zero 0
    split
    · exact Nat.succ_ne_zero 0
    split
    · rename_i p s g gs _ _ _ _
      have hname := settleUseradd_name ‹_› root name p s g gs
      revert hname
      generalize settleUseradd _ root name p s g gs = r
      cases r with
      | error rc => exact fun h => h
      | ok j =>
          intro h
          show accountValidName j.name = true
          rw [show j.name = name from h]
          exact (Bool.not_eq_false _).mp hvalid
    · exact Nat.succ_ne_zero 0
  · exact Nat.succ_ne_zero 1

theorem passwdJob_settled (t : Target) (argv : List Text) :
    Settled (fun j => accountValidName j.name = true) (passwdJob t argv) := by
  unfold passwdJob
  split
  · exact Nat.succ_ne_zero 1
  split
  · rename_i root name secret _ _ _
    by_cases hvalid : accountValidName name = false
    · rw [if_pos hvalid]
      exact Nat.succ_ne_zero 1
    rw [if_neg hvalid]
    split
    · split
      · exact Nat.succ_ne_zero 0
      · exact (Bool.not_eq_false _).mp hvalid
    · exact Nat.succ_ne_zero 0
  · exact Nat.succ_ne_zero 1

theorem plain_of_valid {name : Text} (h : accountValidName name = true) : Plain name :=
  ⟨(accountValidName_plain h).1, (accountValidName_plain h).2⟩

/-- A run of `useradd` that succeeds has written the two files with the lines appended. -/
theorem useradd_writes {j : UseraddJob} {t : Target} {now : Int64} (h : (j.run t now).rc = 0) :
    ∃ np ns, accountAppendLine j.passwdText j.pline = some np ∧ accountAppendLine j.shadowText (j.sline now) = some ns ∧
      ∀ text, ((.passwd, text) ∈ (j.run t now).writes ↔ text = np) ∧ ((.shadow, text) ∈ (j.run t now).writes ↔ text = ns) := by
  unfold UseraddJob.run at h ⊢
  cases htexts : j.texts now with
  | none =>
      rw [htexts] at h
      cases h
  | some texts =>
      rw [htexts] at h
      dsimp only [] at h ⊢
      by_cases hfail : (writeAccounts t j.root texts).2 = false
      · rw [if_pos hfail] at h
        cases h
      rw [if_neg hfail] at h ⊢
      split at h
      · cases h
      rename_i hhome
      rw [if_neg hhome]
      have hall := writeAccounts_all t j.root texts ((Bool.not_eq_false _).mp hfail)
      dsimp only []
      rw [hall]
      -- the first two of the texts are those of the two files
      unfold UseraddJob.texts at htexts
      obtain ⟨np, hnp, htexts⟩ := Option.bind_eq_some_iff.mp htexts
      obtain ⟨ns, hns, htexts⟩ := Option.bind_eq_some_iff.mp htexts
      refine ⟨np, ns, hnp, hns, fun text => ?_⟩
      split at htexts
      · obtain ⟨ng, -, htexts⟩ := Option.bind_eq_some_iff.mp htexts
        obtain ⟨ngs, -, htexts⟩ := Option.bind_eq_some_iff.mp htexts
        rw [← Option.some.inj htexts]
        simp
      · rw [← Option.some.inj htexts]
        simp

/-- A file that is written once has the line more that its text has. -/
theorem addsLine_iff {writes : List (AccountFile × Text)} {f : AccountFile} {oldText new : Text} {fields : List Text}
    (hwrites : ∀ text, (f, text) ∈ writes ↔ text = new) : AddsLine writes f oldText fields ↔
      ∃ line, textLines new = textLines oldText ++ [line] ∧ line.splitOn 58 = fields := by
  constructor
  · rintro ⟨text, line, hmem, hlines⟩
    rw [(hwrites text).mp hmem] at hlines
    exact ⟨line, hlines⟩
  · rintro ⟨line, hlines⟩
    exact ⟨new, line, (hwrites new).mpr rfl, hlines⟩

/-- The line of `passwd` has its fields when the free texts can be fields and fit. -/
theorem pline_added_iff {j : UseraddJob} {text : Text} (hname : accountValidName j.name = true)
    (h : accountAppendLine j.passwdText j.pline = some text) :
    (∃ line, textLines text = textLines j.passwdText ++ [line] ∧ line.splitOn 58 = j.passwdFields) ↔ j.Fits := by
  have hpos : 0 < j.name.length := List.length_pos_iff.mpr (accountValidName_spec hname).1
  have hcut : (record j.passwdFields).take 511 ≠ [] := by
    rw [Ne, List.take_eq_nil_iff, ← List.length_eq_zero_iff, length_passwdRecord]
    omega
  rw [pline_eq] at h
  rw [appended_iff j.passwdFields_ne_nil hcut h, length_passwdRecord]
  constructor
  · rintro ⟨hall, hfit⟩
    exact ⟨hall _ (by simp [UseraddJob.passwdFields]), hall _ (by simp [UseraddJob.passwdFields]),
      hall _ (by simp [UseraddJob.passwdFields]), hfit⟩
  · rintro ⟨hcomment, hhome, hshell, hfit⟩
    refine ⟨?_, hfit⟩
    have hx : Plain (ascii "x") := ⟨by decide, by decide⟩
    simp [UseraddJob.passwdFields, plain_of_valid hname, hx, unsigned_plain, hcomment, hhome, hshell]

/-- The line of `shadow` always has its fields. -/
theorem sline_added {j : UseraddJob} {now : Int64} {text : Text} (hname : accountValidName j.name = true)
    (h : accountAppendLine j.shadowText (j.sline now) = some text) : ∃ line,
      textLines text = textLines j.shadowText ++ [line] ∧ line.splitOn 58 = shadowFields j.name (ascii "!") now := by
  obtain ⟨hne, hlen, -⟩ := accountValidName_spec hname
  have hbang : Plain (ascii "!") := ⟨by decide, by decide⟩
  have hlong := length_shadowRecord j.name (ascii "!") now
  have hone : (ascii "!").length = 1 := by decide
  have hline : j.sline now = (record (shadowFields j.name (ascii "!") now)).take 255 := by
    have hsep : ascii ":!:" = ascii ":" ++ ascii "!" ++ ascii ":" := by decide
    rw [shadowRecord_eq, UseraddJob.sline, snprintf, hsep]
    simp
  have hcut : (record (shadowFields j.name (ascii "!") now)).take 255 ≠ [] := by
    rw [Ne, List.take_eq_nil_iff, shadowRecord_eq]
    simp [hne]
  rw [hline] at h
  exact (appended_iff (shadowFields_ne_nil _ _ _) hcut h).mpr
    ⟨(shadowFields_plain (plain_of_valid hname) now).mpr hbang, by omega⟩

theorem useradd_adds_iff {j : UseraddJob} {t : Target} {now : Int64} (hname : accountValidName j.name = true)
    (h : (j.run t now).rc = 0) : j.Adds now (j.run t now).writes ↔ j.Fits := by
  obtain ⟨np, ns, hnp, hns, hwrites⟩ := useradd_writes h
  have hpasswd : AddsLine (j.run t now).writes .passwd j.passwdText j.passwdFields ↔ j.Fits :=
    (addsLine_iff fun text => (hwrites text).1).trans (pline_added_iff hname hnp)
  have hshadow : AddsLine (j.run t now).writes .shadow j.shadowText (shadowFields j.name (ascii "!") now) :=
    (addsLine_iff fun text => (hwrites text).2).mpr (sline_added hname hns)
  exact ⟨fun hadds => hpasswd.mp hadds.passwd, fun hfits => ⟨hpasswd.mpr hfits, hshadow⟩⟩

/-! ## `passwd` -/

/-- The hash that is to be entered. -/
def Secret.intended (seed : UInt64) : Secret → Option Text
  | .hash h => some h
  | .password p => accountSha256Crypt p (makeSalt seed) 160

/-- What `passwd` is to write. -/
def PasswdJob.Enters (j : PasswdJob) (now : Int64) (hash : Text) (writes : List (AccountFile × Text)) : Prop :=
  EntersLine writes .shadow j.name j.shadowText (shadowFields j.name hash now)

/-- A hash that is given can be a field. -/
def PasswdJob.Fits (j : PasswdJob) : Prop := ∀ h, j.secret = .hash h → Plain h

/-- The buffer holds the intended hash; one that is made of a password is plain. -/
theorem hashOf_ok {seed : UInt64} {s : Secret} {hash : Text} (h : hashOf seed s = .ok hash) :
    s.intended seed = some hash ∧ hash.length < 160 ∧ ((∀ h, s = .hash h → Plain h) ↔ Plain hash) := by
  cases s with
  | hash g =>
      rw [hashOf] at h
      by_cases hbad : g.length ≥ 160 ∨ g.head? ≠ some 36
      · rw [if_pos hbad] at h
        cases h
      · rw [if_neg hbad] at h
        have hcut : snprintf 160 g = g := List.take_of_length_le (by omega)
        rw [hcut] at h
        cases h
        exact ⟨rfl, by omega, fun hall => hall hash rfl, fun hg h' he => Secret.hash.inj he ▸ hg⟩
  | password p =>
      rw [hashOf] at h
      cases hcrypt : accountSha256Crypt p (makeSalt seed) 160 with
      | none =>
          rw [hcrypt] at h
          cases h
      | some g =>
          rw [hcrypt] at h
          cases h
          obtain ⟨hplain, hlen⟩ := crypt_plain hcrypt
          exact ⟨hcrypt, hlen, fun _ => hplain, fun _ => nofun⟩

theorem passwd_enters_iff {j : PasswdJob} {t : Target} {now : Int64} {seed : UInt64} (hname : accountValidName j.name = true)
    (h : (j.run t now seed).rc = 0) :
    ∃ hash, j.secret.intended seed = some hash ∧ (j.Enters now hash (j.run t now seed).writes ↔ j.Fits) := by
  obtain ⟨hne, hlen, -⟩ := accountValidName_spec hname
  unfold PasswdJob.run at h ⊢
  cases hhash : hashOf seed j.secret with
  | error rc =>
      rw [hhash] at h
      -- the errors of the hash are not zero
      have hrc : rc = 0 := h
      unfold hashOf at hhash
      split at hhash
      · split at hhash
        · cases hhash
          cases hrc
        · cases hhash
      · split at hhash
        · cases hhash
          cases hrc
        · cases hhash
  | ok hash =>
      obtain ⟨hintended, hshort, hfits⟩ := hashOf_ok hhash
      rw [hhash] at h
      dsimp only [] at h ⊢
      have hline : j.line now hash = (record (shadowFields j.name hash now)).take 319 := by
        rw [shadowRecord_eq, PasswdJob.line, snprintf]
      have hlong := length_shadowRecord j.name hash now
      cases hns : accountReplaceNamedLine j.shadowText j.name (j.line now hash) with
      | none =>
          rw [hns] at h
          cases h
      | some ns =>
          rw [hns] at h
          dsimp only [] at h ⊢
          have hwritten : (writeAccounts t j.root [(.shadow, ns)]).2 = true := by
            cases hw : (writeAccounts t j.root [(.shadow, ns)]).2 with
            | true => rfl
            | false =>
                rw [hw, if_pos rfl] at h
                cases h
          rw [writeAccounts_all t j.root _ hwritten]
          rw [hline] at hns
          have hiff := entered_iff (shadowFields_ne_nil _ _ _) hns
          have hfit : (record (shadowFields j.name hash now)).length ≤ 319 := by omega
          rw [shadowFields_plain (plain_of_valid hname) now, and_iff_left hfit] at hiff
          refine ⟨hash, hintended, ?_⟩
          calc j.Enters now hash [(.shadow, ns)]
              ↔ ∃ line, textLines ns = replacedLines j.name line (textLines j.shadowText) ∧
                  line.splitOn 58 = shadowFields j.name hash now := by simp [PasswdJob.Enters, EntersLine]
            _ ↔ Plain hash := hiff
            _ ↔ j.Fits := hfits.symm

/-! ## Both commands -/

/-- A run that succeeds has entered the intended line exactly when the free texts can be fields and fit. -/
theorem account_records_iff (t : Target) (now : Int64) (seed : UInt64) (argv : List Text) :
    ((cmdUseradd t now argv).rc = 0 → ∃ j, useraddJob t argv = .ok j ∧
      (j.Adds now (cmdUseradd t now argv).writes ↔ j.Fits)) ∧
    ((cmdPasswd t now seed argv).rc = 0 → ∃ j hash, passwdJob t argv = .ok j ∧ j.secret.intended seed = some hash ∧
      (j.Enters now hash (cmdPasswd t now seed argv).writes ↔ j.Fits)) := by
  constructor
  · intro hrc
    have hsettled := useraddJob_settled t argv
    unfold cmdUseradd at hrc ⊢
    cases hj : useraddJob t argv with
    | error rc =>
        rw [hj] at hrc hsettled
        exact absurd hrc hsettled
    | ok j =>
        rw [hj] at hrc hsettled
        exact ⟨j, rfl, useradd_adds_iff hsettled hrc⟩
  · intro hrc
    have hsettled := passwdJob_settled t argv
    unfold cmdPasswd at hrc ⊢
    cases hj : passwdJob t argv with
    | error rc =>
        rw [hj] at hrc hsettled
        exact absurd hrc hsettled
    | ok j =>
        rw [hj] at hrc hsettled
        obtain ⟨hash, hintended, hiff⟩ := passwd_enters_iff hsettled hrc
        exact ⟨j, hash, rfl, hintended, hiff⟩

/-- A target where all operations work; its only account is `root`. -/
def rootOnly : Target where
  mkdirP _ _ := true
  readAll p := if p = ascii "/t/etc/passwd" then some (ascii "root:x:0:0::/root:/bin/sh\n") else some []
  writeAll _ _ _ := true
  chown _ _ _ := true

theorem account_records_bob :
    (∃ j, useraddJob rootOnly [ascii "useradd", ascii "-R", ascii "/t", ascii "bob"] = .ok j ∧
      (j.Adds 0 (cmdUseradd rootOnly 0 [ascii "useradd", ascii "-R", ascii "/t", ascii "bob"]).writes ↔ j.Fits)) ∧
    ∃ j hash, passwdJob rootOnly [ascii "passwd", ascii "-R", ascii "/t", ascii "--hash", ascii "$1", ascii "root"] = .ok j ∧
      j.secret.intended 0 = some hash ∧
      (j.Enters 0 hash (cmdPasswd rootOnly 0 0 [ascii "passwd", ascii "-R", ascii "/t", ascii "--hash", ascii "$1",
        ascii "root"]).writes ↔ j.Fits) :=
  ⟨(account_records_iff rootOnly 0 0 [ascii "useradd", ascii "-R", ascii "/t", ascii "bob"]).1 (by decide +kernel),
    (account_records_iff rootOnly 0 0 [ascii "passwd", ascii "-R", ascii "/t", ascii "--hash", ascii "$1", ascii "root"]).2
      (by decide +kernel)⟩

/-- The account `bob` with the comment `a:b`. -/
def bobJob : UseraddJob :=
  { root := ascii "/t", name := ascii "bob", uid := 1000, gid := 1000, comment := ascii "a:b", home := ascii "/home/bob",
    shell := ascii "/bin/sh", createHome := true, ownGroup := true, passwdText := ascii "root:x:0:0::/root:/bin/sh\n",
    shadowText := [], groupText := [], gshadowText := [] }

/-- A comment with a colon is accepted, and so is a hash with one: the lines do not have the intended fields. -/
theorem accounts_take_colons :
    (useraddJob rootOnly [ascii "useradd", ascii "-R", ascii "/t", ascii "-c", ascii "a:b", ascii "bob"] = .ok bobJob ∧
      (cmdUseradd rootOnly 0 [ascii "useradd", ascii "-R", ascii "/t", ascii "-c", ascii "a:b", ascii "bob"]).rc = 0 ∧
      ¬ bobJob.Adds 0 (cmdUseradd rootOnly 0 [ascii "useradd", ascii "-R", ascii "/t", ascii "-c", ascii "a:b",
        ascii "bob"]).writes) ∧
    ∃ j, passwdJob rootOnly [ascii "passwd", ascii "-R", ascii "/t", ascii "--hash", ascii "$1:", ascii "root"] = .ok j ∧
      (cmdPasswd rootOnly 0 0 [ascii "passwd", ascii "-R", ascii "/t", ascii "--hash", ascii "$1:", ascii "root"]).rc = 0 ∧
      j.secret.intended 0 = some (ascii "$1:") ∧
      ¬ j.Enters 0 (ascii "$1:") (cmdPasswd rootOnly 0 0 [ascii "passwd", ascii "-R", ascii "/t", ascii "--hash", ascii "$1:",
        ascii "root"]).writes := by
  constructor
  · have hjob : useraddJob rootOnly [ascii "useradd", ascii "-R", ascii "/t", ascii "-c", ascii "a:b", ascii "bob"] =
        .ok bobJob := by decide +kernel
    have hrc : (bobJob.run rootOnly 0).rc = 0 := by decide +kernel
    have hrun : cmdUseradd rootOnly 0 [ascii "useradd", ascii "-R", ascii "/t", ascii "-c", ascii "a:b", ascii "bob"] =
        bobJob.run rootOnly 0 := by rw [cmdUseradd, hjob]
    rw [hrun]
    refine ⟨hjob, hrc, fun hadds => ?_⟩
    exact ((useradd_adds_iff (by decide) hrc).mp hadds).comment.colon (by decide)
  · have hjob : passwdJob rootOnly [ascii "passwd", ascii "-R", ascii "/t", ascii "--hash", ascii "$1:", ascii "root"] =
        .ok ⟨ascii "/t", ascii "root", .hash (ascii "$1:"), []⟩ := by decide +kernel
    have hrun : cmdPasswd rootOnly 0 0 [ascii "passwd", ascii "-R", ascii "/t", ascii "--hash", ascii "$1:", ascii "root"] =
        PasswdJob.run ⟨ascii "/t", ascii "root", .hash (ascii "$1:"), []⟩ rootOnly 0 0 := by rw [cmdPasswd, hjob]
    have hrc : (PasswdJob.run ⟨ascii "/t", ascii "root", .hash (ascii "$1:"), []⟩ rootOnly 0 0).rc = 0 := by decide +kernel
    rw [hrun]
    refine ⟨_, hjob, hrc, rfl, fun henters => ?_⟩
    obtain ⟨hash, hintended, hiff⟩ := passwd_enters_iff (by decide) hrc
    cases hintended
    exact (hiff.mp henters (ascii "$1:") rfl).colon (by decide)

end Guppy.Account
