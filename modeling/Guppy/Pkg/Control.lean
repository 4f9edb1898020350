import Guppy.Archive.Ar

set_option autoImplicit false

/-! # Control stanzas

A package is described by a stanza of fields, once in the index of its repository and once in its
own control file. `parse_index` of `src/pkg_repo.c` reads the one and `deb_control_parse` of
`src/deb_control.c` the other. The two split the lines in the same way, and each has its own table
of fields and its own idea of white space. A line that starts with a blank continues the field
before it; `parse_index` leaves such lines out.
-/

namespace Guppy.Pkg

open Vfs Archive

def ascii (s : String) : Text := s.toList.map (fun c => UInt8.ofNat c.toNat)

/-! ## Lines -/

def chomp (line : Text) : Text := if line.getLast? = some 13 then line.dropLast else line

/-- The lines of a text, without the ends of the lines. -/
def linesFrom : Nat → Text → List Text
  | 0, _ => []
  | _ + 1, [] => []
  | fuel + 1, t => chomp (t.takeWhile (· ≠ 10)) :: linesFrom fuel ((t.dropWhile (· ≠ 10)).drop 1)

def linesOf (text : Text) : List Text := linesFrom text.length text

/-- A line that continues the field before it. -/
def continues (line : Text) : Bool := line.head? = some 32 ∨ line.head? = some 9

/-- The name and the value of a field; nothing without a colon. -/
def fieldOf (line : Text) : Option (Text × Text) :=
  if 58 ∈ line then some (line.takeWhile (· ≠ 58), (line.dropWhile (· ≠ 58)).drop 1) else none

/-! ## The index -/

/-- The fields of `pkg_repo_entry_t` that are texts of the stanza. -/
inductive IndexKey
  | package | version | architecture | depends | preDepends | provides | conflicts | breaks | replaces
  | filename | sha256
  deriving DecidableEq

namespace IndexKey

def name : IndexKey → Text
  | package => ascii "Package"
  | version => ascii "Version"
  | architecture => ascii "Architecture"
  | depends => ascii "Depends"
  | preDepends => ascii "Pre-Depends"
  | provides => ascii "Provides"
  | conflicts => ascii "Conflicts"
  | breaks => ascii "Breaks"
  | replaces => ascii "Replaces"
  | filename => ascii "Filename"
  | sha256 => ascii "SHA256"

def cap : IndexKey → Nat
  | package => 128
  | version => 128
  | architecture => 64
  | depends => 4096
  | preDepends => 2048
  | provides => 2048
  | conflicts => 2048
  | breaks => 2048
  | replaces => 2048
  | filename => 768
  | sha256 => 65

end IndexKey

/-- `pkg_repo_entry_t` -/
structure IndexEntry where
  text : IndexKey → Text
  size : Nat
  repoRoot : Text

def IndexEntry.empty : IndexEntry := ⟨fun _ => [], 0, []⟩

/-- `copytrim` into a buffer of `cap` bytes. -/
def copytrim (cap : Nat) (v : Text) : Text := cText (((v.dropWhile isBlank).rdropWhile isBlank).take (cap - 1))

/-- `field` of `src/pkg_repo.c`. The buffers are as large as `caps` says. -/
def indexField (caps : IndexKey → Nat) (e : IndexEntry) (f : Text × Text) : IndexEntry where
  text := fun k => if k.name = f.1 then copytrim (caps k) f.2 else e.text k
  size := if f.1 = ascii "Size" then (Ar.strtoull (copytrim 64 f.2)).1 else e.size
  repoRoot := e.repoRoot

/-- `same_record` -/
def sameRecord (a b : IndexEntry) (root : Text) : Bool :=
  a.repoRoot = root ∧ a.text .package = b.text .package ∧ a.text .version = b.text .version ∧
    a.text .architecture = b.text .architecture ∧ a.text .filename = b.text .filename

/-- `append_entry` -/
def appendEntry (entries : List IndexEntry) (root : Text) (e : IndexEntry) : List IndexEntry :=
  if e.text .package = [] ∨ e.text .version = [] ∨ e.text .filename = [] then entries
  else if entries.any (fun a => sameRecord a e root) = true then entries
  else entries ++ [{ e with repoRoot := root.take 511 }]

/-- A line of a stanza. -/
def indexLine (caps : IndexKey → Nat) (e : IndexEntry) (line : Text) : IndexEntry :=
  if continues line = true then e
  else
    match fieldOf line with
    | none => e
    | some f => indexField caps e f

/-- The loop of `parse_index` over the lines. -/
def indexLines (root : Text) : List IndexEntry → IndexEntry → List Text → List IndexEntry
  | entries, e, [] => appendEntry entries root e
  | entries, e, line :: lines =>
      if line = [] then indexLines root (appendEntry entries root e) .empty lines
      else indexLines root entries (indexLine IndexKey.cap e line) lines

/-- `parse_index`: the entries of the repository with those of the text. -/
def parseIndex (entries : List IndexEntry) (root text : Text) : List IndexEntry :=
  indexLines root entries .empty (linesOf text)

/-! ## The control file -/

/-- The fields of `deb_control_t`. -/
inductive ControlKey
  | package | version | architecture | essential | priority | section_ | maintainer | installedSize | preDepends
  | depends | recommends | suggests | description
  deriving DecidableEq

namespace ControlKey

def name : ControlKey → Text
  | package => ascii "Package"
  | version => ascii "Version"
  | architecture => ascii "Architecture"
  | essential => ascii "Essential"
  | priority => ascii "Priority"
  | section_ => ascii "Section"
  | maintainer => ascii "Maintainer"
  | installedSize => ascii "Installed-Size"
  | preDepends => ascii "Pre-Depends"
  | depends => ascii "Depends"
  | recommends => ascii "Recommends"
  | suggests => ascii "Suggests"
  | description => ascii "Description"

def cap : ControlKey → Nat
  | package => 128
  | version => 128
  | architecture => 64
  | essential => 32
  | priority => 64
  | section_ => 128
  | maintainer => 256
  | installedSize => 64
  | preDepends => 2048
  | depends => 4096
  | recommends => 2048
  | suggests => 2048
  | description => 4096

def all : List ControlKey :=
  [package, version, architecture, essential, priority, section_, maintainer, installedSize, preDepends, depends,
    recommends, suggests, description]

end ControlKey

/-- `deb_control_t` with the field that a continuation line goes to. -/
structure Control where
  text : ControlKey → Text
  current : Option ControlKey

def Control.empty : Control := ⟨fun _ => [], none⟩

/-- A blank or a tab. -/
def isTab (c : UInt8) : Bool := c = 32 ∨ c = 9

/-- The end of a line. -/
def isEol (c : UInt8) : Bool := c = 13 ∨ c = 10

/-- `copy_value` into a buffer of `cap` bytes. -/
def copyValue (cap : Nat) (v : Text) : Text :=
  cText (((v.dropWhile isTab).rdropWhile (fun c => isEol c || isTab c)).take (cap - 1))

/-- `append_continuation` to a buffer of `cap` bytes. -/
def appendContinuation (cap : Nat) (dst line : Text) : Text :=
  let p := (line.dropWhile isTab).rdropWhile isEol
  let dst := if dst ≠ [] ∧ dst.length + 1 < cap then dst ++ [10] else dst
  cText (dst ++ p.take (cap - dst.length - 1))

/-- `field` of `src/deb_control.c` -/
def controlField (name : Text) : Option ControlKey := ControlKey.all.find? (fun k => k.name = name)

def Control.put (c : Control) (k : ControlKey) (t : Text) : Control :=
  ⟨fun k' => if k' = k then t else c.text k', some k⟩

/-- A line of the loop of `deb_control_parse`. -/
def controlLine (caps : ControlKey → Nat) (c : Control) (line : Text) : Control :=
  if line = [] then ⟨c.text, none⟩
  else if continues line = true then
    match c.current with
    | none => c
    | some k => c.put k (appendContinuation (caps k) (c.text k) line)
  else
    match fieldOf line with
    | none => ⟨c.text, none⟩
    | some f =>
        match controlField f.1 with
        | none => ⟨c.text, none⟩
        | some k => c.put k (copyValue (caps k) f.2)

/-- `deb_control_parse` -/
def debControlParse (text : Text) : Int × Control :=
  let c := (linesOf text).foldl (controlLine ControlKey.cap) .empty
  (if c.text .package ≠ [] ∧ c.text .version ≠ [] then 0 else -2, c)

/-! ## Up to white space -/

/-- A text without its white space. -/
def squash (t : Text) : Text := t.filter (fun c => !isBlank c)

theorem squash_append (a b : Text) : squash (a ++ b) = squash a ++ squash b := List.filter_append ..

theorem squash_eq_nil {t : Text} : squash t = [] ↔ ∀ c ∈ t, isBlank c = true := by
  unfold squash
  rw [List.filter_eq_nil_iff]
  simp

/-- White space at the end. -/
theorem squash_cText_append {a b : Text} (hb : ∀ c ∈ b, isBlank c = true) :
    squash (cText (a ++ b)) = squash (cText a) := by
  unfold cText
  rw [List.takeWhile_append]
  split
  · rename_i h
    have ha : a.takeWhile (· ≠ 0) = a := (List.takeWhile_prefix _).eq_of_length h
    rw [ha, squash_append, (squash_eq_nil (t := b.takeWhile _)).mpr, List.append_nil]
    exact fun c hc => hb c ((List.takeWhile_prefix _).subset hc)
  · rfl

/-- White space at the start. -/
theorem squash_cText_dropWhile {p : UInt8 → Bool} (hp : ∀ c, p c = true → isBlank c = true) (t : Text) :
    squash (cText (t.dropWhile p)) = squash (cText t) := by
  induction t with
  | nil => rfl
  | cons c t ih =>
      by_cases hc : p c = true
      · have hb := hp c hc
        have h0 : c ≠ 0 := by
          rintro rfl
          exact absurd hb (by decide)
        rw [List.dropWhile_cons_of_pos hc, ih]
        unfold cText squash
        rw [List.takeWhile_cons_of_pos (by simpa using h0), List.filter_cons_of_neg (by simp [hb])]
      · rw [List.dropWhile_cons_of_neg hc]

theorem squash_cText_rdropWhile {p : UInt8 → Bool} (hp : ∀ c, p c = true → isBlank c = true) (t : Text) :
    squash (cText (t.rdropWhile p)) = squash (cText t) := by
  conv => rhs; rw [← List.rdropWhile_append_rtakeWhile (p := p) (l := t)]
  rw [squash_cText_append]
  exact fun c hc => hp c (List.mem_rtakeWhile_imp hc)

theorem isBlank_of_isTab {c : UInt8} (h : isTab c = true) : isBlank c = true := by
  rcases of_decide_eq_true h with rfl | rfl <;> decide

theorem isBlank_of_isEol {c : UInt8} (h : isEol c = true) : isBlank c = true := by
  rcases of_decide_eq_true h with rfl | rfl <;> decide

theorem length_trimmed_le {p q : UInt8 → Bool} (t : Text) : ((t.dropWhile p).rdropWhile q).length ≤ t.length :=
  le_trans (List.rdropWhile_prefix _ _).length_le (List.dropWhile_suffix _).length_le

/-- A value in a buffer that has room for it. -/
theorem squash_copytrim {cap : Nat} {v : Text} (h : v.length < cap) : squash (copytrim cap v) = squash (cText v) := by
  have hlen := @length_trimmed_le isBlank isBlank v
  unfold copytrim
  rw [List.take_of_length_le (by omega), squash_cText_rdropWhile (fun _ hc => hc), squash_cText_dropWhile (fun _ hc => hc)]

theorem squash_copyValue {cap : Nat} {v : Text} (h : v.length < cap) : squash (copyValue cap v) = squash (cText v) := by
  have hlen := @length_trimmed_le isTab (fun c => isEol c || isTab c) v
  unfold copyValue
  rw [List.take_of_length_le (by omega), squash_cText_rdropWhile, squash_cText_dropWhile (fun _ hc => isBlank_of_isTab hc)]
  intro c hc
  rcases Bool.or_eq_true _ _ ▸ hc with hc | hc
  · exact isBlank_of_isEol hc
  · exact isBlank_of_isTab hc

theorem length_copyValue_le (cap : Nat) (v : Text) : (copyValue cap v).length ≤ v.length :=
  le_trans (length_cText_le _) (le_trans (List.length_take_le' ..) (length_trimmed_le v))

/-- A continuation in a buffer that has room for it. -/
theorem appendContinuation_spec {cap : Nat} {dst line : Text} (hdst : 0 ∉ dst)
    (h : dst.length + line.length + 1 < cap) :
    squash (appendContinuation cap dst line) = squash dst ++ squash (cText line) ∧
      (appendContinuation cap dst line).length ≤ dst.length + line.length + 1 := by
  have hlen := @length_trimmed_le isTab isEol line
  obtain ⟨sep, hsep, hblank, hone⟩ : ∃ sep : Text, (if dst ≠ [] ∧ dst.length + 1 < cap then dst ++ [10] else dst) = dst ++ sep ∧
      (∀ c ∈ sep, c = 10) ∧ sep.length ≤ 1 := by
    split
    · exact ⟨[10], rfl, fun c hc => List.mem_singleton.mp hc, le_rfl⟩
    · exact ⟨[], (List.append_nil _).symm, (fun c hc => by cases hc), Nat.zero_le _⟩
  have hnul : 0 ∉ dst ++ sep := by
    rw [List.mem_append]
    rintro (h0 | h0)
    · exact hdst h0
    · exact absurd (hblank 0 h0) (by decide)
  have hsq : squash sep = [] := squash_eq_nil.mpr (fun c hc => by rw [hblank c hc]; decide)
  have htext : squash (cText ((line.dropWhile isTab).rdropWhile isEol)) = squash (cText line) := by
    rw [squash_cText_rdropWhile (fun _ hc => isBlank_of_isEol hc), squash_cText_dropWhile (fun _ hc => isBlank_of_isTab hc)]
  unfold appendContinuation
  dsimp only []
  rw [hsep, List.take_of_length_le (by rw [List.length_append]; omega), cText_append hnul]
  constructor
  · rw [squash_append, squash_append, hsq, List.append_nil, htext]
  · have := length_cText_le ((line.dropWhile isTab).rdropWhile isEol)
    rw [List.length_append, List.length_append]
    omega

/-! ## The lines of a stanza -/

/-- The fields that the planner and the installer both go by. -/
def sharedKeys : List (IndexKey × ControlKey) :=
  [(.package, .package), (.version, .version), (.preDepends, .preDepends), (.depends, .depends)]

theorem controlField_eq_some {name : Text} {k : ControlKey} : controlField name = some k ↔ k.name = name := by
  constructor
  · intro h
    unfold controlField at h
    simpa using List.find?_some h
  · rintro rfl
    cases k <;> decide

/-- Whether the field `name` is being continued, and the lines that have continued it. -/
def continuationStep (name : Text) (s : Bool × List Text) (line : Text) : Bool × List Text :=
  if continues line = true then (s.1, if s.1 = true then s.2 ++ [line] else s.2)
  else
    match fieldOf line with
    | none => (false, s.2)
    | some f => if f.1 = name then (true, []) else (false, s.2)

/-- The continuation lines of the last field with a name. -/
def continuations (name : Text) (lines : List Text) : List Text :=
  (lines.foldl (continuationStep name) (false, [])).2

/-- The bytes of the lines, with an end of line for each. -/
def sizeOf (lines : List Text) : Nat := (lines.map (fun l => l.length + 1)).sum

theorem fieldOf_length {line name v : Text} (h : fieldOf line = some (name, v)) : v.length ≤ line.length := by
  unfold fieldOf at h
  split at h
  · cases h
    exact le_trans (List.drop_suffix _ _).length_le (List.dropWhile_suffix _).length_le
  · cases h

/-- The two records of the lines so far, for one field: the index has its value, and the control
record has its continuation lines too. -/
structure Matches (ik : IndexKey) (ck : ControlKey) (e : IndexEntry) (c : Control) (s : Bool × List Text) : Prop where
  value : squash (c.text ck) = squash (e.text ik) ++ s.2.flatMap (fun l => squash (cText l))
  current : c.current = some ck ↔ s.1 = true
  noNul : 0 ∉ c.text ck

section

variable {ik : IndexKey} {ck : ControlKey} {icaps : IndexKey → Nat} {ccaps : ControlKey → Nat}

theorem matches_step {e : IndexEntry} {c : Control} {s : Bool × List Text} {line : Text} (hname : ik.name = ck.name)
    (hline : line ≠ []) (hi : line.length < icaps ik) (hc : (c.text ck).length + line.length + 1 < ccaps ck)
    (h : Matches ik ck e c s) :
    Matches ik ck (indexLine icaps e line) (controlLine ccaps c line) (continuationStep ck.name s line) ∧
      ((controlLine ccaps c line).text ck).length ≤ (c.text ck).length + line.length + 1 := by
  unfold indexLine controlLine continuationStep
  rw [if_neg hline]
  by_cases hcont : continues line = true
  · rw [if_pos hcont, if_pos hcont, if_pos hcont]
    by_cases hs : s.1 = true
    · -- the field is continued
      rw [h.current.mpr hs, if_pos hs]
      obtain ⟨hsq, hlen⟩ := appendContinuation_spec h.noNul hc
      have htext : (c.put ck (appendContinuation (ccaps ck) (c.text ck) line)).text ck =
          appendContinuation (ccaps ck) (c.text ck) line := if_pos rfl
      refine ⟨⟨?_, ?_, ?_⟩, ?_⟩
      · rw [htext, hsq, h.value, List.flatMap_append, List.append_assoc, List.flatMap_singleton]
      · exact ⟨fun _ => hs, fun _ => rfl⟩
      · rw [htext]
        exact cText_noNul _
      · rw [htext]
        exact hlen
    · rw [if_neg hs]
      have hne : c.current ≠ some ck := fun heq => hs (h.current.mp heq)
      cases hcur : c.current with
      | none => exact ⟨⟨h.value, h.current, h.noNul⟩, show (c.text ck).length ≤ _ by omega⟩
      | some k =>
          have hk : ck ≠ k := by
            rintro rfl
            exact hne hcur
          have htext : (c.put k (appendContinuation (ccaps k) (c.text k) line)).text ck = c.text ck := if_neg hk
          refine ⟨⟨?_, ?_, ?_⟩, ?_⟩
          · rw [htext]
            exact h.value
          · exact ⟨fun heq => absurd (Option.some.inj heq).symm hk, fun heq => absurd heq hs⟩
          · rw [htext]
            exact h.noNul
          · rw [htext]
            omega
  · rw [if_neg hcont, if_neg hcont, if_neg hcont]
    cases hf : fieldOf line with
    | none =>
        exact ⟨⟨h.value, ⟨(fun heq => by cases heq), (fun heq => by cases heq)⟩, h.noNul⟩,
          show (c.text ck).length ≤ _ by omega⟩
    | some f =>
        obtain ⟨name, v⟩ := f
        have hv := fieldOf_length hf
        dsimp only []
        by_cases hn : ck.name = name
        · -- the field itself
          rw [if_pos hn.symm, controlField_eq_some.mpr hn]
          have htext : (c.put ck (copyValue (ccaps ck) v)).text ck = copyValue (ccaps ck) v := if_pos rfl
          have hitext : (indexField icaps e (name, v)).text ik = copytrim (icaps ik) v := if_pos (hname.trans hn)
          refine ⟨⟨?_, ?_, ?_⟩, ?_⟩
          · rw [htext, hitext, squash_copyValue (by omega), squash_copytrim (by omega)]
            exact (List.append_nil _).symm
          · exact ⟨fun _ => rfl, fun _ => rfl⟩
          · rw [htext]
            exact cText_noNul _
          · rw [htext]
            have := length_copyValue_le (ccaps ck) v
            omega
        · rw [if_neg (fun heq => hn heq.symm)]
          have hitext : (indexField icaps e (name, v)).text ik = e.text ik := if_neg (fun heq => hn (hname ▸ heq))
          cases hk : controlField name with
          | none =>
              refine ⟨⟨?_, ⟨(fun heq => by cases heq), (fun heq => by cases heq)⟩, h.noNul⟩,
                show (c.text ck).length ≤ _ by omega⟩
              rw [hitext]
              exact h.value
          | some k =>
              have hne : ck ≠ k := by
                rintro rfl
                exact hn (controlField_eq_some.mp hk)
              have htext : (c.put k (copyValue (ccaps k) v)).text ck = c.text ck := if_neg hne
              refine ⟨⟨?_, ?_, ?_⟩, ?_⟩
              · rw [htext, hitext]
                exact h.value
              · exact ⟨fun heq => absurd (Option.some.inj heq).symm hne, fun heq => by cases heq⟩
              · rw [htext]
                exact h.noNul
              · rw [htext]
                omega

theorem matches_lines (hname : ik.name = ck.name) (lines : List Text) : ∀ {e : IndexEntry} {c : Control}
    {s : Bool × List Text}, [] ∉ lines → sizeOf lines < icaps ik → (c.text ck).length + sizeOf lines < ccaps ck →
    Matches ik ck e c s → Matches ik ck (lines.foldl (indexLine icaps) e) (lines.foldl (controlLine ccaps) c)
      (lines.foldl (continuationStep ck.name) s) := by
  induction lines with
  | nil => exact fun _ _ _ h => h
  | cons line lines ih =>
      intro e c s hne hi hc h
      have hsize : sizeOf (line :: lines) = line.length + 1 + sizeOf lines := rfl
      obtain ⟨hstep, hlen⟩ := @matches_step ik ck icaps ccaps e c s line hname
        (fun heq => hne (heq ▸ List.mem_cons_self ..)) (by omega) (by omega) h
      exact ih (fun hmem => hne (List.mem_cons_of_mem _ hmem)) (by omega) (by omega) hstep

end

/-! ## A stanza -/

/-- A text of one stanza, with blank lines before and after it. -/
def Stanza (text : Text) (body : List Text) : Prop :=
  [] ∉ body ∧ ∃ a b, linesOf text = List.replicate a [] ++ (body ++ List.replicate b [])

/-- The record that `parse_index` makes of the lines of a stanza. -/
def indexEntry (body : List Text) : IndexEntry := body.foldl (indexLine IndexKey.cap) .empty

/-- The values are those that buffers with room for the whole stanza would have. -/
def Fits (body : List Text) : Prop :=
  ∀ p ∈ sharedKeys,
    (body.foldl (indexLine (fun _ => sizeOf body + 1)) .empty).text p.1 = (indexEntry body).text p.1 ∧
      (body.foldl (controlLine (fun _ => sizeOf body + 1)) .empty).text p.2 =
        (body.foldl (controlLine ControlKey.cap) .empty).text p.2

instance (body : List Text) : Decidable (Fits body) := inferInstanceAs (Decidable (∀ p ∈ sharedKeys, _))

theorem appendEntry_empty (entries : List IndexEntry) (root : Text) : appendEntry entries root .empty = entries :=
  if_pos (Or.inl rfl)

theorem indexLines_blank (root : Text) (entries : List IndexEntry) (lines : List Text) (n : Nat) :
    indexLines root entries .empty (List.replicate n [] ++ lines) = indexLines root entries .empty lines := by
  induction n with
  | zero => rfl
  | succ n ih =>
      rw [List.replicate_succ, List.cons_append, indexLines, if_pos rfl, appendEntry_empty, ih]

theorem indexLines_body (root : Text) (entries : List IndexEntry) {body : List Text} (hbody : [] ∉ body)
    (lines : List Text) : ∀ e, indexLines root entries e (body ++ lines) =
      indexLines root entries (body.foldl (indexLine IndexKey.cap) e) lines := by
  induction body with
  | nil => exact fun _ => rfl
  | cons line body ih =>
      intro e
      rw [List.cons_append, indexLines, if_neg (fun h : line = [] => hbody (h ▸ List.mem_cons_self ..))]
      exact ih (fun hmem => hbody (List.mem_cons_of_mem _ hmem)) _

theorem indexLines_end (root : Text) (entries : List IndexEntry) (e : IndexEntry) (n : Nat) :
    indexLines root entries e (List.replicate n []) = appendEntry entries root e := by
  cases n with
  | zero => rfl
  | succ n =>
      have := indexLines_blank root (appendEntry entries root e) [] n
      rw [List.append_nil] at this
      rw [List.replicate_succ, indexLines, if_pos rfl, this]
      exact appendEntry_empty ..

/-- One stanza makes one entry. -/
theorem parseIndex_stanza {text : Text} {body : List Text} (h : Stanza text body) (entries : List IndexEntry)
    (root : Text) : parseIndex entries root text = appendEntry entries root (indexEntry body) := by
  obtain ⟨hbody, a, b, hlines⟩ := h
  unfold parseIndex indexEntry
  rw [hlines, indexLines_blank, indexLines_body root entries hbody, indexLines_end]

theorem controlLine_blank (n : Nat) : ∀ c : Control,
    ((List.replicate n []).foldl (controlLine ControlKey.cap) c).text = c.text := by
  induction n with
  | zero => exact fun _ => rfl
  | succ n ih => exact fun c => ih _

/-- Blank lines before a stanza leave nothing. -/
theorem controlLine_blank_empty (n : Nat) :
    (List.replicate n []).foldl (controlLine ControlKey.cap) .empty = .empty := by
  induction n with
  | zero => rfl
  | succ n ih => exact ih

theorem debControlParse_stanza {text : Text} {body : List Text} (h : Stanza text body) :
    (debControlParse text).2.text = (body.foldl (controlLine ControlKey.cap) .empty).text := by
  obtain ⟨-, a, b, hlines⟩ := h
  unfold debControlParse
  rw [hlines, List.foldl_append, List.foldl_append, controlLine_blank_empty, controlLine_blank]

/-- The two parsers have the same values, up to white space. -/
def Agree (e : IndexEntry) (c : Control) : Prop := ∀ p ∈ sharedKeys, squash (e.text p.1) = squash (c.text p.2)

theorem sharedKeys_name : ∀ p ∈ sharedKeys, p.1.name = p.2.name := by decide

/-- A field with its continuation lines. -/
theorem control_eq_index {text : Text} {body : List Text} (h : Stanza text body) (hfit : Fits body)
    {p : IndexKey × ControlKey} (hp : p ∈ sharedKeys) :
    squash ((debControlParse text).2.text p.2) = squash ((indexEntry body).text p.1) ++
      (continuations p.2.name body).flatMap (fun l => squash (cText l)) := by
  have hstart : Matches p.1 p.2 .empty .empty (false, []) :=
    ⟨rfl, ⟨(fun heq => by cases heq), (fun heq => by cases heq)⟩, (fun hmem => by cases hmem)⟩
  have hm := @matches_lines p.1 p.2 (fun _ => sizeOf body + 1) (fun _ => sizeOf body + 1) (sharedKeys_name p hp) body
    .empty .empty (false, []) h.1 (Nat.lt_succ_self _) (show 0 + sizeOf body < sizeOf body + 1 by omega) hstart
  obtain ⟨hi, hc⟩ := hfit p hp
  have hv := hm.value
  rw [hi, hc] at hv
  rw [debControlParse_stanza h, hv]
  rfl

/-- For a stanza whose values fit: it makes one entry of the index, and the entry agrees with the
control record exactly when no field that both go by is continued with more than white space. -/
theorem parsers_agree_iff {text : Text} {body : List Text} (h : Stanza text body) (hfit : Fits body)
    (entries : List IndexEntry) (root : Text) :
    parseIndex entries root text = appendEntry entries root (indexEntry body) ∧
      (Agree (indexEntry body) (debControlParse text).2 ↔
        ∀ p ∈ sharedKeys, ∀ line ∈ continuations p.2.name body, ∀ c ∈ cText line, isBlank c = true) := by
  refine ⟨parseIndex_stanza h entries root, ?_⟩
  unfold Agree
  refine forall₂_congr (fun p hp => ?_)
  rw [control_eq_index h hfit hp]
  constructor
  · intro heq line hline
    have hnil : (continuations p.2.name body).flatMap (fun l => squash (cText l)) = [] := by
      have := heq.symm
      rwa [List.append_right_eq_self] at this
    exact squash_eq_nil.mp (List.flatMap_eq_nil_iff.mp hnil line hline)
  · intro hblank
    have hnil : (continuations p.2.name body).flatMap (fun l => squash (cText l)) = [] :=
      List.flatMap_eq_nil_iff.mpr (fun line hline => squash_eq_nil.mpr (hblank line hline))
    rw [hnil, List.append_nil]

/-- A stanza with nothing folded. -/
def plainStanza : List Text := [ascii "Package: a", ascii "Version: 1", ascii "Filename: f", ascii "Depends: b, c"]

theorem parsers_agree_iff_plain : Stanza (ascii "Package: a\nVersion: 1\nFilename: f\nDepends: b, c\n") plainStanza ∧
    Fits plainStanza ∧
    Agree (indexEntry plainStanza)
      (debControlParse (ascii "Package: a\nVersion: 1\nFilename: f\nDepends: b, c\n")).2 := by
  have hst : Stanza (ascii "Package: a\nVersion: 1\nFilename: f\nDepends: b, c\n") plainStanza :=
    ⟨by decide +kernel, 0, 0, by decide +kernel⟩
  have hfit : Fits plainStanza := by decide +kernel
  exact ⟨hst, hfit, (parsers_agree_iff hst hfit [] []).2.mpr (by decide +kernel)⟩

/-- A stanza with a dependency on a second line. -/
def foldedStanza : List Text :=
  [ascii "Package: a", ascii "Version: 1", ascii "Filename: f", ascii "Depends: b,", ascii " c"]

/-- The index loses the dependency on `c`. -/
theorem folded_depends_lost :
    Stanza (ascii "Package: a\nVersion: 1\nFilename: f\nDepends: b,\n c\n") foldedStanza ∧ Fits foldedStanza ∧
    (indexEntry foldedStanza).text .depends = ascii "b," ∧
    (debControlParse (ascii "Package: a\nVersion: 1\nFilename: f\nDepends: b,\n c\n")).2.text .depends = ascii "b,\nc" ∧
    ¬ Agree (indexEntry foldedStanza)
      (debControlParse (ascii "Package: a\nVersion: 1\nFilename: f\nDepends: b,\n c\n")).2 := by
  refine ⟨⟨by decide +kernel, 0, 0, by decide +kernel⟩, by decide +kernel, by decide +kernel, by decide +kernel, ?_⟩
  intro hagree
  exact absurd (hagree (.depends, .depends) (by decide)) (by decide +kernel)

end Guppy.Pkg
