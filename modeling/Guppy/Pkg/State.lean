import Guppy.Ext2.HandleRead
import Guppy.Pkg.Stanza

set_option autoImplicit false

/-! # The state of a package

`pkg_state_lookup` of `src/pkg_state.c` looks for a package in the status file, and
`pkg_state_set_installed` marks it there as installed: it reads the file, copies it with the `Status`
line of that package replaced, and writes it back. Reading goes through a read-only handle, which
shows twelve blocks of a file; writing starts with emptying the file; and whether closing the handle
wrote anything is not asked.
-/

namespace Guppy.Pkg

open Vfs Archive

/-! ## The text -/

/-- `pkg_state_entry_t` -/
structure StateEntry where
  package : Text
  version : Text
  state : Text
  deriving DecidableEq

def StateEntry.empty : StateEntry := ⟨[], [], []⟩

/-- The text up to a blank line, and what is behind it. -/
def cutBlank : Text → Text × Option Text
  | [] => ([], none)
  | c :: t =>
      if c = 0 then (c :: t, none)
      else if c = 10 ∧ t.head? = some 10 then ([], some (t.drop 1))
      else (c :: (cutBlank t).1, (cutBlank t).2)

/-- The lines of a paragraph. -/
def paraLines : Nat → Text → List Text
  | 0, _ => []
  | _ + 1, [] => []
  | fuel + 1, p => p.takeWhile (· ≠ 10) :: paraLines fuel ((p.dropWhile (· ≠ 10)).drop 1)

/-- A line of `parse_para`. -/
def paraLine (e : StateEntry) (line : Text) : StateEntry :=
  match fieldOf line with
  | none => e
  | some f =>
      if f.1 = ascii "Package" then { e with package := copytrim 128 f.2 }
      else if f.1 = ascii "Version" then { e with version := copytrim 128 f.2 }
      else if f.1 = ascii "Status" then { e with state := copytrim 64 f.2 }
      else e

/-- `parse_para` -/
def parsePara (para : Text) : StateEntry := (paraLines para.length para).foldl paraLine .empty

/-- The loop of `pkg_state_lookup`. -/
def lookupFrom (package : Text) : Nat → Text → Option StateEntry
  | 0, _ => none
  | fuel + 1, p =>
      if p = [] then none
      else
        let x := parsePara (cutBlank p).1
        if x.package = package then some x
        else
          match (cutBlank p).2 with
          | none => none
          | some q => lookupFrom package fuel q

def lookupText (text package : Text) : Option StateEntry := lookupFrom package text.length text

/-- `if (used == 0 || out[used-1] != '\n') out[used++] = '\n';` -/
def endLine (out : Text) : Text := if out.getLast? = some 10 then out else out ++ [10]

def statusInstalled : Text := ascii "Status: install ok installed"

/-- The lines of the package's own paragraph. -/
def editPara : Nat → Text → Text
  | 0, _ => []
  | _ + 1, [] => []
  | fuel + 1, lp =>
      let line := lp.takeWhile (· ≠ 10)
      let rest := lp.dropWhile (· ≠ 10)
      (if ascii "Status:" <+: line then statusInstalled ++ [10] else line ++ rest.take 1) ++ editPara fuel (rest.drop 1)

/-- The loop of `pkg_state_set_installed`: whether the package was found, and the new text. -/
def editFrom (package : Text) : Nat → Text → Bool → Text → Bool × Text
  | 0, _, found, out => (found, out)
  | fuel + 1, p, found, out =>
      if p = [] then (found, out)
      else
        let para := (cutBlank p).1
        let hit : Bool := (parsePara para).package = package
        let out := if hit = true then out ++ editPara para.length para else endLine (out ++ para)
        match (cutBlank p).2 with
        | none => (found || hit, out)
        | some q => editFrom package fuel q (found || hit) (endLine out ++ [10])

def editText (text package : Text) : Bool × Text := editFrom package text.length text false []

/-! ## The file -/

/-- The driver, as far as the status file goes: how many bytes of a file a read-only handle shows, and
what closing a handle returns and leaves in the file, for the data written to it. -/
structure StatusDriver where
  shown : Nat
  close : Text → Bool × Text
  kept : ∀ data, (close data).1 = true → (close data).2 = data

/-- `read_status` of a file. -/
def readStatus (drv : StatusDriver) (file : Text) : Text := file.take drv.shown

/-- `pkg_state_lookup`; without a status file it fails. -/
def pkgStateLookup (drv : StatusDriver) (file : Option Text) (package : Text) : Option StateEntry :=
  file.bind (fun file => lookupText (readStatus drv file) package)

/-- `pkg_state_set_installed`: what it returns and what the file is afterwards. -/
def pkgStateSetInstalled (drv : StatusDriver) (file : Option Text) (package : Text) : Int × Option Text :=
  match file with
  | none => (-1, none)
  | some file =>
      let edited := editText (readStatus drv file) package
      if edited.1 = false then (1, some file) else (0, some (drv.close edited.2).2)

/-- What `read_status` reads of a file on an ext2 device: the first twelve blocks. -/
theorem readStatus_ext2 {d : Ext2.Vblk} {m : Ext2.Ext2Meta} {path : Text} {ino : Nat} {file : Ext2.Inode} {data : List UInt8}
    (hm : Ext2.ext2LoadMeta d = .ok m) (hs : Ext2.Standard m) (hino : Ext2.ext2ResolvePathAt d m path = .ok ino)
    (hfile : Ext2.ext2ReadInodeAt d m ino = .ok file) (hreg : Ext2.ifmt file.iMode = Ext2.sIfreg)
    (h : Ext2.ext2ReadFileAt d path = .ok data) (h256 : m.sb.sInodeSize ≤ 256) (drv : StatusDriver)
    (hdrv : drv.shown = 12 * m.blockSize) :
    Ext2.fReadAll d ino (data.length + 1) (fun _ => 8192) 0 = some (readStatus drv data) := by
  obtain ⟨hres, hne⟩ := Ext2.fReadAll_of_read hm hs hino hfile hreg h h256 (data.length + 1) (fun _ => Nat.zero_lt_succ 8191)
  unfold readStatus
  rw [hdrv]
  exact hres.resolve_left (hne (Nat.lt_succ_self _))

/-! ## Files of stanzas -/

/-- Lines with their ends. -/
def linesText (ls : List Text) : Text := ls.flatMap (· ++ [10])

/-- The lines of a file: a blank line between two stanzas, and perhaps one at the end. -/
def fileLines (blank : Bool) : List (List Text) → List Text
  | [] => []
  | [s] => s ++ if blank = true then [[]] else []
  | s :: ss => s ++ [] :: fileLines blank ss

def statusText (blank : Bool) (ss : List (List Text)) : Text := linesText (fileLines blank ss)

def isStatusLine (line : Text) : Bool := ascii "Status:" <+: line

def packageLine (name line : Text) : Text :=
  match fieldOf line with
  | none => name
  | some f => if f.1 = ascii "Package" then (f.2.dropWhile isBlank).rdropWhile isBlank else name

/-- The name that a stanza gives its package. -/
def packageOf (s : List Text) : Text := s.foldl packageLine []

structure GoodStanza (s : List Text) : Prop where
  lines : ∀ l ∈ s, l ≠ [] ∧ 10 ∉ l ∧ 0 ∉ l
  status : s.countP isStatusLine = 1
  named : packageOf s ≠ []

/-- A well-formed status file has one stanza for each of its packages. -/
structure WellFormed (ss : List (List Text)) : Prop where
  stanzas : ∀ s ∈ ss, GoodStanza s
  distinct : (ss.map packageOf).Nodup

/-- The replacement of the `Status` line. -/
def mark (line : Text) : Text := if isStatusLine line = true then statusInstalled else line

/-- The lines with newlines between them. -/
def bodyText : List Text → Text
  | [] => []
  | first :: rest => joinLines first rest

theorem bodyText_one (l : Text) : bodyText [l] = l := List.append_nil l

theorem bodyText_cons (first l : Text) (rest : List Text) :
    bodyText (first :: l :: rest) = first ++ 10 :: bodyText (l :: rest) := joinLines_cons first l rest

theorem linesText_cons (l : Text) (ls : List Text) : linesText (l :: ls) = l ++ 10 :: linesText ls := by
  simp [linesText]

theorem linesText_append (a b : List Text) : linesText (a ++ b) = linesText a ++ linesText b := List.flatMap_append ..

theorem linesText_eq {s : List Text} (hs : s ≠ []) : linesText s = bodyText s ++ [10] := by
  cases s with
  | nil => exact absurd rfl hs
  | cons first rest =>
      clear hs
      induction rest generalizing first with
      | nil => simp [linesText, bodyText_one]
      | cons l rest ih => rw [linesText_cons, ih, bodyText_cons, List.append_assoc, List.cons_append]

theorem GoodStanza.ne_nil {s : List Text} (h : GoodStanza s) : s ≠ [] := by
  rintro rfl
  cases h.status

/-! ## Reading a file -/

theorem cutBlank_line {l : Text} (h10 : 10 ∉ l) (h0 : 0 ∉ l) (t : Text) :
    cutBlank (l ++ t) = (l ++ (cutBlank t).1, (cutBlank t).2) := by
  induction l with
  | nil => rfl
  | cons c l ih =>
      have hc : c ≠ 0 ∧ c ≠ 10 := by
        constructor
        · rintro rfl
          exact h0 (List.mem_cons_self ..)
        · rintro rfl
          exact h10 (List.mem_cons_self ..)
      rw [List.cons_append, cutBlank, if_neg hc.1, if_neg (fun h => hc.2 h.1),
        ih (fun h => h10 (List.mem_cons_of_mem _ h)) (fun h => h0 (List.mem_cons_of_mem _ h))]
      rfl

theorem cutBlank_newline {t : Text} (h : t.head? ≠ some 10) :
    cutBlank (10 :: t) = (10 :: (cutBlank t).1, (cutBlank t).2) := by
  rw [cutBlank, if_neg (by decide), if_neg (fun hc => h hc.2)]

/-- What stands before and behind a blank line. -/
theorem cutBlank_body {s : List Text} (hs : ∀ l ∈ s, l ≠ [] ∧ 10 ∉ l ∧ 0 ∉ l) (hne : s ≠ []) (t : Text) :
    cutBlank (bodyText s ++ 10 :: 10 :: t) = (bodyText s, some t) ∧
      cutBlank (bodyText s ++ [10]) = (bodyText s ++ [10], none) := by
  cases s with
  | nil => exact absurd rfl hne
  | cons first rest =>
      clear hne
      induction rest generalizing first with
      | nil =>
          obtain ⟨_, h10, h0⟩ := hs first (List.mem_cons_self ..)
          have hblank : cutBlank (10 :: 10 :: t) = ([], some t) := rfl
          have hend : cutBlank [10] = ([10], none) := rfl
          rw [bodyText_one, cutBlank_line h10 h0, cutBlank_line h10 h0, hblank, hend, List.append_nil]
          exact ⟨rfl, rfl⟩
      | cons l rest ih =>
          obtain ⟨_, h10, h0⟩ := hs first (List.mem_cons_self ..)
          obtain ⟨hl, hl10, _⟩ := hs l (by simp)
          obtain ⟨hblank, hend⟩ := ih l (fun l' hl' => hs l' (List.mem_cons_of_mem _ hl'))
          have hhead : ∀ u : Text, (bodyText (l :: rest) ++ u).head? ≠ some 10 := by
            intro u h
            obtain ⟨c, l, rfl⟩ := List.exists_cons_of_ne_nil hl
            have hc : c = 10 := Option.some.inj h
            exact hl10 (hc ▸ List.mem_cons_self ..)
          rw [bodyText_cons, List.append_assoc, List.append_assoc, cutBlank_line h10 h0, cutBlank_line h10 h0, List.cons_append,
            List.cons_append, cutBlank_newline (hhead _), cutBlank_newline (hhead _), hblank, hend]
          exact ⟨rfl, rfl⟩

/-- The lines of a paragraph, whether or not its last newline belongs to it. -/
theorem paraLines_body {s : List Text} (hs : ∀ l ∈ s, l ≠ [] ∧ 10 ∉ l ∧ 0 ∉ l) {e : Text} (he : e = [] ∨ e = [10])
    {fuel : Nat} (hfuel : (bodyText s ++ e).length ≤ fuel) (hne : s ≠ []) : paraLines fuel (bodyText s ++ e) = s := by
  cases s with
  | nil => exact absurd rfl hne
  | cons first rest =>
      clear hne
      induction rest generalizing first fuel with
      | nil =>
          obtain ⟨hfirst, h10, _⟩ := hs first (List.mem_cons_self ..)
          have hend : (first ++ e).takeWhile (· ≠ 10) = first ∧ ((first ++ e).dropWhile (· ≠ 10)).drop 1 = [] := by
            rcases he with rfl | rfl
            · have hall : ∀ c ∈ first, decide (c ≠ 10) = true := fun c hc => by simpa using fun heq : c = 10 => h10 (heq ▸ hc)
              rw [List.append_nil, List.takeWhile_eq_self_iff.mpr hall, List.dropWhile_eq_nil_iff.mpr hall]
              exact ⟨rfl, rfl⟩
            · obtain ⟨htake, hdrop⟩ := @takeWhile_line first [] h10
              rw [htake, hdrop]
              exact ⟨rfl, rfl⟩
          rw [bodyText_one] at hfuel ⊢
          obtain ⟨c, first', rfl⟩ := List.exists_cons_of_ne_nil hfirst
          obtain ⟨fuel, rfl⟩ : ∃ n, fuel = n + 1 := ⟨fuel - 1, by simp at hfuel; omega⟩
          have hcons : paraLines (fuel + 1) (c :: first' ++ e) = (c :: first' ++ e).takeWhile (· ≠ 10) ::
              paraLines fuel (((c :: first' ++ e).dropWhile (· ≠ 10)).drop 1) := rfl
          rw [hcons, hend.1, hend.2]
          cases fuel <;> rfl
      | cons l rest ih =>
          obtain ⟨hfirst, h10, _⟩ := hs first (List.mem_cons_self ..)
          have hbody : bodyText (first :: l :: rest) ++ e = first ++ 10 :: (bodyText (l :: rest) ++ e) := by
            rw [bodyText_cons, List.append_assoc, List.cons_append]
          rw [hbody] at hfuel ⊢
          obtain ⟨htake, hdrop⟩ := @takeWhile_line first (bodyText (l :: rest) ++ e) h10
          obtain ⟨c, first', rfl⟩ := List.exists_cons_of_ne_nil hfirst
          obtain ⟨fuel, rfl⟩ : ∃ n, fuel = n + 1 := ⟨fuel - 1, by simp at hfuel; omega⟩
          have hcons : paraLines (fuel + 1) (c :: first' ++ 10 :: (bodyText (l :: rest) ++ e)) =
              (c :: first' ++ 10 :: (bodyText (l :: rest) ++ e)).takeWhile (· ≠ 10) ::
              paraLines fuel (((c :: first' ++ 10 :: (bodyText (l :: rest) ++ e)).dropWhile (· ≠ 10)).drop 1) := rfl
          rw [hcons, htake, hdrop, List.drop_one, List.tail_cons,
            ih l (fun l' hl' => hs l' (List.mem_cons_of_mem _ hl')) (by simp at hfuel ⊢; omega)]

/-! ## Editing a file -/

theorem endLine_of_end {out r : Text} (h : r.getLast? = some 10) : endLine (out ++ r) = out ++ r := by
  have hne : r ≠ [] := by
    rintro rfl
    cases h
  unfold endLine
  rw [List.getLast?_append_of_ne_nil _ hne, if_pos h]

theorem endLine_of_line {out r : Text} {c : UInt8} (h : r.getLast? = some c) (hc : c ≠ 10) :
    endLine (out ++ r) = out ++ (r ++ [10]) := by
  have hne : r ≠ [] := by
    rintro rfl
    cases h
  unfold endLine
  rw [List.getLast?_append_of_ne_nil _ hne, h, if_neg (fun heq => hc (Option.some.inj heq)), List.append_assoc]

theorem getLast?_linesText {ls : List Text} (h : ls ≠ []) : (linesText ls).getLast? = some 10 := by
  rw [linesText_eq h, List.getLast?_concat]

/-- The last line of a paragraph may be without its newline. -/
def Unended (r : Text) (ls : List Text) : Prop := r ++ [10] = linesText ls ∧ ∃ c, r.getLast? = some c ∧ c ≠ 10

theorem unended_cons {r l : Text} {ls : List Text} (h : Unended r ls) : Unended (l ++ 10 :: r) (l :: ls) := by
  obtain ⟨htext, c, hlast, hc⟩ := h
  have hne : r ≠ [] := by
    rintro rfl
    cases hlast
  refine ⟨?_, c, ?_, hc⟩
  · rw [linesText_cons, ← htext, List.append_assoc, List.cons_append]
  · rw [List.append_cons, List.getLast?_append_of_ne_nil _ hne, hlast]

theorem unended_line {l : Text} (hl : l ≠ []) (h10 : 10 ∉ l) : Unended l [l] := by
  refine ⟨by simp [linesText], l.getLast hl, List.getLast?_eq_some_getLast hl, ?_⟩
  intro heq
  exact h10 (heq ▸ List.getLast_mem hl)

theorem editPara_cons {fuel : Nat} {c : UInt8} {t : Text} : editPara (fuel + 1) (c :: t) =
    (if isStatusLine ((c :: t).takeWhile (· ≠ 10)) = true then statusInstalled ++ [10]
      else (c :: t).takeWhile (· ≠ 10) ++ ((c :: t).dropWhile (· ≠ 10)).take 1) ++
      editPara fuel (((c :: t).dropWhile (· ≠ 10)).drop 1) := by
  unfold isStatusLine
  simp only [decide_eq_true_eq]
  rfl

/-- The paragraph with its `Status` line replaced, whether or not its last newline belongs to it. -/
theorem editPara_body {s : List Text} (hs : ∀ l ∈ s, l ≠ [] ∧ 10 ∉ l ∧ 0 ∉ l) (hne : s ≠ []) : ∀ {fuel : Nat},
    ((bodyText s ++ [10]).length ≤ fuel → editPara fuel (bodyText s ++ [10]) = linesText (s.map mark)) ∧
    ((bodyText s).length ≤ fuel → editPara fuel (bodyText s) = linesText (s.map mark) ∨
      Unended (editPara fuel (bodyText s)) (s.map mark)) := by
  cases s with
  | nil => exact absurd rfl hne
  | cons first rest =>
      clear hne
      induction rest generalizing first with
      | nil =>
          intro fuel
          obtain ⟨hfirst, h10, _⟩ := hs first (List.mem_cons_self ..)
          obtain ⟨htake, hdrop⟩ := @takeWhile_line first [] h10
          have hall : ∀ c ∈ first, decide (c ≠ 10) = true := fun c hc => by simpa using fun heq : c = 10 => h10 (heq ▸ hc)
          have htake' : first.takeWhile (· ≠ 10) = first := List.takeWhile_eq_self_iff.mpr hall
          have hdrop' : first.dropWhile (· ≠ 10) = [] := List.dropWhile_eq_nil_iff.mpr hall
          have hend : ∀ n, editPara n [] = [] := fun n => by cases n <;> rfl
          rw [bodyText_one]
          obtain ⟨c, first', rfl⟩ := List.exists_cons_of_ne_nil hfirst
          rw [List.cons_append] at htake hdrop ⊢
          constructor
          · intro hfuel
            obtain ⟨fuel, rfl⟩ : ∃ n, fuel = n + 1 := ⟨fuel - 1, by simp at hfuel; omega⟩
            rw [editPara_cons, htake, hdrop, List.drop_one, List.tail_cons, hend, List.append_nil]
            by_cases hstatus : isStatusLine (c :: first') = true
            · simp [mark, hstatus, linesText]
            · simp [mark, hstatus, linesText]
          · intro hfuel
            obtain ⟨fuel, rfl⟩ : ∃ n, fuel = n + 1 := ⟨fuel - 1, by simp at hfuel; omega⟩
            rw [editPara_cons, htake', hdrop', List.drop_nil, hend, List.append_nil, List.take_nil, List.append_nil]
            by_cases hstatus : isStatusLine (c :: first') = true
            · left
              simp [mark, hstatus, linesText]
            · right
              rw [if_neg hstatus, show [c :: first'].map mark = [c :: first'] by simp [mark, hstatus]]
              exact unended_line hfirst h10
      | cons l rest ih =>
          intro fuel
          obtain ⟨hfirst, h10, _⟩ := hs first (List.mem_cons_self ..)
          have hrest := @ih l (fun l' hl' => hs l' (List.mem_cons_of_mem _ hl'))
          obtain ⟨htake, hdrop⟩ := @takeWhile_line first (bodyText (l :: rest) ++ [10]) h10
          obtain ⟨htake', hdrop'⟩ := @takeWhile_line first (bodyText (l :: rest)) h10
          -- the first line keeps its newline, whichever it is
          have hline : (if isStatusLine first = true then statusInstalled ++ [10] else first ++ [10]) = mark first ++ [10] := by
            unfold mark
            split <;> rfl
          rw [bodyText_cons, List.append_assoc, List.cons_append, List.map_cons, linesText_cons]
          obtain ⟨c, first', rfl⟩ := List.exists_cons_of_ne_nil hfirst
          rw [List.cons_append] at htake hdrop htake' hdrop' ⊢
          rw [List.cons_append]
          constructor
          · intro hfuel
            obtain ⟨fuel, rfl⟩ : ∃ n, fuel = n + 1 := ⟨fuel - 1, by simp at hfuel; omega⟩
            rw [editPara_cons, htake, hdrop, List.drop_one, List.tail_cons, List.take_succ_cons, List.take_zero, hline,
              hrest.1 (by simp at hfuel ⊢; omega), List.append_assoc, List.singleton_append]
          · intro hfuel
            obtain ⟨fuel, rfl⟩ : ∃ n, fuel = n + 1 := ⟨fuel - 1, by simp at hfuel; omega⟩
            rw [editPara_cons, htake', hdrop', List.drop_one, List.tail_cons, List.take_succ_cons, List.take_zero, hline,
              List.append_assoc, List.singleton_append]
            have hfit : (bodyText (l :: rest)).length ≤ fuel := by
              simp at hfuel
              omega
            rcases hrest.2 hfit with h | h
            · left
              rw [h]
            · right
              exact unended_cons h

/-! ## Whole files -/

def entryOf (s : List Text) : StateEntry := s.foldl paraLine .empty

/-- The stanza has the package, as far as the buffer for its name goes. -/
def hit (package : Text) (s : List Text) : Bool := (entryOf s).package = package

def markHit (package : Text) (s : List Text) : List Text := if hit package s = true then s.map mark else s

/-- What the text functions need of a stanza. -/
def Plain (s : List Text) : Prop := s ≠ [] ∧ ∀ l ∈ s, l ≠ [] ∧ 10 ∉ l ∧ 0 ∉ l

theorem GoodStanza.plain {s : List Text} (h : GoodStanza s) : Plain s := ⟨h.ne_nil, h.lines⟩

theorem Plain.map_mark {s : List Text} (h : Plain s) : Plain (s.map mark) := by
  have hinstalled : statusInstalled ≠ [] ∧ 10 ∉ statusInstalled ∧ 0 ∉ statusInstalled := by decide
  refine ⟨fun hnil => h.1 (List.map_eq_nil_iff.mp hnil), fun l hl => ?_⟩
  obtain ⟨l', hl', rfl⟩ := List.mem_map.mp hl
  unfold mark
  split
  · exact hinstalled
  · exact h.2 l' hl'

theorem Plain.markHit {package : Text} {s : List Text} (h : Plain s) : Plain (markHit package s) := by
  unfold Pkg.markHit
  split
  · exact h.map_mark
  · exact h

theorem parsePara_body {s : List Text} (h : Plain s) :
    parsePara (bodyText s) = entryOf s ∧ parsePara (bodyText s ++ [10]) = entryOf s := by
  have hline := paraLines_body h.2 (Or.inl rfl) (Nat.le_refl (bodyText s ++ []).length) h.1
  rw [List.append_nil] at hline
  unfold parsePara entryOf
  rw [hline, paraLines_body h.2 (Or.inr rfl) (Nat.le_refl _) h.1]
  exact ⟨rfl, rfl⟩

theorem endLine_unended {out r : Text} {ls : List Text} (h : Unended r ls) : endLine (out ++ r) = out ++ linesText ls := by
  obtain ⟨htext, c, hlast, hc⟩ := h
  rw [endLine_of_line hlast hc, htext]

theorem unended_body {s : List Text} (h : Plain s) : Unended (bodyText s) s := by
  obtain ⟨hne, hlines⟩ := h
  cases s with
  | nil => exact absurd rfl hne
  | cons first rest =>
      clear hne
      induction rest generalizing first with
      | nil =>
          obtain ⟨hfirst, h10, _⟩ := hlines first (List.mem_cons_self ..)
          rw [bodyText_one]
          exact unended_line hfirst h10
      | cons l rest ih =>
          rw [bodyText_cons]
          exact unended_cons (ih l (fun l' hl' => hlines l' (List.mem_cons_of_mem _ hl')))

theorem endLine_linesText {out : Text} {ls : List Text} (h : ls ≠ []) : endLine (out ++ linesText ls) = out ++ linesText ls :=
  endLine_of_end (getLast?_linesText h)

/-- A paragraph that is copied or edited, with its last newline. -/
theorem endLine_edited {package out : Text} {s : List Text} (h : Plain s) :
    endLine (if hit package s = true then out ++ editPara (bodyText s).length (bodyText s) else endLine (out ++ bodyText s)) =
      out ++ linesText (markHit package s) := by
  unfold markHit
  split
  · rcases (editPara_body h.2 h.1).2 (Nat.le_refl _) with heq | hun
    · rw [heq, endLine_linesText h.map_mark.1]
    · exact endLine_unended hun
  · rw [endLine_unended (unended_body h), endLine_linesText h.1]

/-- A file that ends with its only stanza. -/
theorem statusText_last (s : List Text) : statusText false [s] = linesText s := by
  simp [statusText, fileLines]

/-- A file from its first stanza on, with a blank line behind it. -/
theorem statusText_more {blank : Bool} {s : List Text} {ss : List (List Text)} (h : ¬ (ss = [] ∧ blank = false)) :
    statusText blank (s :: ss) = linesText s ++ 10 :: statusText blank ss := by
  unfold statusText
  cases ss with
  | nil =>
      cases blank with
      | false => exact absurd ⟨rfl, rfl⟩ h
      | true => simp [fileLines, linesText]
  | cons s' ss =>
      rw [fileLines, linesText_append, linesText_cons]
      · rfl
      · intro hnil
        cases hnil

variable {blank : Bool} {package : Text}

theorem statusText_nil : statusText blank [] = [] := rfl

theorem editFrom_file (ss : List (List Text)) : ∀ {fuel : Nat} {found : Bool} {out : Text}, (∀ s ∈ ss, Plain s) →
    (statusText blank ss).length ≤ fuel → editFrom package fuel (statusText blank ss) found out =
      (found || ss.any (hit package), out ++ statusText blank (ss.map (markHit package))) := by
  induction ss with
  | nil =>
      intro fuel found out _ _
      rw [statusText_nil, List.map_nil, statusText_nil, List.append_nil, List.any_nil, Bool.or_false]
      cases fuel <;> rfl
  | cons s ss ih =>
      intro fuel found out hplain hfuel
      have hs := hplain s (List.mem_cons_self ..)
      obtain ⟨hblank, hend⟩ := cutBlank_body hs.2 hs.1 (statusText blank ss)
      obtain ⟨hparse, hparse'⟩ := parsePara_body hs
      have htext := linesText_eq hs.1
      rw [List.map_cons, List.any_cons]
      by_cases hlast : ss = [] ∧ blank = false
      · -- the last paragraph has its newline
        obtain ⟨rfl, rfl⟩ := hlast
        rw [statusText_last, htext] at hfuel ⊢
        rw [List.map_nil, statusText_last]
        obtain ⟨fuel, rfl⟩ : ∃ n, fuel = n + 1 := ⟨fuel - 1, by simp at hfuel; omega⟩
        rw [editFrom, if_neg (by simp), hend]
        dsimp only []
        rw [hparse', show decide ((entryOf s).package = package) = hit package s from rfl, List.any_nil, Bool.or_false]
        congr 1
        unfold markHit
        split
        · rw [(editPara_body hs.2 hs.1).1 (Nat.le_refl _)]
        · rw [← htext, endLine_linesText hs.1]
      · have hlast' : ¬ (ss.map (markHit package) = [] ∧ blank = false) := fun h => hlast ⟨List.map_eq_nil_iff.mp h.1, h.2⟩
        rw [statusText_more hlast] at hfuel ⊢
        rw [statusText_more hlast']
        have hcons : linesText s ++ 10 :: statusText blank ss = bodyText s ++ 10 :: 10 :: statusText blank ss := by
          rw [htext, List.append_assoc, List.singleton_append]
        rw [hcons] at hfuel ⊢
        obtain ⟨fuel, rfl⟩ : ∃ n, fuel = n + 1 := ⟨fuel - 1, by simp at hfuel; omega⟩
        rw [editFrom, if_neg (by simp), hblank]
        dsimp only []
        rw [hparse, show decide ((entryOf s).package = package) = hit package s from rfl, endLine_edited hs,
          ih (fun s' hs' => hplain s' (List.mem_cons_of_mem _ hs')) (by simp at hfuel; omega), Bool.or_assoc]
        congr 1
        simp

theorem lookupFrom_file (ss : List (List Text)) : ∀ {fuel : Nat}, (∀ s ∈ ss, Plain s) →
    (statusText blank ss).length ≤ fuel → lookupFrom package fuel (statusText blank ss) =
      (ss.find? (hit package)).map entryOf := by
  induction ss with
  | nil =>
      intro fuel _ _
      rw [statusText_nil]
      cases fuel <;> rfl
  | cons s ss ih =>
      intro fuel hplain hfuel
      have hs := hplain s (List.mem_cons_self ..)
      obtain ⟨hblank, hend⟩ := cutBlank_body hs.2 hs.1 (statusText blank ss)
      obtain ⟨hparse, hparse'⟩ := parsePara_body hs
      have htext := linesText_eq hs.1
      rw [List.find?_cons]
      by_cases hlast : ss = [] ∧ blank = false
      · obtain ⟨rfl, rfl⟩ := hlast
        rw [statusText_last, htext] at hfuel ⊢
        obtain ⟨fuel, rfl⟩ : ∃ n, fuel = n + 1 := ⟨fuel - 1, by simp at hfuel; omega⟩
        rw [lookupFrom, if_neg (by simp), hend]
        dsimp only []
        rw [hparse']
        unfold hit
        by_cases h : (entryOf s).package = package
        · simp [h]
        · simp [h]
      · rw [statusText_more hlast] at hfuel ⊢
        have hcons : linesText s ++ 10 :: statusText blank ss = bodyText s ++ 10 :: 10 :: statusText blank ss := by
          rw [htext, List.append_assoc, List.singleton_append]
        rw [hcons] at hfuel ⊢
        obtain ⟨fuel, rfl⟩ : ∃ n, fuel = n + 1 := ⟨fuel - 1, by simp at hfuel; omega⟩
        rw [lookupFrom, if_neg (by simp), hblank]
        dsimp only []
        rw [hparse, ih (fun s' hs' => hplain s' (List.mem_cons_of_mem _ hs')) (by simp at hfuel; omega)]
        unfold hit
        by_cases h : (entryOf s).package = package
        · simp [h]
        · simp [h]

/-! ## The entry of a stanza -/

theorem isStatusLine_iff {l : Text} : isStatusLine l = true ↔ ∃ v, fieldOf l = some (ascii "Status", v) := by
  unfold isStatusLine
  rw [decide_eq_true_iff]
  constructor
  · rintro ⟨v, rfl⟩
    refine ⟨v, ?_⟩
    have hname : ascii "Status:" = ascii "Status" ++ [58] := by decide
    have hcolon : ∀ b ∈ ascii "Status", decide (b ≠ 58) = true := forall_mem_of_all (by decide)
    unfold fieldOf
    rw [hname, List.append_assoc, List.singleton_append, if_pos (by simp), List.takeWhile_append_of_pos hcolon,
      List.dropWhile_append_of_pos hcolon, List.takeWhile_cons_of_neg (by decide), List.dropWhile_cons_of_neg (by decide),
      List.append_nil, List.drop_one, List.tail_cons]
  · rintro ⟨v, h⟩
    unfold fieldOf at h
    split at h
    · rename_i hcolon
      obtain ⟨hname, -⟩ := Prod.mk.inj (Option.some.inj h)
      -- the name, the colon, and the rest
      have hrest : l.dropWhile (· ≠ 58) ≠ [] := by
        intro hnil
        have := List.dropWhile_eq_nil_iff.mp hnil 58 hcolon
        simp at this
      obtain ⟨c, u, hu⟩ := List.exists_cons_of_ne_nil hrest
      have hc := List.head?_dropWhile_not (fun b : UInt8 => decide (b ≠ 58)) l
      rw [hu] at hc
      simp at hc
      refine ⟨u, ?_⟩
      calc ascii "Status:" ++ u
          = ascii "Status" ++ (58 :: u) := rfl
        _ = l.takeWhile (· ≠ 58) ++ l.dropWhile (· ≠ 58) := by rw [hname, hu, hc]
        _ = l := List.takeWhile_append_dropWhile
    · cases h

theorem packageOf_entry {s : List Text} (hs : ∀ l ∈ s, 0 ∉ l) : (entryOf s).package = (packageOf s).take 127 := by
  have hfold : ∀ (s : List Text) (e : StateEntry) (name : Text), (∀ l ∈ s, 0 ∉ l) → e.package = name.take 127 →
      (s.foldl paraLine e).package = (s.foldl packageLine name).take 127 := by
    intro s
    induction s with
    | nil => exact fun _ _ _ h => h
    | cons l s ih =>
        intro e name hs h
        refine ih _ _ (fun l hl => hs l (List.mem_cons_of_mem _ hl)) ?_
        unfold paraLine packageLine
        cases hf : fieldOf l with
        | none => exact h
        | some f =>
            dsimp only []
            by_cases hpackage : f.1 = ascii "Package"
            · rw [if_pos hpackage, if_pos hpackage]
              refine cText_self fun h0 => hs l (List.mem_cons_self ..) ?_
              have hv : 0 ∈ f.2 := (List.dropWhile_suffix _).subset ((List.rdropWhile_prefix _ _).subset ((List.take_prefix _ _).subset h0))
              exact fieldOf_value (hf.trans (by rfl)) 0 hv
            · rw [if_neg hpackage, if_neg hpackage]
              split
              · exact h
              · split
                · exact h
                · exact h
  exact hfold s .empty [] hs rfl

def installedState : Text := ascii "install ok installed"

theorem paraLine_mark (e : StateEntry) (l : Text) : (paraLine e (mark l)).package = (paraLine e l).package ∧
    (paraLine e (mark l)).version = (paraLine e l).version ∧
    (paraLine e (mark l)).state = if isStatusLine l = true then installedState else e.state := by
  have hinstalled : ∀ e : StateEntry, paraLine e statusInstalled = { e with state := installedState } := by
    have hfield : fieldOf statusInstalled = some (ascii "Status", ascii " install ok installed") := by decide
    have hvalue : copytrim 64 (ascii " install ok installed") = installedState := by decide
    intro e
    unfold paraLine
    rw [hfield]
    dsimp only []
    rw [if_neg (by decide), if_neg (by decide), if_pos rfl, hvalue]
  unfold mark
  by_cases hstatus : isStatusLine l = true
  · obtain ⟨v, hv⟩ := isStatusLine_iff.mp hstatus
    rw [if_pos hstatus, if_pos hstatus, hinstalled]
    unfold paraLine
    rw [hv]
    dsimp only []
    rw [if_neg (by decide), if_neg (by decide), if_pos rfl]
    exact ⟨rfl, rfl, rfl⟩
  · rw [if_neg hstatus, if_neg hstatus]
    refine ⟨rfl, rfl, ?_⟩
    unfold paraLine
    cases hf : fieldOf l with
    | none => rfl
    | some f =>
        dsimp only []
        split
        · rfl
        · split
          · rfl
          · split
            · rename_i hname
              exact absurd (isStatusLine_iff.mpr ⟨f.2, by rw [hf, ← hname]⟩) hstatus
            · rfl

/-- Only the state changes, and it is the new one. -/
theorem entryOf_mark (s : List Text) : (entryOf (s.map mark)).package = (entryOf s).package ∧
    (entryOf (s.map mark)).version = (entryOf s).version ∧
    (0 < s.countP isStatusLine → (entryOf (s.map mark)).state = installedState) := by
  have hfold : ∀ (s : List Text) (e e' : StateEntry), e'.package = e.package → e'.version = e.version →
      ((s.map mark).foldl paraLine e').package = (s.foldl paraLine e).package ∧
      ((s.map mark).foldl paraLine e').version = (s.foldl paraLine e).version ∧
      (e'.state = installedState ∨ 0 < s.countP isStatusLine → ((s.map mark).foldl paraLine e').state = installedState) := by
    intro s
    induction s with
    | nil =>
        intro e e' hpackage hversion
        exact ⟨hpackage, hversion, fun h => h.resolve_right (by simp)⟩
    | cons l s ih =>
        intro e e' hpackage hversion
        obtain ⟨hp, hv, hst⟩ := paraLine_mark e' l
        have hsame : (paraLine e' l).package = (paraLine e l).package ∧ (paraLine e' l).version = (paraLine e l).version := by
          unfold paraLine
          cases fieldOf l with
          | none => exact ⟨hpackage, hversion⟩
          | some f =>
              dsimp only []
              split
              · exact ⟨rfl, hversion⟩
              · split
                · exact ⟨hpackage, rfl⟩
                · split
                  · exact ⟨hpackage, hversion⟩
                  · exact ⟨hpackage, hversion⟩
        obtain ⟨hp', hv', hst'⟩ := ih (paraLine e l) (paraLine e' (mark l)) (hp.trans hsame.1) (hv.trans hsame.2)
        refine ⟨hp', hv', fun h => hst' ?_⟩
        by_cases hstatus : isStatusLine l = true
        · left
          rw [hst, if_pos hstatus]
        · rw [List.countP_cons_of_neg hstatus] at h
          rw [hst, if_neg hstatus]
          exact h
  obtain ⟨hp, hv, hst⟩ := hfold s .empty .empty rfl rfl
  exact ⟨hp, hv, fun h => hst (Or.inr h)⟩

theorem hit_markHit (package : Text) (s : List Text) : hit package (markHit package s) = hit package s := by
  unfold markHit
  split
  · unfold hit
    rw [(entryOf_mark s).1]
  · rfl

/-! ## Marking a package as installed -/

/-- The stanza after its package has been marked as installed. -/
def markPackage (package : Text) (s : List Text) : List Text := if packageOf s = package then s.map mark else s

/-- The file has the `Status` line of the package replaced and nothing else, and the package is looked
up as installed, with its old version. -/
structure Installs (drv : StatusDriver) (blank : Bool) (ss : List (List Text)) (package : Text) (after : Option Text) :
    Prop where
  file : after = some (statusText blank (ss.map (markPackage package)))
  state : ∃ x y, pkgStateLookup drv (some (statusText blank ss)) package = some x ∧
    pkgStateLookup drv after package = some y ∧ y.state = installedState ∧ y.version = x.version

theorem hit_iff {s : List Text} (h : Plain s) : hit package s = true ↔ (packageOf s).take 127 = package := by
  unfold hit
  rw [decide_eq_true_iff, packageOf_entry (fun l hl => (h.2 l hl).2.2)]

theorem pkgStateLookup_file {drv : StatusDriver} {ss : List (List Text)} (hplain : ∀ s ∈ ss, Plain s)
    (hshown : (statusText blank ss).length ≤ drv.shown) :
    pkgStateLookup drv (some (statusText blank ss)) package = (ss.find? (hit package)).map entryOf := by
  unfold pkgStateLookup readStatus lookupText
  rw [Option.bind_some, List.take_of_length_le hshown]
  exact lookupFrom_file ss hplain (Nat.le_refl _)

theorem pkgStateSetInstalled_file {drv : StatusDriver} {ss : List (List Text)} (hplain : ∀ s ∈ ss, Plain s)
    (hshown : (statusText blank ss).length ≤ drv.shown) (hclose : ∀ data, (drv.close data).1 = true) :
    pkgStateSetInstalled drv (some (statusText blank ss)) package =
      if ss.any (hit package) = false then (1, some (statusText blank ss))
      else (0, some (statusText blank (ss.map (markHit package)))) := by
  have hedit : editText (statusText blank ss) package =
      (ss.any (hit package), statusText blank (ss.map (markHit package))) := by
    unfold editText
    rw [editFrom_file ss hplain (Nat.le_refl _), Bool.false_or, List.nil_append]
  unfold pkgStateSetInstalled readStatus
  dsimp only []
  rw [List.take_of_length_le hshown, hedit, drv.kept _ (hclose _)]

/-- A file says what its lines are. -/
theorem linesText_inj {ls ls' : List Text} (h : ∀ l ∈ ls, 10 ∉ l) (h' : ∀ l ∈ ls', 10 ∉ l)
    (heq : linesText ls = linesText ls') : ls = ls' := by
  induction ls generalizing ls' with
  | nil =>
      cases ls' with
      | nil => rfl
      | cons l' ls' =>
          rw [linesText_cons] at heq
          simp [linesText] at heq
  | cons l ls ih =>
      cases ls' with
      | nil =>
          rw [linesText_cons] at heq
          simp [linesText] at heq
      | cons l' ls' =>
          rw [linesText_cons, linesText_cons] at heq
          obtain ⟨htake, hdrop⟩ := @takeWhile_line l (linesText ls) (h l (List.mem_cons_self ..))
          obtain ⟨htake', hdrop'⟩ := @takeWhile_line l' (linesText ls') (h' l' (List.mem_cons_self ..))
          rw [heq] at htake hdrop
          have hl : l = l' := htake.symm.trans htake'
          have hrest : linesText ls = linesText ls' := List.tail_eq_of_cons_eq (hdrop.symm.trans hdrop')
          rw [hl, ih (fun l hl => h l (List.mem_cons_of_mem _ hl)) (fun l hl => h' l (List.mem_cons_of_mem _ hl)) hrest]

theorem fileLines_plain {ss : List (List Text)} (h : ∀ s ∈ ss, Plain s) : ∀ l ∈ fileLines blank ss, 10 ∉ l := by
  have hs : ∀ s : List Text, Plain s → ∀ l ∈ s, 10 ∉ l := fun s hs l hl => (hs.2 l hl).2.1
  induction ss with
  | nil => exact fun l hl => absurd hl List.not_mem_nil
  | cons s ss ih =>
      have hss := ih (fun s hs => h s (List.mem_cons_of_mem _ hs))
      have hhead := hs s (h s (List.mem_cons_self ..))
      intro l hl
      cases ss with
      | nil =>
          rcases List.mem_append.mp hl with hl | hl
          · exact hhead l hl
          · split at hl
            · rw [List.mem_singleton.mp hl]
              exact List.not_mem_nil
            · exact absurd hl List.not_mem_nil
      | cons s' ss =>
          rcases List.mem_append.mp hl with hl | hl
          · exact hhead l hl
          · rcases List.mem_cons.mp hl with rfl | hl
            · exact List.not_mem_nil
            · exact hss l hl

/-- Two edits that keep the number of lines of each stanza. -/
theorem fileLines_map_inj {f g : List Text → List Text} (hf : ∀ s, (f s).length = (g s).length) {ss : List (List Text)}
    (heq : fileLines blank (ss.map f) = fileLines blank (ss.map g)) : ∀ s ∈ ss, f s = g s := by
  induction ss with
  | nil => exact fun s hs => absurd hs List.not_mem_nil
  | cons s ss ih =>
      cases ss with
      | nil =>
          intro s' hs'
          rw [List.mem_singleton.mp hs']
          exact (List.append_inj heq (hf s)).1
      | cons s' ss =>
          obtain ⟨hhead, hrest⟩ := List.append_inj heq (hf s)
          intro s'' hs''
          rcases List.mem_cons.mp hs'' with rfl | hs''
          · exact hhead
          · exact ih (List.tail_eq_of_cons_eq hrest) s'' hs''

theorem Plain.markPackage {s : List Text} (h : Plain s) : Plain (markPackage package s) := by
  unfold Pkg.markPackage
  split
  · exact h.map_mark
  · exact h

theorem map_plain {f : List Text → List Text} (hf : ∀ s, Plain s → Plain (f s)) {ss : List (List Text)}
    (h : ∀ s ∈ ss, Plain s) : ∀ s ∈ ss.map f, Plain s := by
  intro s hs
  obtain ⟨s', hs', rfl⟩ := List.mem_map.mp hs
  exact hf s' (h s' hs')

/-- The package is looked up as it was, with its new state. -/
theorem lookup_marked {drv : StatusDriver} {ss : List (List Text)} (hwf : WellFormed ss)
    (hshown : (statusText blank ss).length ≤ drv.shown)
    (hshown' : (statusText blank (ss.map (markHit package))).length ≤ drv.shown) (hany : ss.any (hit package) = true) :
    ∃ x y, pkgStateLookup drv (some (statusText blank ss)) package = some x ∧
      pkgStateLookup drv (some (statusText blank (ss.map (markHit package)))) package = some y ∧
      y.state = installedState ∧ y.version = x.version := by
  have hplain : ∀ s ∈ ss, Plain s := fun s hs => (hwf.stanzas s hs).plain
  have hplain' : ∀ s ∈ ss.map (markHit package), Plain s := map_plain (fun s h => h.markHit) hplain
  obtain ⟨s, hfind⟩ := Option.isSome_iff_exists.mp (List.find?_isSome.mpr (List.any_eq_true.mp hany))
  have hhit := List.find?_some hfind
  have hs := hwf.stanzas s (List.mem_of_find?_eq_some hfind)
  obtain ⟨_, hversion, hstate⟩ := entryOf_mark s
  have hfun : hit package ∘ markHit package = hit package := funext (hit_markHit package)
  refine ⟨entryOf s, entryOf (s.map mark), ?_, ?_, hstate (by rw [hs.status]; exact Nat.one_pos), hversion⟩
  · rw [pkgStateLookup_file hplain hshown, hfind]
    rfl
  · rw [pkgStateLookup_file hplain' hshown', List.find?_map, hfun, hfind, Option.map_some, Option.map_some]
    congr 2
    unfold markHit
    rw [if_pos hhit]

/-- Marking a package as installed changes its `Status` line and nothing else, and `pkg_state_lookup`
finds the new state, exactly if no other package with the same first 127 bytes has its own line
replaced by something new. -/
theorem setInstalled_iff {drv : StatusDriver} {ss : List (List Text)} (hwf : WellFormed ss)
    (hshown : (statusText blank ss).length ≤ drv.shown)
    (hshown' : (statusText blank (ss.map (markPackage package))).length ≤ drv.shown)
    (hclose : ∀ data, (drv.close data).1 = true) :
    (∀ after, pkgStateSetInstalled drv (some (statusText blank ss)) package = (0, after) →
      Installs drv blank ss package after) ↔
    ∀ s ∈ ss, (packageOf s).take 127 = package → packageOf s = package ∨ s.map mark = s := by
  have hplain : ∀ s ∈ ss, Plain s := fun s hs => (hwf.stanzas s hs).plain
  have hset := @pkgStateSetInstalled_file blank package drv ss hplain hshown hclose
  constructor
  · intro hinstalls s hs hname
    have hhit : hit package s = true := (hit_iff (hplain s hs)).mpr hname
    have hany : ¬ ss.any (hit package) = false := by
      rw [Bool.not_eq_false, List.any_eq_true]
      exact ⟨s, hs, hhit⟩
    rw [if_neg hany] at hset
    have hfile := Option.some.inj (hinstalls _ hset).file
    -- the two files have the same lines, so the stanza was edited as it should be
    have hlines := linesText_inj (fileLines_plain (map_plain (fun s h => h.markHit) hplain))
      (fileLines_plain (map_plain (fun s h => h.markPackage) hplain)) hfile
    have hlength : ∀ s, (markHit package s).length = (markPackage package s).length := by
      intro s
      unfold markHit markPackage
      split <;> split <;> simp
    have hmark := fileLines_map_inj hlength hlines s hs
    unfold markHit markPackage at hmark
    rw [if_pos hhit] at hmark
    by_cases hpackage : packageOf s = package
    · exact Or.inl hpackage
    · rw [if_neg hpackage] at hmark
      exact Or.inr hmark
  · intro hnames after hok
    by_cases hany : ss.any (hit package) = false
    · rw [hset, if_pos hany] at hok
      cases hok
    · rw [hset, if_neg hany] at hok
      obtain rfl := (Prod.mk.inj hok).2
      rw [Bool.not_eq_false] at hany
      -- the name is short enough for its buffer
      obtain ⟨s₀, hs₀, hhit₀⟩ := List.any_eq_true.mp hany
      have hlen : package.length ≤ 127 := by
        rw [← (hit_iff (hplain s₀ hs₀)).mp hhit₀]
        exact List.length_take_le ..
      have hmark : ss.map (markHit package) = ss.map (markPackage package) := by
        refine List.map_congr_left fun s hs => ?_
        unfold markHit markPackage
        by_cases hhit : hit package s = true
        · rw [if_pos hhit]
          rcases hnames s hs ((hit_iff (hplain s hs)).mp hhit) with h | h
          · rw [if_pos h]
          · split
            · rfl
            · exact h
        · rw [if_neg hhit, if_neg]
          intro h
          exact hhit ((hit_iff (hplain s hs)).mpr (by rw [h, List.take_of_length_le hlen]))
      refine ⟨by rw [hmark], lookup_marked hwf hshown (by rw [hmark]; exact hshown') hany⟩

/-- A driver with blocks of 1024 bytes that writes what it is given. -/
def smallBlocks : StatusDriver := ⟨12288, fun data => (true, data), fun _ _ => rfl⟩

def unpackedStanza : List Text := [ascii "Package: a", ascii "Status: install ok unpacked", ascii "Version: 1"]

def installedStanza : List Text := [ascii "Package: b", ascii "Status: install ok installed", ascii "Description: b"]

theorem unpackedStanza_good : GoodStanza unpackedStanza := ⟨by decide, by decide, by decide⟩

theorem setInstalled_iff_two : Installs smallBlocks false [unpackedStanza, installedStanza] (ascii "a")
    (pkgStateSetInstalled smallBlocks (some (statusText false [unpackedStanza, installedStanza])) (ascii "a")).2 := by
  have hwf : WellFormed [unpackedStanza, installedStanza] := by
    refine ⟨List.forall_mem_cons.mpr ⟨unpackedStanza_good, List.forall_mem_cons.mpr ⟨?_, List.forall_mem_nil _⟩⟩, by decide⟩
    exact ⟨by decide, by decide, by decide⟩
  have hreturn : (pkgStateSetInstalled smallBlocks (some (statusText false [unpackedStanza, installedStanza])) (ascii "a")).1 =
      0 := by decide +kernel
  exact (setInstalled_iff hwf (by decide +kernel) (by decide +kernel) (fun _ => rfl)).mpr (by decide +kernel) _
    (Prod.ext hreturn rfl)

/-- A line of a description. -/
def fillingLine (n : Nat) : Text := 32 :: List.replicate n 97

def longStanza (n : Nat) : List Text := installedStanza ++ [fillingLine n]

def lastLine : Text := ascii "Section: misc"

section Long

variable {n : Nat}

theorem fillingLine_clean : fillingLine n ≠ [] ∧ 10 ∉ fillingLine n ∧ 0 ∉ fillingLine n ∧ 58 ∉ fillingLine n := by
  have hall : ∀ c ∈ fillingLine n, c = 32 ∨ c = 97 := by
    intro c hc
    rcases List.mem_cons.mp hc with hc | hc
    · exact Or.inl hc
    · exact Or.inr (List.eq_of_mem_replicate hc)
  refine ⟨by unfold fillingLine; exact List.cons_ne_nil _ _, ?_, ?_, ?_⟩
  · intro h
    exact absurd (hall _ h) (by decide)
  · intro h
    exact absurd (hall _ h) (by decide)
  · intro h
    exact absurd (hall _ h) (by decide)

theorem fillingLine_field : fieldOf (fillingLine n) = none := if_neg fillingLine_clean.2.2.2

theorem fillingLine_status : isStatusLine (fillingLine n) = false := by
  rw [Bool.eq_false_iff, Ne, isStatusLine_iff]
  rintro ⟨v, hv⟩
  rw [fillingLine_field] at hv
  cases hv

theorem longStanza_name : packageOf (longStanza n) = ascii "b" ∧ packageOf (longStanza n ++ [lastLine]) = ascii "b" := by
  have hname : installedStanza.foldl packageLine [] = ascii "b" := by decide
  have hfilled : packageLine (ascii "b") (fillingLine n) = ascii "b" := by
    unfold packageLine
    rw [fillingLine_field]
  have hlast : packageLine (ascii "b") lastLine = ascii "b" := by decide
  have hlong : packageOf (longStanza n) = ascii "b" := by
    unfold packageOf longStanza
    rw [List.foldl_append, hname]
    exact hfilled
  refine ⟨hlong, ?_⟩
  unfold packageOf at hlong ⊢
  rw [List.foldl_append, hlong]
  exact hlast

theorem longStanza_lines : ∀ l ∈ longStanza n ++ [lastLine], l ≠ [] ∧ 10 ∉ l ∧ 0 ∉ l := by
  have hinstalled : ∀ l ∈ installedStanza, l ≠ [] ∧ 10 ∉ l ∧ 0 ∉ l := by decide
  have hlast : ∀ l ∈ [lastLine], l ≠ [] ∧ 10 ∉ l ∧ 0 ∉ l := by decide
  intro l hl
  rcases List.mem_append.mp hl with hl | hl
  · rcases List.mem_append.mp hl with hl | hl
    · exact hinstalled l hl
    · rw [List.mem_singleton.mp hl]
      exact ⟨fillingLine_clean.1, fillingLine_clean.2.1, fillingLine_clean.2.2.1⟩
  · exact hlast l hl

theorem longStanza_good : GoodStanza (longStanza n ++ [lastLine]) := by
  have hstatus : installedStanza.countP isStatusLine = 1 ∧ isStatusLine lastLine = false := by decide
  have hname : ascii "b" ≠ [] := by decide
  refine ⟨longStanza_lines, ?_, ?_⟩
  · rw [longStanza, List.countP_append, List.countP_append, List.countP_singleton, List.countP_singleton,
      fillingLine_status, hstatus.1, hstatus.2]
    rfl
  · rw [longStanza_name.2]
    exact hname

theorem longStanza_plain : Plain (longStanza n) := by
  constructor
  · intro h
    cases (List.append_eq_nil_iff.mp h).2
  · exact fun l hl => longStanza_lines l (List.mem_append_left _ hl)

/-- What is behind the part of the file that is read. -/
theorem statusText_lastLine (s : List Text) : statusText false [s, longStanza n ++ [lastLine]] =
    statusText false [s, longStanza n] ++ linesText [lastLine] := by
  have hne : ∀ t : List Text, ¬ ([t] = [] ∧ false = false) := fun t h => List.cons_ne_nil _ _ h.1
  rw [statusText_more (hne _), statusText_more (hne _), statusText_last, statusText_last, linesText_append,
    List.append_assoc, List.cons_append]

theorem statusText_longStanza : (statusText false [unpackedStanza, longStanza n]).length = n + 108 := by
  have hne : ¬ ([longStanza n] = [] ∧ false = false) := fun h => List.cons_ne_nil _ _ h.1
  have hopen : (linesText unpackedStanza).length + (linesText installedStanza).length = 105 := by decide
  have hfill : (linesText [fillingLine n]).length = n + 2 := by
    rw [linesText_cons, show linesText [] = [] from rfl, List.length_append, fillingLine, List.length_cons,
      List.length_replicate]
    rfl
  rw [statusText_more hne, statusText_last, longStanza, linesText_append, List.length_append, List.length_cons,
    List.length_append, hfill]
  omega

theorem setInstalled_longStanza {drv : StatusDriver} (hclose : ∀ data, (drv.close data).1 = true)
    (hshown : drv.shown = n + 108) :
    pkgStateSetInstalled drv (some (statusText false [unpackedStanza, longStanza n ++ [lastLine]])) (ascii "a") =
      (0, some (statusText false [unpackedStanza.map mark, longStanza n])) := by
  have hlength : (statusText false [unpackedStanza, longStanza n]).length = drv.shown :=
    statusText_longStanza.trans hshown.symm
  have hplain : ∀ s ∈ [unpackedStanza, longStanza n], Plain s :=
    List.forall_mem_cons.mpr ⟨unpackedStanza_good.plain, List.forall_mem_cons.mpr ⟨longStanza_plain, List.forall_mem_nil _⟩⟩
  have hhit : hit (ascii "a") unpackedStanza = true := by decide
  have hother : ¬ hit (ascii "a") (longStanza n) = true := by
    have hname : (ascii "b").take 127 ≠ ascii "a" := by decide
    rw [hit_iff longStanza_plain, longStanza_name.1]
    exact hname
  have hread : readStatus drv (statusText false [unpackedStanza, longStanza n ++ [lastLine]]) =
      readStatus drv (statusText false [unpackedStanza, longStanza n]) := by
    unfold readStatus
    rw [statusText_lastLine, List.take_append_of_le_length (Nat.le_of_eq hlength.symm)]
  have hset := @pkgStateSetInstalled_file false (ascii "a") drv _ hplain (Nat.le_of_eq hlength) hclose
  rw [List.any_cons, hhit, Bool.true_or, if_neg Bool.noConfusion, List.map_cons, List.map_singleton, markHit,
    if_pos hhit, markHit, if_neg hother] at hset
  unfold pkgStateSetInstalled at hset ⊢
  dsimp only [] at hset ⊢
  rw [hread]
  split at hset
  · cases hset
  · rename_i hfound
    rw [if_neg hfound]
    exact hset

end Long

/-- The last line of the file is not read, and so it is lost. -/
theorem lastLine_lost : WellFormed [unpackedStanza, longStanza 12180 ++ [lastLine]] ∧
    ∃ after, pkgStateSetInstalled smallBlocks (some (statusText false [unpackedStanza, longStanza 12180 ++ [lastLine]]))
      (ascii "a") = (0, after) ∧
      ¬ Installs smallBlocks false [unpackedStanza, longStanza 12180 ++ [lastLine]] (ascii "a") after := by
  have hnames : [ascii "a", ascii "b"].Nodup ∧ packageOf unpackedStanza = ascii "a" := by decide
  refine ⟨⟨?_, ?_⟩, some (statusText false [unpackedStanza.map mark, longStanza 12180]), ?_, ?_⟩
  · exact List.forall_mem_cons.mpr ⟨unpackedStanza_good, List.forall_mem_cons.mpr ⟨longStanza_good, List.forall_mem_nil _⟩⟩
  · rw [List.map_cons, List.map_singleton, longStanza_name.2, hnames.2]
    exact hnames.1
  · exact setInstalled_longStanza (fun _ => rfl) rfl
  · intro h
    have hfile := Option.some.inj h.file
    have hother : ascii "b" ≠ ascii "a" := by decide
    rw [List.map_cons, List.map_singleton, markPackage, if_pos hnames.2, markPackage,
      if_neg (by rw [longStanza_name.2]; exact hother), statusText_lastLine] at hfile
    have hnil : linesText [lastLine] = [] := List.self_eq_append_right.mp hfile
    exact absurd hnil (by decide)

end Guppy.Pkg
