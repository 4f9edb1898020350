import Guppy.Pkg.TriggerQueue

set_option autoImplicit false

/-! # Diversions

The file `var/lib/dpkg/diversions` has three lines for each diverted path. `diversion_add` of `src/pkg_preunpack.c`
adds a record and refuses a second one for the same path; `path_has_diversion` of `src/cmd_pkg.c` and
`diversion_source_exists` look for a path among the records, and `diversions_contain_record` of `src/pkg_configure.c`
looks for the text of a record anywhere in the file, where it may begin in the middle of a line. On a fresh target
the packages that register diversions leave a file in which all of these find what was registered, and nothing else:
`libc6` can be configured exactly when its actions before the unpacking have been performed (`libc6_attested_iff`).
-/

namespace Guppy.Pkg.Diversions

open Vfs (Text)
open Archive (cText)
open LineFiles (Store)
open Triggers (Disk readfile writefile)

/-! ## The code -/

/-- A record, as `dpkg` has it: the path that is diverted, where to, and for which package. -/
structure Diversion where
  source : Text
  target : Text
  owner : Text
  deriving DecidableEq

/-- `PU_PATH_MAX` and `CFG_PATH_MAX` -/
def puPathMax : Nat := 1400

def diversionsName : Text := ascii "/var/lib/dpkg/diversions"

/-- The path of the file in a buffer of `PU_PATH_MAX` bytes, whose size is not checked. -/
def diversionsPath (root : Text) : Text := (root ++ diversionsName).take (puPathMax - 1)

def Diversion.lines (d : Diversion) : List Text := [d.source, d.target, d.owner]

/-- The text of a record. -/
def Diversion.text (d : Diversion) : Text := Lines.join 10 d.lines

/-- A line, up to its end, and what is behind it. -/
def cutLine (t : Text) : Option (Text × Text) :=
  if 10 ∈ t then some (t.takeWhile (fun c => decide (c ≠ 10)), (t.dropWhile (fun c => decide (c ≠ 10))).drop 1) else none

/-- The records that the loops over the file come to; the third line of the last one need not be ended. -/
def scanRecords : Nat → Text → List Diversion
  | 0, _ => []
  | fuel + 1, t =>
      if t = [] then []
      else
        match cutLine t with
        | none => []
        | some (a, t) =>
            match cutLine t with
            | none => []
            | some (b, t) =>
                match cutLine t with
                | none => [⟨a, b, t⟩]
                | some (c, t) => ⟨a, b, c⟩ :: scanRecords fuel t

def recordsOf (buf : Text) : List Diversion := scanRecords buf.length (cText buf)

/-- `diversion_add`: whether it worked, and the files. -/
def diversionAdd (disk : Disk) (root : Text) (d : Diversion) (s : Store Text UInt8) : Bool × Store Text UInt8 :=
  if puPathMax * 2 + 256 ≤ d.text.length then (false, s)
  else
    match readfile disk s (diversionsPath root) with
    | none => writefile disk (diversionsPath root) d.text s
    | some old =>
        match (recordsOf old).find? (fun d' => d'.source = d.source) with
        | some d' => (decide (d'.target = d.target ∧ d'.owner = d.owner), s)
        | none => writefile disk (diversionsPath root) (Lines.ended 10 old ++ d.text) s

/-- `diversion_source_exists` -/
def diversionSourceExists (disk : Disk) (root path : Text) (s : Store Text UInt8) : Bool :=
  match readfile disk s (diversionsPath root) with
  | none => false
  | some buf => (recordsOf buf).any (fun d => d.source = path)

/-- `path_has_diversion`, with a buffer of 1024 bytes whose size is checked. -/
def pathHasDiversion (disk : Disk) (root path : Text) (s : Store Text UInt8) : Bool :=
  if 1024 ≤ (root ++ diversionsName).length then false
  else
    match readfile disk s (root ++ diversionsName) with
    | none => false
    | some buf => (recordsOf buf).any (fun d => d.source = path)

/-- `diversions_contain_record` -/
def diversionsContainRecord (disk : Disk) (root : Text) (d : Diversion) (s : Store Text UInt8) : Prop :=
  d.text.length < puPathMax * 2 + 256 ∧
    ∃ buf, readfile disk s (diversionsPath root) = some buf ∧ d.text <:+: cText buf

def baseFiles : Text := ascii "base-files"

/-- The diversion of a directory for the merged `/usr`. -/
def mergedUsr (name : Text) : Diversion :=
  ⟨ascii "/" ++ name, ascii "/." ++ name ++ ascii ".usr-is-merged", baseFiles⟩

/-- The diversions of `base_files_fresh`. -/
def baseFilesDiversions : List Diversion := [mergedUsr (ascii "lib32"), mergedUsr (ascii "libo32"), mergedUsr (ascii "libx32")]

def ldDiversion : Diversion :=
  ⟨ascii "/lib64/ld-linux-x86-64.so.2", ascii "/lib64/ld-linux-x86-64.so.2.usr-is-merged", ascii "libc6"⟩

/-- The diversions that `pkg_preunpack_fresh` registers for `libc6`. -/
def libc6Diversions : List Diversion := [mergedUsr (ascii "lib64"), ldDiversion]

/-- One `diversion_add` after the other, until one fails. -/
def addAll (disk : Disk) (root : Text) : List Diversion → Store Text UInt8 → Bool × Store Text UInt8
  | [], s => (true, s)
  | d :: ds, s =>
      let r := diversionAdd disk root d s
      if r.1 = true then addAll disk root ds r.2 else (false, r.2)

/-- `pkg_preunpack_fresh` for the packages that register diversions, and how the checks of the directory tree that
come before them end. -/
inductive Preunpack
  | baseFiles (checked : Bool)
  | libc6 (checked : Bool)
  deriving DecidableEq

def preunpack (disk : Disk) (root : Text) (s : Store Text UInt8) : Preunpack → Bool × Store Text UInt8
  | .baseFiles checked => if checked = true then addAll disk root baseFilesDiversions s else (false, s)
  | .libc6 checked => if checked = true then addAll disk root libc6Diversions s else (false, s)

/-- `libc6_preunpack_attested` -/
def libc6PreunpackAttested (disk : Disk) (root : Text) (s : Store Text UInt8) : Prop :=
  ∀ d ∈ libc6Diversions, diversionsContainRecord disk root d s

/-- Whether each of a sequence of actions worked, and the files afterwards. -/
def runPreunpack (disk : Disk) (root : Text) (cmds : List Preunpack) (s : Store Text UInt8) :
    List (Preunpack × Bool) × Store Text UInt8 :=
  cmds.foldl (fun r c => (r.1 ++ [(c, (preunpack disk root r.2 c).1)], (preunpack disk root r.2 c).2)) ([], s)

/-! ## Files of records -/

/-- No field has a newline or a zero byte. -/
def Plain (d : Diversion) : Prop := ∀ l ∈ d.lines, 10 ∉ l ∧ 0 ∉ l

instance (d : Diversion) : Decidable (Plain d) := by unfold Plain; infer_instance

/-- The text of a file of records. -/
def fileText (ds : List Diversion) : Text := Lines.join 10 (ds.flatMap Diversion.lines)

theorem fileText_cons (d : Diversion) (ds : List Diversion) :
    fileText (d :: ds) = d.source ++ 10 :: (d.target ++ 10 :: (d.owner ++ 10 :: fileText ds)) := by
  simp [fileText, Diversion.lines]

theorem fileText_concat (ds : List Diversion) (d : Diversion) : fileText (ds ++ [d]) = fileText ds ++ d.text := by
  simp [fileText, Diversion.text, Lines.join_append]

theorem ended_fileText (ds : List Diversion) : Lines.ended 10 (fileText ds) = fileText ds := by
  rcases List.eq_nil_or_concat ds with rfl | ⟨ds, d, rfl⟩
  · rfl
  · refine if_pos (Or.inr ?_)
    have htext : d.text = (d.source ++ 10 :: (d.target ++ 10 :: d.owner)) ++ [10] := by
      simp [Diversion.text, Diversion.lines]
    rw [List.concat_eq_append, fileText_concat, htext, ← List.append_assoc, List.getLast?_concat]

theorem length_fileText (ds : List Diversion) : (fileText ds).length = (ds.map (fun d => d.text.length)).sum := by
  induction ds using List.reverseRecOn with
  | nil => rfl
  | append_singleton ds d ih => rw [fileText_concat, List.length_append, ih, List.map_append, List.sum_append]; rfl

section Scan

variable {ds : List Diversion} (h : ∀ d ∈ ds, Plain d)

include h

theorem mem_lines {l : Text} (hl : l ∈ ds.flatMap Diversion.lines) : 10 ∉ l ∧ 0 ∉ l := by
  obtain ⟨d, hd, hl⟩ := List.mem_flatMap.mp hl
  exact h d hd l hl

theorem cText_fileText : cText (fileText ds) = fileText ds := by
  refine List.takeWhile_eq_self_iff.mpr (fun c hc => decide_eq_true ?_)
  rintro rfl
  obtain ⟨l, hl, hmem⟩ := List.mem_flatMap.mp hc
  rcases List.mem_append.mp hmem with hmem | hmem
  · exact (mem_lines h hl).2 hmem
  · exact absurd hmem (by decide)

omit h in
theorem cutLine_line {a t : Text} (ha : 10 ∉ a) : cutLine (a ++ 10 :: t) = some (a, t) := by
  rw [cutLine, if_pos (by simp), Lines.takeWhile_cut ha, Lines.dropWhile_cut ha]
  rfl

/-- The loops find the records that were written. -/
theorem scanRecords_fileText {fuel : Nat} (hfuel : ds.length ≤ fuel) : scanRecords fuel (fileText ds) = ds := by
  induction ds generalizing fuel with
  | nil =>
      cases fuel with
      | zero => rfl
      | succ fuel => exact if_pos rfl
  | cons d ds ih =>
      cases fuel with
      | zero => cases hfuel
      | succ fuel =>
          obtain ⟨hd, hds⟩ := List.forall_mem_cons.mp h
          have hsource := (hd d.source (by simp [Diversion.lines])).1
          have htarget := (hd d.target (by simp [Diversion.lines])).1
          have howner := (hd d.owner (by simp [Diversion.lines])).1
          rw [fileText_cons, scanRecords, if_neg (by simp), cutLine_line hsource]
          dsimp only
          rw [cutLine_line htarget]
          dsimp only
          rw [cutLine_line howner]
          dsimp only
          rw [ih hds (by simpa using hfuel)]

theorem recordsOf_fileText : recordsOf (fileText ds) = ds := by
  have hlen : ds.length ≤ (fileText ds).length := by
    clear h
    induction ds with
    | nil => exact Nat.zero_le _
    | cons d ds ih =>
        rw [fileText_cons]
        simp only [List.length_append, List.length_cons]
        omega
  unfold recordsOf
  rw [cText_fileText h]
  exact scanRecords_fileText h hlen

/-- The text of a record stands in the file when the record does, if its second line is no other line of a
record. -/
theorem text_isInfix_iff {d : Diversion} (hd : Plain d) (hline : ∀ d' ∈ ds, d'.source ≠ d.target ∧ d'.owner ≠ d.target)
    (hother : ∀ d' ∈ ds, d'.target = d.target → d' = d) : d.text <:+: fileText ds ↔ d ∈ ds := by
  have hrest : ∀ l ∈ [d.target, d.owner], 10 ∉ l := fun l hl => (hd l (List.mem_cons_of_mem _ hl)).1
  rw [show d.text = Lines.join 10 (d.source :: [d.target, d.owner]) from rfl, fileText,
    Lines.join_isInfix_iff (hd d.source (by simp [Diversion.lines])).1 hrest (fun m hm => (mem_lines h hm).1)]
  constructor
  · rintro ⟨pre, m, post, heq, -⟩
    clear h
    induction ds generalizing pre with
    | nil => exact absurd heq (by simp)
    | cons d' ds ih =>
        obtain ⟨hline', hline⟩ := List.forall_mem_cons.mp hline
        obtain ⟨hother', hother⟩ := List.forall_mem_cons.mp hother
        rw [List.flatMap_cons] at heq
        -- where the first line of the text is, in the record or behind it
        rcases pre with _ | ⟨_, _ | ⟨_, _ | ⟨_, pre⟩⟩⟩
        · obtain ⟨-, heq⟩ := List.cons_eq_cons.mp heq
          obtain ⟨htarget, -⟩ := List.cons_eq_cons.mp heq
          rw [hother' htarget]
          exact List.mem_cons_self
        · obtain ⟨-, heq⟩ := List.cons_eq_cons.mp heq
          obtain ⟨-, heq⟩ := List.cons_eq_cons.mp heq
          exact absurd (List.cons_eq_cons.mp heq).1 hline'.2
        · obtain ⟨-, heq⟩ := List.cons_eq_cons.mp heq
          obtain ⟨-, heq⟩ := List.cons_eq_cons.mp heq
          obtain ⟨-, heq⟩ := List.cons_eq_cons.mp heq
          cases ds with
          | nil => cases heq
          | cons d'' ds => exact absurd (List.cons_eq_cons.mp heq).1 (hline d'' List.mem_cons_self).1
        · obtain ⟨-, heq⟩ := List.cons_eq_cons.mp heq
          obtain ⟨-, heq⟩ := List.cons_eq_cons.mp heq
          obtain ⟨-, heq⟩ := List.cons_eq_cons.mp heq
          exact List.mem_cons_of_mem _ (ih hline hother pre heq)
  · intro hmem
    obtain ⟨ds₁, ds₂, rfl⟩ := List.append_of_mem hmem
    refine ⟨ds₁.flatMap Diversion.lines, d.source, ds₂.flatMap Diversion.lines, ?_, List.suffix_refl _⟩
    rw [List.flatMap_append, List.flatMap_cons]
    rfl

end Scan

/-! ## The file over a run -/

/-- The diversions that packages register on a fresh target. -/
def known : List Diversion := baseFilesDiversions ++ libc6Diversions

theorem known_plain : ∀ d ∈ known, Plain d := by decide +kernel

theorem known_sources : (known.map Diversion.source).Nodup := by decide +kernel

theorem length_known : (fileText known).length ≤ 512 := by decide +kernel

/-- The files with these records: each is known and there once. -/
structure Holds (root : Text) (s : Store Text UInt8) (ds : List Diversion) : Prop where
  nodup : ds.Nodup
  isKnown : ds ⊆ known
  content : (s (diversionsPath root)).getD [] = fileText ds
  written : ds ≠ [] → (s (diversionsPath root)).isSome

section Run

variable {disk : Disk} {root : Text} {s : Store Text UInt8} {ds : List Diversion}

theorem length_fileText_le (hnodup : ds.Nodup) (hknown : ds ⊆ known) : (fileText ds).length ≤ 512 := by
  obtain ⟨l, hperm, hsub⟩ := List.subperm_of_subset hnodup hknown
  refine le_trans ?_ length_known
  rw [length_fileText, length_fileText, ← (hperm.map _).sum_eq]
  exact (hsub.map _).sum_le_sum (fun _ _ => Nat.zero_le _)

theorem length_text_le {d : Diversion} (hd : d ∈ known) : d.text.length ≤ 512 := by
  have hone := length_fileText_le (List.nodup_singleton d) (List.cons_subset.mpr ⟨hd, List.nil_subset _⟩)
  rwa [length_fileText, List.map_singleton, List.sum_singleton] at hone

theorem Holds.plain (h : Holds root s ds) : ∀ d ∈ ds, Plain d := fun d hd => known_plain d (h.isKnown hd)

/-- What reading the file gives. -/
theorem Holds.readfile_eq (h : Holds root s ds) (hshown : 512 ≤ disk.drv.shown) :
    (ds = [] ∧ readfile disk s (diversionsPath root) = none) ∨
      readfile disk s (diversionsPath root) = some (fileText ds) := by
  have hlen := length_fileText_le h.nodup h.isKnown
  have hcontent := h.content
  have hwritten := h.written
  unfold readfile
  cases hfile : s (diversionsPath root) with
  | none =>
      rw [hfile] at hwritten
      exact Or.inl ⟨by_contra (fun hne => nomatch hwritten hne), rfl⟩
  | some file =>
      rw [hfile, Option.getD_some] at hcontent
      rw [Option.map_some, readStatus, hcontent, List.take_of_length_le (by omega)]
      exact Or.inr rfl

/-- Records with the same source are the same. -/
theorem eq_of_source_eq {d d' : Diversion} (hd : d ∈ known) (hd' : d' ∈ known) (h : d.source = d'.source) : d = d' :=
  List.inj_on_of_nodup_map known_sources hd hd' h

variable (hkeeps : ∀ data, disk.drv.close data = (true, data)) (hshown : 512 ≤ disk.drv.shown)

include hkeeps hshown

/-- A known record is added, or it is there, or nothing changes. -/
theorem diversionAdd_known (h : Holds root s ds) {d : Diversion} (hd : d ∈ known) :
    (d ∈ ds ∧ diversionAdd disk root d s = (true, s)) ∨ (d ∉ ds ∧ diversionAdd disk root d s = (false, s)) ∨
      (d ∉ ds ∧ (diversionAdd disk root d s).1 = true ∧ Holds root (diversionAdd disk root d s).2 (ds ++ [d]) ∧
        ∀ p, p ≠ diversionsPath root → (diversionAdd disk root d s).2 p = s p) := by
  have hfits := length_text_le hd
  have hbuffer : ¬ puPathMax * 2 + 256 ≤ d.text.length := by
    unfold puPathMax
    omega
  have hwrite : d ∉ ds → diversionAdd disk root d s = writefile disk (diversionsPath root) (fileText (ds ++ [d])) s := by
    intro hnew
    unfold diversionAdd
    rw [if_neg hbuffer, fileText_concat]
    rcases h.readfile_eq hshown with ⟨rfl, hread⟩ | hread
    · rw [hread]
      rfl
    · have hnone : ds.find? (fun d' => d'.source = d.source) = none := by
        refine List.find?_eq_none.mpr (fun d' hd' hsource => hnew ?_)
        rwa [← eq_of_source_eq (h.isKnown hd') hd (of_decide_eq_true hsource)]
      rw [hread]
      dsimp only
      rw [recordsOf_fileText h.plain, hnone, ended_fileText]
  by_cases hmem : d ∈ ds
  · refine Or.inl ⟨hmem, ?_⟩
    have hfind : ds.find? (fun d' => d'.source = d.source) = some d := by
      have hsome : (ds.find? (fun d' => d'.source = d.source)).isSome :=
        List.find?_isSome.mpr ⟨d, hmem, decide_eq_true rfl⟩
      obtain ⟨d', hfind⟩ := Option.isSome_iff_exists.mp hsome
      have hsource : d'.source = d.source := by simpa using List.find?_some hfind
      rw [hfind, eq_of_source_eq (h.isKnown (List.mem_of_find?_eq_some hfind)) hd hsource]
    unfold diversionAdd
    rw [if_neg hbuffer]
    rcases h.readfile_eq hshown with ⟨rfl, -⟩ | hread
    · cases hmem
    · rw [hread]
      dsimp only
      rw [recordsOf_fileText h.plain, hfind]
      simp
  · right
    rw [hwrite hmem]
    unfold writefile
    by_cases hopen : disk.opens s (diversionsPath root) = true
    · rw [if_pos hopen, hkeeps]
      refine Or.inr ⟨hmem, rfl, ⟨?_, ?_, ?_, fun _ => ?_⟩, fun p hp => Function.update_of_ne hp _ _⟩
      · exact List.nodup_append'.mpr ⟨h.nodup, List.nodup_singleton d, List.disjoint_singleton.mpr hmem⟩
      · exact List.append_subset.mpr ⟨h.isKnown, List.cons_subset.mpr ⟨hd, List.nil_subset _⟩⟩
      · dsimp only
        rw [Function.update_self]
        rfl
      · dsimp only
        rw [Function.update_self]
        rfl
    · rw [if_neg hopen]
      exact Or.inl ⟨hmem, rfl⟩

/-- What a sequence of records does to the files: the first of them are there afterwards, all of them if it worked. -/
structure Added (root : Text) (ds new : List Diversion) (s : Store Text UInt8) (r : Bool × Store Text UInt8) : Prop where
  holds : ∃ more pre post, Holds root r.2 (ds ++ more) ∧ new = pre ++ post ∧ more ⊆ pre ∧ pre ⊆ ds ++ more ∧
    (r.1 = true ↔ post = [])
  other : ∀ p, p ≠ diversionsPath root → r.2 p = s p

theorem addAll_known {new : List Diversion} (hnew : new ⊆ known) : ∀ {s : Store Text UInt8} {ds : List Diversion},
    Holds root s ds → Added root ds new s (addAll disk root new s) := by
  induction new with
  | nil =>
      intro s ds h
      exact ⟨⟨[], [], [], by rwa [List.append_nil], rfl, List.Subset.refl _, List.nil_subset _, iff_of_true rfl rfl⟩,
        fun _ _ => rfl⟩
  | cons d new ih =>
      intro s ds h
      obtain ⟨hd, hrest⟩ := List.cons_subset.mp hnew
      unfold addAll
      rcases diversionAdd_known hkeeps hshown h hd with ⟨hmem, hadd⟩ | ⟨hmem, hadd⟩ | ⟨hmem, hok, hholds, hother⟩
      · -- the record is there
        rw [hadd]
        dsimp only
        rw [if_pos rfl]
        obtain ⟨⟨more, pre, post, hm, rfl, hsub, hpre, hpost⟩, hoth⟩ := ih hrest h
        refine ⟨⟨more, d :: pre, post, hm, rfl, fun x hx => List.mem_cons_of_mem _ (hsub hx), ?_, hpost⟩, hoth⟩
        exact List.cons_subset.mpr ⟨List.mem_append_left _ hmem, hpre⟩
      · rw [hadd]
        dsimp only
        rw [if_neg Bool.false_ne_true]
        exact ⟨⟨[], [], d :: new, by rwa [List.append_nil], rfl, List.Subset.refl _, List.nil_subset _,
          iff_of_false Bool.false_ne_true (List.cons_ne_nil _ _)⟩, fun _ _ => rfl⟩
      · dsimp only
        rw [if_pos hok]
        obtain ⟨⟨more, pre, post, hm, rfl, hsub, hpre, hpost⟩, hoth⟩ := ih hrest hholds
        have hassoc : ds ++ [d] ++ more = ds ++ (d :: more) := by rw [List.append_assoc]; rfl
        rw [hassoc] at hm hpre
        refine ⟨⟨d :: more, d :: pre, post, hm, rfl, List.cons_subset_cons d hsub, ?_, hpost⟩, fun p hp => ?_⟩
        · exact List.cons_subset.mpr ⟨List.mem_append_right _ List.mem_cons_self, hpre⟩
        · rw [hoth p hp, hother p hp]

/-! Looking into the file -/

omit hkeeps in
theorem attested_iff (h : Holds root s ds) : libc6PreunpackAttested disk root s ↔ libc6Diversions ⊆ ds := by
  have hsep : ∀ d ∈ libc6Diversions, ∀ d' ∈ known,
      (d'.source ≠ d.target ∧ d'.owner ≠ d.target) ∧ (d'.target = d.target → d' = d) := by decide +kernel
  refine forall₂_congr (fun d hd => ?_)
  have hlibc : d ∈ known := List.mem_append_right _ hd
  have hlen := length_text_le hlibc
  have hcontains := text_isInfix_iff h.plain (known_plain d hlibc) (fun d' hd' => (hsep d hd d' (h.isKnown hd')).1)
    (fun d' hd' => (hsep d hd d' (h.isKnown hd')).2)
  unfold diversionsContainRecord puPathMax
  rcases h.readfile_eq hshown with ⟨rfl, hread⟩ | hread
  · rw [hread]
    refine iff_of_false ?_ List.not_mem_nil
    rintro ⟨-, buf, hbuf, -⟩
    cases hbuf
  · rw [hread]
    constructor
    · rintro ⟨-, buf, hbuf, htext⟩
      cases hbuf
      rw [cText_fileText h.plain] at htext
      exact hcontains.mp htext
    · intro hmem
      refine ⟨by omega, _, rfl, ?_⟩
      rw [cText_fileText h.plain]
      exact hcontains.mpr hmem

omit hkeeps in
theorem sourceExists_iff (h : Holds root s ds) (path : Text) :
    diversionSourceExists disk root path s = true ↔ ∃ d ∈ ds, d.source = path := by
  unfold diversionSourceExists
  rcases h.readfile_eq hshown with ⟨rfl, hread⟩ | hread
  · rw [hread]
    exact iff_of_false Bool.false_ne_true (fun ⟨d, hd, _⟩ => List.not_mem_nil hd)
  · rw [hread]
    dsimp only
    rw [recordsOf_fileText h.plain, List.any_eq_true]
    exact exists_congr (fun d => and_congr_right (fun _ => decide_eq_true_iff))

omit hkeeps hshown in
/-- The two functions that look for a path do so in the same way. -/
theorem pathHasDiversion_eq (hroot : root.length < 1000) (path : Text) :
    pathHasDiversion disk root path s = diversionSourceExists disk root path s := by
  have hname : diversionsName.length = 24 := by decide
  have hlen : (root ++ diversionsName).length = root.length + 24 := by rw [List.length_append, hname]
  have hpath : diversionsPath root = root ++ diversionsName := List.take_of_length_le (by rw [hlen, puPathMax]; omega)
  unfold pathHasDiversion diversionSourceExists
  rw [if_neg (by omega), hpath]

end Run

/-! ## Registering and looking -/

/-- The diversions of a package. -/
def Preunpack.diversions : Preunpack → List Diversion
  | .baseFiles _ => baseFilesDiversions
  | .libc6 _ => libc6Diversions

/-- What is there after a sequence of actions. -/
structure Ran (disk : Disk) (root : Text) (s : Store Text UInt8) (r : List (Preunpack × Bool) × Store Text UInt8)
    (ds : List Diversion) : Prop where
  holds : Holds root r.2 ds
  other : ∀ p, p ≠ diversionsPath root → r.2 p = s p
  worked : ∀ c, (c, true) ∈ r.1 → c.diversions ⊆ ds
  libc6 : ldDiversion ∈ ds → (.libc6 true, true) ∈ r.1

section Ran

variable {disk : Disk} {root : Text} {s : Store Text UInt8} (hkeeps : ∀ data, disk.drv.close data = (true, data))
  (hshown : 512 ≤ disk.drv.shown)

include hkeeps hshown

theorem ran_step {r : List (Preunpack × Bool) × Store Text UInt8} {ds : List Diversion} (h : Ran disk root s r ds)
    (c : Preunpack) : ∃ ds', Ran disk root s
      (r.1 ++ [(c, (preunpack disk root r.2 c).1)], (preunpack disk root r.2 c).2) ds' := by
  have hidle : (preunpack disk root r.2 c) = (false, r.2) → ∃ ds', Ran disk root s
      (r.1 ++ [(c, (preunpack disk root r.2 c).1)], (preunpack disk root r.2 c).2) ds' := by
    intro hstop
    rw [hstop]
    refine ⟨ds, h.holds, h.other, fun c' hc' => ?_, fun hld => List.mem_append_left _ (h.libc6 hld)⟩
    rcases List.mem_append.mp hc' with hc' | hc'
    · exact h.worked c' hc'
    · cases List.mem_singleton.mp hc'
  have hadds : c.diversions ⊆ known →
      preunpack disk root r.2 c = addAll disk root c.diversions r.2 →
      (∀ pre post, c.diversions = pre ++ post → ldDiversion ∈ pre → post = [] ∧ c = .libc6 true) → ∃ ds', Ran disk root s
        (r.1 ++ [(c, (preunpack disk root r.2 c).1)], (preunpack disk root r.2 c).2) ds' := by
    intro hknown heq hlast
    rw [heq]
    obtain ⟨⟨more, pre, post, hholds, hnew, hmore, hpre, hok⟩, hother⟩ := addAll_known hkeeps hshown hknown h.holds
    refine ⟨ds ++ more, hholds, fun p hp => (hother p hp).trans (h.other p hp), fun c' hc' => ?_, fun hld => ?_⟩
    · rcases List.mem_append.mp hc' with hc' | hc'
      · exact List.Subset.trans (h.worked c' hc') (List.subset_append_left _ _)
      · obtain ⟨rfl, hr⟩ := Prod.mk.inj (List.mem_singleton.mp hc')
        rw [hnew, hok.mp hr.symm, List.append_nil]
        exact hpre
    · rcases List.mem_append.mp hld with hld | hld
      · exact List.mem_append_left _ (h.libc6 hld)
      · obtain ⟨hpost, rfl⟩ := hlast pre post hnew (hmore hld)
        rw [hok.mpr hpost]
        exact List.mem_append_right _ (List.mem_singleton_self _)
  cases c with
  | baseFiles checked =>
      cases checked with
      | false => exact hidle rfl
      | true =>
          refine hadds (List.subset_append_left _ _) rfl (fun pre post hnew hmem => ?_)
          have hbase : ldDiversion ∉ baseFilesDiversions := by decide +kernel
          exact absurd (List.mem_append_left post hmem) (hnew ▸ hbase)
  | libc6 checked =>
      cases checked with
      | false => exact hidle rfl
      | true =>
          refine hadds (List.subset_append_right _ _) rfl (fun pre post hnew hmem => ⟨?_, rfl⟩)
          have hnodup : libc6Diversions.Nodup := by decide +kernel
          have hlast : libc6Diversions.getLast? = some ldDiversion := rfl
          rcases List.eq_nil_or_concat post with rfl | ⟨post, x, rfl⟩
          · rfl
          · have hnew : libc6Diversions = pre ++ (post ++ [x]) := by rw [← List.concat_eq_append]; exact hnew
            rw [hnew, ← List.append_assoc, List.getLast?_concat] at hlast
            obtain rfl := Option.some.inj hlast
            rw [hnew] at hnodup
            exact absurd (List.mem_append_right post (List.mem_singleton_self _))
              ((List.disjoint_of_nodup_append hnodup) hmem)

theorem runPreunpack_ran (hfresh : s (diversionsPath root) = none) (cmds : List Preunpack) :
    ∃ ds, Ran disk root s (runPreunpack disk root cmds s) ds := by
  induction cmds using List.reverseRecOn with
  | nil =>
      refine ⟨[], ⟨List.nodup_nil, List.nil_subset _, ?_, fun h => absurd rfl h⟩, fun _ _ => rfl,
        fun c hc => absurd hc List.not_mem_nil, fun h => absurd h List.not_mem_nil⟩
      show (s (diversionsPath root)).getD [] = _
      rw [hfresh]
      rfl
  | append_singleton cmds c ih =>
      obtain ⟨ds, hds⟩ := ih
      unfold runPreunpack at hds ⊢
      rw [List.foldl_concat]
      exact ran_step hkeeps hshown hds c

end Ran

end Guppy.Pkg.Diversions
