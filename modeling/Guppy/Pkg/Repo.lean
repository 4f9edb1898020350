import Guppy.Pkg.Control
import Guppy.Pkg.Plan
import Guppy.Pkg.Version
import Mathlib.Data.List.GetD
import Mathlib.Data.List.MinMax

set_option autoImplicit false

/-! # The registered repositories

`src/pkg_repo.c` keeps the roots of the repositories and one list with the records of all of them. A
repository is added by going through its `dists` directory for indexes, and it is deleted by its number or
its root. Over any sequence of these commands the list holds no record twice and only records of registered
roots, and to delete what was added last leads back to the state before (`repo_runs`).
-/

namespace Guppy.Pkg.Repo

open Vfs Archive

/-! ## The code -/

/-- What the file system answers: the names in a directory with their types, and the text of an index,
decoded as its name says. -/
structure Host where
  opendir : Text → Option (List (Text × Nat))
  load : Text → Option Text

/-- `g_entries` and `g_roots` -/
structure Registry where
  entries : List IndexEntry
  roots : List Text

/-- `PKG_REPO_MAX` -/
def pkgRepoMax : Nat := 8

/-- `join` with a buffer of `n` bytes -/
def join (n : Nat) (a b : Text) : Option Text :=
  let between : Text := if a ≠ [] ∧ a.getLast? ≠ some slash then [slash] else []
  let path := a ++ between ++ b
  if n ≤ path.length then none else some path

def isIndexName (name : Text) : Bool :=
  name = ascii "Packages" ∨ name = ascii "Packages.xz" ∨ name = ascii "Packages.gz"

/-- The indexes that are read: those of `amd64` and `all`, but not those of the installer. -/
def isWanted (path : Text) : Bool :=
  (ascii "/binary-amd64/Packages" <:+: path ∨ ascii "/binary-all/Packages" <:+: path) ∧
    ¬ ascii "/debian-installer/" <:+: path

/-- `VFS_DT_DIR` and `VFS_DT_UNKNOWN` -/
def mayBeDir (type : Nat) : Bool := type = 4 ∨ type = 0

/-- `load_index` -/
def loadIndex (host : Host) (root path : Text) (entries : List IndexEntry) : Option (List IndexEntry) :=
  (host.load path).map (parseIndex entries root)

/-- `scan_dir`, with the entries and the number of indexes that were read, and whether the directory
could be opened. The fuel is what is left of the depth of six. -/
def scanDir (host : Host) (root : Text) : Nat → Text → List IndexEntry × Nat → Bool × List IndexEntry × Nat
  | 0, _, s => (true, s)
  | fuel + 1, path, s =>
      match host.opendir path with
      | none => (false, s)
      | some names =>
          (true, names.foldl (fun s e =>
            if e.1 = [dot] ∨ e.1 = dotdot then s
            else
              match join 1024 path e.1 with
              | none => s
              | some p =>
                  if isIndexName e.1 = true then
                    if isWanted p = true then
                      match loadIndex host root p s.1 with
                      | none => s
                      | some entries => (entries, s.2 + 1)
                    else s
                  else if mayBeDir e.2 = true then (scanDir host root fuel p s).2
                  else s) s)

/-- `pkg_repo_add`: the number of new records. After a failure `g_count` is what it was. -/
def pkgRepoAdd (host : Host) (root : Text) (s : Registry) : Option Nat × Registry :=
  if root = [] then (none, s)
  else if s.roots.contains root = true then (none, s)
  else if pkgRepoMax ≤ s.roots.length then (none, s)
  else
    match join 768 root (ascii "dists") with
    | none => (none, s)
    | some dists =>
        let r := scanDir host root 7 dists (s.entries, 0)
        if r.1 = false ∨ r.2.2 = 0 then (none, { s with entries := r.2.1.take s.entries.length })
        else (some (r.2.1.length - s.entries.length), ⟨r.2.1, s.roots ++ [root.take 511]⟩)

/-- Which repository a text means: its number, counted from one, or its root. -/
def specIndex (spec : Text) (roots : List Text) : Option Nat :=
  let n := Ar.strtoull spec
  if n.2 = [] ∧ 1 ≤ n.1 ∧ n.1 ≤ roots.length then some (n.1 - 1) else roots.findIdx? (· = spec)

/-- `pkg_repo_delete` -/
def pkgRepoDelete (spec : Text) (s : Registry) : Bool × Registry :=
  if spec = [] then (false, s)
  else
    match specIndex spec s.roots with
    | none => (false, s)
    | some idx => (true, ⟨s.entries.filter (fun e => e.repoRoot ≠ s.roots.getD idx []), s.roots.eraseIdx idx⟩)

/-- `pkg_repo_clear` -/
def pkgRepoClear : Registry := ⟨[], []⟩

/-- The commands; every one finds the file system as it is then. -/
inductive Command
  | add (host : Host) (root : Text)
  | delete (spec : Text)
  | clear

def step (s : Registry) : Command → Registry
  | .add host root => (pkgRepoAdd host root s).2
  | .delete spec => (pkgRepoDelete spec s).2
  | .clear => pkgRepoClear

def run (cmds : List Command) : Registry := cmds.foldl step pkgRepoClear

/-- The roots that are added fit their buffers. -/
def Command.Fits : Command → Prop
  | .add _ root => root.length < 512
  | _ => True

/-! ## Records -/

/-- Two records that are not the same. -/
def Apart (a b : IndexEntry) : Prop := sameRecord a b b.repoRoot = false

def Named (e : IndexEntry) : Prop := e.text .package ≠ [] ∧ e.text .version ≠ [] ∧ e.text .filename ≠ []

/-- A list that goes on with records of a root. -/
structure Continues (root : Text) (old entries : List IndexEntry) : Prop where
  more : ∃ new, entries = old ++ new ∧ ∀ e ∈ new, e.repoRoot = root ∧ Named e
  once : old.Pairwise Apart → entries.Pairwise Apart

/-- What holds in every state. -/
structure Sound (s : Registry) : Prop where
  few : s.roots.length ≤ pkgRepoMax
  distinct : s.roots.Nodup
  rooted : ∀ e ∈ s.entries, e.repoRoot ∈ s.roots
  named : ∀ e ∈ s.entries, Named e
  once : s.entries.Pairwise Apart

section Add

variable {host : Host} {root : Text} {old : List IndexEntry}

theorem Continues.refl (root : Text) (old : List IndexEntry) : Continues root old old :=
  ⟨⟨[], (List.append_nil old).symm, fun _ h => absurd h List.not_mem_nil⟩, id⟩

theorem appendEntry_continues (hroot : root.length < 512) {entries : List IndexEntry} (h : Continues root old entries)
    (e : IndexEntry) : Continues root old (appendEntry entries root e) := by
  unfold appendEntry
  split
  · exact h
  · rename_i hnamed
    split
    · exact h
    · rename_i hnew
      obtain ⟨⟨new, rfl, hall⟩, honce⟩ := h
      have hfit : root.take 511 = root := List.take_of_length_le (by omega)
      rw [hfit]
      constructor
      · refine ⟨new ++ [{ e with repoRoot := root }], List.append_assoc .., fun a ha => ?_⟩
        rcases List.mem_append.mp ha with ha | ha
        · exact hall a ha
        · rw [List.mem_singleton.mp ha]
          unfold Named
          exact ⟨rfl, by simpa only [not_or] using hnamed⟩
      · intro hold
        refine List.pairwise_append.mpr ⟨honce hold, List.pairwise_singleton .., fun a ha b hb => ?_⟩
        rw [List.mem_singleton.mp hb]
        by_contra hsame
        have hsame : sameRecord a e root = true := Bool.eq_true_of_not_eq_false hsame
        exact hnew (List.any_eq_true.mpr ⟨a, ha, hsame⟩)

theorem indexLines_continues (hroot : root.length < 512) (lines : List Text) : ∀ {entries : List IndexEntry}
    (e : IndexEntry), Continues root old entries → Continues root old (indexLines root entries e lines) := by
  induction lines with
  | nil => exact fun e h => appendEntry_continues hroot h e
  | cons line lines ih =>
      intro entries e h
      unfold indexLines
      split
      · exact ih _ (appendEntry_continues hroot h e)
      · exact ih _ h

/-- A scan adds records of its root, in all directories that it goes through. -/
theorem scanDir_continues (hroot : root.length < 512) (fuel : Nat) : ∀ {path : Text} {s : List IndexEntry × Nat},
    Continues root old s.1 → Continues root old (scanDir host root fuel path s).2.1 := by
  induction fuel with
  | zero => exact fun h => h
  | succ fuel ih =>
      intro path s h
      unfold scanDir
      split
      · exact h
      · rename_i names hopen
        clear hopen
        show Continues root old (names.foldl _ s).1
        induction names generalizing s with
        | nil => exact h
        | cons e names ihn =>
            refine ihn ?_
            dsimp only []
            split
            · exact h
            · split
              · exact h
              · split
                · split
                  · split
                    · exact h
                    · rename_i entries hload
                      unfold loadIndex at hload
                      obtain ⟨text, -, rfl⟩ := Option.map_eq_some_iff.mp hload
                      exact indexLines_continues hroot _ _ h
                  · exact h
                · split
                  · exact ih h
                  · exact h

/-- What to add a repository comes to. -/
theorem pkgRepoAdd_cases (hroot : root.length < 512) (s : Registry) :
    pkgRepoAdd host root s = (none, s) ∨ ∃ entries, Continues root s.entries entries ∧ root ∉ s.roots ∧
      s.roots.length < pkgRepoMax ∧
      pkgRepoAdd host root s = (some (entries.length - s.entries.length), ⟨entries, s.roots ++ [root]⟩) := by
  unfold pkgRepoAdd
  split
  · exact Or.inl rfl
  · split
    · exact Or.inl rfl
    · rename_i hnew
      split
      · exact Or.inl rfl
      · rename_i hroom
        split
        · exact Or.inl rfl
        · rename_i dists _
          have hscan := @scanDir_continues host root s.entries hroot 7 dists (s.entries, 0) (Continues.refl root _)
          dsimp only []
          generalize scanDir host root 7 dists (s.entries, 0) = r at hscan ⊢
          split
          · left
            obtain ⟨⟨new, hmore, -⟩, -⟩ := hscan
            rw [hmore, List.take_left]
          · right
            rw [List.take_of_length_le (show root.length ≤ 511 by omega)]
            exact ⟨r.2.1, hscan, fun hmem => hnew (List.contains_iff_mem.mpr hmem), by omega, rfl⟩

theorem pkgRepoAdd_sound (hroot : root.length < 512) {s : Registry} (h : Sound s) : Sound (pkgRepoAdd host root s).2 := by
  rcases @pkgRepoAdd_cases host root hroot s with hsame | ⟨entries, ⟨⟨new, rfl, hnew⟩, honce⟩, hfresh, hroom, hadd⟩
  · rw [hsame]
    exact h
  · rw [hadd]
    refine ⟨?_, ?_, fun e he => ?_, fun e he => ?_, honce h.once⟩
    · rw [List.length_append, List.length_singleton]
      omega
    · rw [List.nodup_append]
      refine ⟨h.distinct, List.nodup_singleton _, fun a ha b hb => ?_⟩
      rw [List.mem_singleton.mp hb]
      exact fun hab => hfresh (hab ▸ ha)
    · rcases List.mem_append.mp he with he | he
      · exact List.mem_append_left _ (h.rooted e he)
      · rw [(hnew e he).1]
        exact List.mem_append_right _ (List.mem_singleton_self _)
    · rcases List.mem_append.mp he with he | he
      · exact h.named e he
      · exact (hnew e he).2

end Add

/-! ## Deletion -/

section Delete

theorem mem_eraseIdx_of_ne {r : Text} {idx : Nat} {roots : List Text} (hr : r ∈ roots) (hne : r ≠ roots.getD idx []) :
    r ∈ roots.eraseIdx idx := by
  rw [List.mem_eraseIdx_iff_getElem?]
  obtain ⟨i, hi, rfl⟩ := List.mem_iff_getElem.mp hr
  refine ⟨i, fun h => hne ?_, List.getElem?_eq_getElem hi⟩
  subst h
  exact (List.getD_eq_getElem _ _ hi).symm

theorem pkgRepoDelete_sound {spec : Text} {s : Registry} (h : Sound s) : Sound (pkgRepoDelete spec s).2 := by
  unfold pkgRepoDelete
  split
  · exact h
  · split
    · exact h
    · rename_i idx _
      have hsub := List.eraseIdx_sublist s.roots idx
      refine ⟨hsub.length_le.trans h.few, h.distinct.sublist hsub, fun e he => ?_, fun e he => ?_,
        h.once.sublist List.filter_sublist⟩
      · obtain ⟨he, hne⟩ := List.mem_filter.mp he
        exact mem_eraseIdx_of_ne (h.rooted e he) (of_decide_eq_true hne)
      · exact h.named e (List.mem_filter.mp he).1

/-- The number of a repository means that repository. -/
theorem specIndex_numeral {roots : List Text} {n : Nat} (hn : n < roots.length) (hfew : roots.length ≤ pkgRepoMax) :
    specIndex (Digits.numeral 10 (n + 1)) roots = some n := by
  have hvalue : Digits.value 10 (Digits.numeral 10 (n + 1)) = n + 1 := Digits.value_numeral (by decide) (by decide) _
  have hmax : pkgRepoMax = 8 := rfl
  have hread : Ar.strtoull (Digits.numeral 10 (n + 1)) = (n + 1, []) := by
    rw [Ar.strtoull_digits (Ar.numeral_ne_nil _) (fun c hc => Ar.isDigit_of_mem_numeral hc) (by omega), hvalue]
  unfold specIndex
  rw [hread]
  exact if_pos ⟨rfl, Nat.succ_pos n, hn⟩

/-- To delete what was added last leads back. -/
theorem delete_added {root : Text} {s : Registry} {entries : List IndexEntry} (h : Sound s)
    (hmore : Continues root s.entries entries) (hfresh : root ∉ s.roots) (hroom : s.roots.length < pkgRepoMax) :
    pkgRepoDelete (Digits.numeral 10 (s.roots.length + 1)) ⟨entries, s.roots ++ [root]⟩ = (true, s) := by
  have hlast : (s.roots ++ [root]).length = s.roots.length + 1 := List.length_append
  have hroot : (s.roots ++ [root]).getD s.roots.length [] = root := by
    rw [List.getD_eq_getElem _ _ (by omega), List.getElem_concat_length rfl]
  obtain ⟨⟨new, rfl, hnew⟩, -⟩ := hmore
  unfold pkgRepoDelete
  rw [if_neg (Ar.numeral_ne_nil _), specIndex_numeral (hlast ▸ Nat.lt_succ_self _) (hlast ▸ hroom)]
  dsimp only []
  rw [hroot, List.filter_append, List.filter_eq_self.mpr, List.filter_eq_nil_iff.mpr, List.append_nil,
    List.eraseIdx_append_of_length_le le_rfl, Nat.sub_self]
  · exact congrArg (fun roots => (true, (⟨s.entries, roots⟩ : Registry))) (List.append_nil _)
  · intro e he
    rw [(hnew e he).1]
    simp
  · intro e he
    exact decide_eq_true (fun heq => hfresh (heq ▸ h.rooted e he))

end Delete

/-! ## Runs -/

theorem clear_sound : Sound pkgRepoClear :=
  ⟨Nat.zero_le _, List.nodup_nil, fun _ h => absurd h List.not_mem_nil, fun _ h => absurd h List.not_mem_nil,
    List.Pairwise.nil⟩

theorem step_sound {s : Registry} {c : Command} (hfits : c.Fits) (h : Sound s) : Sound (step s c) := by
  cases c with
  | add host root => exact pkgRepoAdd_sound hfits h
  | delete spec => exact pkgRepoDelete_sound h
  | clear => exact clear_sound

theorem run_sound {cmds : List Command} (hfits : ∀ c ∈ cmds, c.Fits) : Sound (run cmds) := by
  induction cmds using List.reverseRecOn with
  | nil => exact clear_sound
  | append_singleton cmds c ih =>
      unfold run
      rw [List.foldl_concat]
      exact step_sound (hfits c (List.mem_append_right _ (List.mem_singleton_self c)))
        (ih (fun c hc => hfits c (List.mem_append_left _ hc)))

/-- After any commands, no record is there twice, and every record belongs to a registered root. To add a
repository either fails and changes nothing, or it appends the records of the new root, and then to delete the
last number restores the registry. -/
theorem repo_runs (cmds : List Command) (hfits : ∀ c ∈ cmds, c.Fits) :
    Sound (run cmds) ∧ ∀ host root, root.length < 512 →
      pkgRepoAdd host root (run cmds) = (none, run cmds) ∨
      ∃ new, (∀ e ∈ new, e.repoRoot = root) ∧ pkgRepoAdd host root (run cmds) =
          (some new.length, ⟨(run cmds).entries ++ new, (run cmds).roots ++ [root]⟩) ∧
        pkgRepoDelete (Digits.numeral 10 ((run cmds).roots.length + 1))
          (pkgRepoAdd host root (run cmds)).2 = (true, run cmds) := by
  have h := run_sound hfits
  refine ⟨h, fun host root hroot => ?_⟩
  rcases @pkgRepoAdd_cases host root hroot (run cmds) with hsame | ⟨entries, hmore, hfresh, hroom, hadd⟩
  · exact Or.inl hsame
  · right
    obtain ⟨new, hentries, hnew⟩ := hmore.more
    refine ⟨new, fun e he => (hnew e he).1, ?_, ?_⟩
    · rw [hadd, hentries, List.length_append, Nat.add_sub_cancel_left]
    · rw [hadd]
      exact delete_added h hmore hfresh hroom

/-- A repository at `/m` with one index of one record. -/
def oneHost : Host where
  opendir := fun path =>
    if path = ascii "/m/dists" then some [([dot], 4), (ascii "s", 4)]
    else if path = ascii "/m/dists/s" then some [(ascii "binary-all", 0)]
    else if path = ascii "/m/dists/s/binary-all" then some [(ascii "Packages", 8), (ascii "Release", 8)]
    else none
  load := fun path =>
    if path = ascii "/m/dists/s/binary-all/Packages" then some (ascii "Package: a\nVersion: 1\nFilename: a.deb\n")
    else none

theorem repo_runs_one : pkgRepoDelete (Digits.numeral 10 1) (pkgRepoAdd oneHost (ascii "/m") (run [])).2 = (true, run []) ∧
    (run [.add oneHost (ascii "/m")]).entries.length = 1 ∧ Sound (run [.add oneHost (ascii "/m")]) := by
  have hcount : (run [.add oneHost (ascii "/m")]).entries.length = 1 := by decide +kernel
  refine ⟨?_, hcount, (repo_runs [.add oneHost (ascii "/m")] (fun c hc => ?_)).1⟩
  · rcases (repo_runs [] (fun c hc => absurd hc List.not_mem_nil)).2 oneHost (ascii "/m") (by decide) with h | ⟨_, _, _, h⟩
    · have hstep : run [.add oneHost (ascii "/m")] = run [] := congrArg Prod.snd h
      rw [hstep] at hcount
      cases hcount
    · exact h
  · rw [List.mem_singleton.mp hc]
    exact show (ascii "/m").length < 512 by decide

/-! ## Lookups -/

section Lookup

open LexSeq

/-- The records among which a lookup chooses, and what it is to choose: the first one with the greatest
version. -/
structure Newest (candidates : List Entry) (e : Entry) : Prop where
  candidate : e ∈ candidates
  greatest : ∀ a ∈ candidates, debVersionCompare a.version e.version ≤ 0
  first : ∀ a ∈ candidates, debVersionCompare a.version e.version = 0 → candidates.idxOf e ≤ candidates.idxOf a

theorem betterEntry_argAux (ok : Entry → Bool) (best : Option Entry) (e : Entry) : betterEntry ok best e =
    if ok e = true then List.argAux (fun a b : Entry => versionKey b.version < versionKey a.version) best e
    else best := by
  unfold betterEntry
  by_cases hok : ok e = true
  · rw [if_pos hok]
    cases best with
    | none => exact if_pos ⟨hok, fun b hb => by cases hb⟩
    | some b =>
        have hlt : (∀ b' ∈ some b, 0 < debVersionCompare e.version b'.version) ↔
            versionKey b.version < versionKey e.version := by
          simp only [Option.mem_def, Option.some.injEq, forall_eq']
          rw [← Int.not_le, debVersionCompare_eq, sign_cmp_le_zero, not_le]
        by_cases hb : versionKey b.version < versionKey e.version
        · exact (if_pos ⟨hok, hlt.mpr hb⟩).trans (if_pos hb).symm
        · exact (if_neg (fun h => hb (hlt.mp h.2))).trans (if_neg hb).symm
  · rw [if_neg hok, if_neg (fun h => hok h.1)]

/-- Both lookups take the greatest version among the records that they accept. -/
theorem foldl_betterEntry_argmax (repo : List Entry) (ok : Entry → Bool) :
    repo.foldl (betterEntry ok) none = (repo.filter ok).argmax (fun e => versionKey e.version) := by
  unfold List.argmax
  rw [List.foldl_filter]
  exact congrFun (congrFun (congrArg List.foldl (funext fun best => funext fun e =>
    betterEntry_argAux ok best e)) none) repo

theorem argmax_newest (candidates : List Entry) : (candidates.argmax (fun e => versionKey e.version) = none ↔
    candidates = []) ∧ ∀ e, candidates.argmax (fun e => versionKey e.version) = some e ↔ Newest candidates e := by
  refine ⟨List.argmax_eq_none, fun e => List.argmax_eq_some_iff.trans ?_⟩
  have hle : ∀ a : Entry, versionKey a.version ≤ versionKey e.version ↔ debVersionCompare a.version e.version ≤ 0 :=
    fun a => by rw [debVersionCompare_eq, sign_cmp_le_zero]
  constructor
  · rintro ⟨hmem, hgreat, hfirst⟩
    refine ⟨hmem, fun a ha => (hle a).mp (hgreat a ha), fun a ha heq => hfirst a ha ?_⟩
    rw [debVersionCompare_eq, sign_eq_zero, cmp_eq_eq_iff] at heq
    exact le_of_eq heq.symm
  · rintro ⟨hmem, hgreat, hfirst⟩
    refine ⟨hmem, fun a ha => (hle a).mpr (hgreat a ha), fun a ha hback => hfirst a ha ?_⟩
    rw [debVersionCompare_eq, sign_eq_zero, cmp_eq_eq_iff]
    exact le_antisymm ((hle a).mpr (hgreat a ha)) hback

/-- A record as the planner looks it up. -/
def entryOf (e : IndexEntry) : Entry :=
  ⟨e.text .package, e.text .version, e.text .preDepends, e.text .depends, e.text .provides, e.repoRoot,
    e.text .filename⟩

/-- The lookups in a registry find nothing only if no record fits, and else the first record with the greatest
version among those that fit. -/
theorem lookups_newest (s : Registry) (name op version : Text) :
    let repo := s.entries.map entryOf
    let named := repo.filter (fun e => e.package = name ∧ debVersionSatisfies e.version op version)
    let provided := repo.filter (fun e => providesName e name)
    ((findBest repo name op version = none ↔ named = []) ∧
      ∀ e, findBest repo name op version = some e ↔ Newest named e) ∧
    (findProvider repo name = none ↔ provided = []) ∧ ∀ e, findProvider repo name = some e ↔ Newest provided e := by
  dsimp only []
  unfold findBest findProvider
  rw [foldl_betterEntry_argmax, foldl_betterEntry_argmax]
  exact ⟨argmax_newest _, argmax_newest _⟩

end Lookup

end Guppy.Pkg.Repo
