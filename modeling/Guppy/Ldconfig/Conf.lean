import Guppy.Ldconfig.Compare
import Guppy.Ldconfig.Elf
import Guppy.Lib.Calls
import Guppy.Pkg.Postinst
import Mathlib.Data.Set.Finite.List

set_option autoImplicit false

/-! # The configuration of the dynamic linker

`scan_conf_file` of `src/pkg_ldconfig.c` goes through the lines of a configuration file; a directory is scanned for
shared objects (`scan_dir`), and an `include` line leads to the files that match a pattern (`scan_include`), each of
which is scanned in the same way. The two functions call each other as often as the files say. Over the tree of the
target the scan is a body of calls for each file (`confSteps`), so it ends exactly when no file that it comes to leads
back to itself (`scanConf_ends_iff`).
-/

namespace Guppy.Ldconfig

open Vfs (Text)
open Pkg (ascii isBlank)
open Pkg.Postinst (trim strstr scriptLines)
open Calls (Step runSteps)

/-! ## The code -/

/-- `LD_PATH_MAX` -/
def ldPathMax : Nat := 1400

/-- The files of the target by their paths: what `read_file` and the directory functions return. -/
structure Tree where
  readFile : Text → Option (List UInt8)
  readdir : Text → Option (List Text)

/-- What a scan returns: whether it worked, and the entries. -/
abbrev Scan := Bool × List Ldent

/-- `add_entry`, with the flags `FLAG_AMD64` -/
def addEntry (x : List Ldent) (soname path : Text) : List Ldent :=
  if x.any fun e => e.soname = soname then x else x ++ [⟨soname, path, 0x0303⟩]

/-- `looks_like_dso` -/
def looksLikeDso (name : Text) : Bool := name ≠ [] && (strstr (ascii ".so") name).isSome

/-- The loop of `scan_dir` -/
def scanDirEntries (tree : Tree) (full rel : Text) : List Text → List Ldent → Scan
  | [], ents => (true, ents)
  | name :: names, ents =>
      if name = ascii "." ∨ name = ascii ".." ∨ looksLikeDso name = false then scanDirEntries tree full rel names ents
      else if (full ++ ascii "/" ++ name).length ≥ ldPathMax then (false, ents)
      else
        match tree.readFile (full ++ ascii "/" ++ name) with
        | none => scanDirEntries tree full rel names ents
        | some buf =>
            match (elfSoname buf 512).value with
            | none => scanDirEntries tree full rel names ents
            | some soname =>
                if (rel ++ ascii "/" ++ name).length ≥ ldPathMax then (false, ents)
                else scanDirEntries tree full rel names (addEntry ents soname (rel ++ ascii "/" ++ name))

/-- `scan_dir`: a directory that is absent is fine. -/
def scanDir (tree : Tree) (root rel : Text) (ents : List Ldent) : Scan :=
  if (root ++ rel).length ≥ ldPathMax then (false, ents)
  else
    match tree.readdir (root ++ rel) with
    | none => (true, ents)
    | some names => scanDirEntries tree (root ++ rel) rel names ents

/-- `wildcard_match_conf`: the first star of the pattern stands for any text. -/
def wildcardMatchConf (name pattern : Text) : Bool :=
  if (42 : UInt8) ∈ pattern then
    let pre := pattern.takeWhile (· ≠ 42)
    let suf := (pattern.dropWhile (· ≠ 42)).drop 1
    name.length ≥ pre.length + suf.length && pre <+: name && suf <:+ name
  else name = pattern

/-- The two parts of a pattern at its last slash: `dirrel` and `namepat`. -/
def dirrel (pat : Text) : Text := (pat.rdropWhile (· ≠ 47)).dropLast
def namepat (pat : Text) : Text := pat.rtakeWhile (· ≠ 47)

/-- The checks of `scan_include` before the directory is opened. -/
def badPattern (root pat : Text) : Bool :=
  (47 : UInt8) ∉ pat ∨ pat.head? ≠ some 47 ∨ (dirrel pat).length ≥ ldPathMax ∨ (namepat pat).length ≥ 512 ∨
    (root ++ dirrel pat).length ≥ ldPathMax

/-- The loop of `scan_include` -/
def scanIncludeNames (sub : Text → List Ldent → Option Scan) (dir pattern : Text) : List Text → List Ldent → Option Scan
  | [], ents => some (true, ents)
  | name :: names, ents =>
      if wildcardMatchConf name pattern then
        if (dir ++ ascii "/" ++ name).length ≥ ldPathMax then some (false, ents)
        else (sub (dir ++ ascii "/" ++ name) ents).bind fun r =>
          if r.1 then scanIncludeNames sub dir pattern names r.2 else some r
      else scanIncludeNames sub dir pattern names ents

/-- `scan_include`, where `sub` is the scan of a file -/
def scanInclude (tree : Tree) (sub : Text → List Ldent → Option Scan) (root pat : Text) (ents : List Ldent) : Option Scan :=
  if badPattern root pat then some (false, ents)
  else
    match tree.readdir (root ++ dirrel pat) with
    | none => some (true, ents)
    | some names => scanIncludeNames sub (dirrel pat) (namepat pat) names ents

/-- A line up to its comment, trimmed. -/
def stripComment (line : Text) : Text := trim (line.takeWhile (· ≠ 35))

/-- The lines of a configuration file. -/
def confLines (content : List UInt8) : List Text := (scriptLines content).map stripComment

/-- The test for an `include` line. -/
def isInclude (line : Text) : Bool := ascii "include" <+: line ∧ (line.drop 7).head?.any isBlank

/-- One line. -/
def scanLine (tree : Tree) (sub : Text → List Ldent → Option Scan) (root line : Text) (ents : List Ldent) : Option Scan :=
  if line = [] then some (true, ents)
  else if isInclude line then scanInclude tree sub root (trim (line.drop 7)) ents
  else if line.head? = some 47 then some (scanDir tree root line ents)
  else some (false, ents)

/-- The loop over the lines. -/
def scanLines (tree : Tree) (sub : Text → List Ldent → Option Scan) (root : Text) : List Text → List Ldent → Option Scan
  | [], ents => some (true, ents)
  | line :: lines, ents => (scanLine tree sub root line ents).bind fun r =>
      if r.1 then scanLines tree sub root lines r.2 else some r

/-- `scan_conf_file`, with calls nested at most so deep: without a result the scan has not ended. -/
def scanConfFile (tree : Tree) (root : Text) : Nat → Text → List Ldent → Option Scan
  | 0, _, _ => none
  | fuel + 1, relconf, ents =>
      if (root ++ relconf).length ≥ ldPathMax then some (false, ents)
      else
        match tree.readFile (root ++ relconf) with
        | none => some (true, ents)
        | some buf => scanLines tree (scanConfFile tree root fuel) root (confLines buf) ents

/-! ## The calls of a file -/

/-- The files that match the pattern of an `include` line. -/
def includeSteps (tree : Tree) (root pat : Text) : List (Step Text) :=
  if badPattern root pat then [.fail]
  else (((tree.readdir (root ++ dirrel pat)).getD []).filter fun name => wildcardMatchConf name (namepat pat)).map fun name =>
    if (dirrel pat ++ ascii "/" ++ name).length ≥ ldPathMax then .fail else .call (dirrel pat ++ ascii "/" ++ name)

/-- A line as steps: a directory that cannot be scanned and a line of another kind fail. -/
def lineSteps (tree : Tree) (root line : Text) : List (Step Text) :=
  if line = [] then []
  else if isInclude line then includeSteps tree root (trim (line.drop 7))
  else if line.head? = some 47 then if (scanDir tree root line []).1 then [] else [.fail]
  else [.fail]

/-- A configuration file as steps. -/
def confSteps (tree : Tree) (root relconf : Text) : List (Step Text) :=
  if (root ++ relconf).length ≥ ldPathMax then [.fail]
  else
    match tree.readFile (root ++ relconf) with
    | none => []
    | some buf => (confLines buf).flatMap (lineSteps tree root)

/-- A configuration file comes to an `include` line that leads to another: what stands before it is fine, with all that it
includes. -/
def Includes (tree : Tree) (root : Text) : Text → Text → Prop := Calls.Calls (confSteps tree root)

section Refine

variable {tree : Tree} {root : Text}

/-- Whether a directory can be scanned does not depend on the entries before. -/
theorem scanDirEntries_ok (full rel : Text) (names : List Text) : ∀ ents ents' : List Ldent,
    (scanDirEntries tree full rel names ents).1 = (scanDirEntries tree full rel names ents').1 := by
  induction names with
  | nil => exact fun _ _ => rfl
  | cons name names ih =>
      intro ents ents'
      rw [scanDirEntries, scanDirEntries]
      split
      · exact ih ents ents'
      split
      · rfl
      cases tree.readFile (full ++ ascii "/" ++ name) with
      | none => exact ih ents ents'
      | some buf =>
          dsimp only []
          cases (elfSoname buf 512).value with
          | none => exact ih ents ents'
          | some soname =>
              dsimp only []
              split
              · rfl
              · exact ih _ _

theorem scanDir_ok (rel : Text) (ents ents' : List Ldent) :
    (scanDir tree root rel ents).1 = (scanDir tree root rel ents').1 := by
  unfold scanDir
  split
  · rfl
  · cases tree.readdir (root ++ rel) with
    | none => rfl
    | some names => exact scanDirEntries_ok _ _ names ents ents'

/-- A step and the rest behind it, without the entries. -/
theorem bind_fst {s : Option Scan} {s' : Option Bool} {f : List Ldent → Option Scan} {f' : Option Bool}
    (hs : s.map Prod.fst = s') (hf : ∀ ents, (f ents).map Prod.fst = f') :
    (s.bind fun r => if r.1 then f r.2 else some r).map Prod.fst = s'.bind fun ok => if ok then f' else some false := by
  subst hs
  cases s with
  | none => rfl
  | some r =>
      obtain ⟨ok, ents⟩ := r
      cases ok with
      | true => exact hf ents
      | false => rfl

variable {sub : Text → List Ldent → Option Scan} {sub' : Text → Option Bool}
  (hsub : ∀ c ents, (sub c ents).map Prod.fst = sub' c)

include hsub

theorem scanIncludeNames_refines (dir pattern : Text) (names : List Text) : ∀ ents,
    (scanIncludeNames sub dir pattern names ents).map Prod.fst =
      runSteps sub' ((names.filter fun name => wildcardMatchConf name pattern).map fun name =>
        if (dir ++ ascii "/" ++ name).length ≥ ldPathMax then .fail else .call (dir ++ ascii "/" ++ name)) := by
  induction names with
  | nil => exact fun _ => rfl
  | cons name names ih =>
      intro ents
      rw [scanIncludeNames]
      by_cases hmatch : wildcardMatchConf name pattern = true
      · rw [if_pos hmatch, List.filter_cons, if_pos hmatch, List.map_cons]
        by_cases hlen : (dir ++ ascii "/" ++ name).length ≥ ldPathMax
        · rw [if_pos hlen, if_pos hlen]
          rfl
        · rw [if_neg hlen, if_neg hlen]
          exact bind_fst (hsub _ ents) ih
      · rw [if_neg hmatch, List.filter_cons, if_neg hmatch]
        exact ih ents

theorem scanInclude_refines (pat : Text) (ents : List Ldent) :
    (scanInclude tree sub root pat ents).map Prod.fst = runSteps sub' (includeSteps tree root pat) := by
  unfold scanInclude includeSteps
  by_cases hbad : badPattern root pat = true
  · rw [if_pos hbad, if_pos hbad]
    rfl
  · rw [if_neg hbad, if_neg hbad]
    cases tree.readdir (root ++ dirrel pat) with
    | none => rfl
    | some names => exact scanIncludeNames_refines hsub _ _ names ents

theorem scanLine_refines (line : Text) (ents : List Ldent) :
    (scanLine tree sub root line ents).map Prod.fst = runSteps sub' (lineSteps tree root line) := by
  unfold scanLine lineSteps
  by_cases hempty : line = []
  · rw [if_pos hempty, if_pos hempty]
    rfl
  rw [if_neg hempty, if_neg hempty]
  by_cases hincl : isInclude line = true
  · rw [if_pos hincl, if_pos hincl]
    exact scanInclude_refines hsub _ ents
  rw [if_neg hincl, if_neg hincl]
  by_cases hdir : line.head? = some 47
  · rw [if_pos hdir, if_pos hdir, Option.map_some, scanDir_ok line ents []]
    cases (scanDir tree root line []).1 with
    | true => rfl
    | false => rfl
  · rw [if_neg hdir, if_neg hdir]
    rfl

theorem scanLines_refines (lines : List Text) : ∀ ents,
    (scanLines tree sub root lines ents).map Prod.fst = runSteps sub' (lines.flatMap (lineSteps tree root)) := by
  induction lines with
  | nil => exact fun _ => rfl
  | cons line lines ih =>
      intro ents
      rw [scanLines, List.flatMap_cons, Calls.runSteps_append]
      exact bind_fst (scanLine_refines hsub line ents) ih

omit hsub in
/-- The scan of a file is the run of its steps. -/
theorem scanConfFile_refines (fuel : Nat) : ∀ relconf ents,
    (scanConfFile tree root fuel relconf ents).map Prod.fst = Calls.run (confSteps tree root) fuel relconf := by
  induction fuel with
  | zero => exact fun _ _ => rfl
  | succ fuel ih =>
      intro relconf ents
      rw [scanConfFile, Calls.run, confSteps]
      split
      · rfl
      · cases tree.readFile (root ++ relconf) with
        | none => rfl
        | some buf => exact scanLines_refines ih _ ents

end Refine

/-! ## When the scan ends -/

section Ends

variable {tree : Tree} {root : Text}

/-- A file that is included has a path that fits its buffer. -/
theorem call_mem_confSteps {relconf c : Text} (h : .call c ∈ confSteps tree root relconf) : c.length < ldPathMax := by
  unfold confSteps at h
  split at h
  · simp at h
  cases hread : tree.readFile (root ++ relconf) with
  | none =>
      rw [hread] at h
      cases h
  | some buf =>
      rw [hread] at h
      obtain ⟨line, -, hline⟩ := List.mem_flatMap.mp h
      unfold lineSteps at hline
      split at hline
      · cases hline
      split at hline
      · unfold includeSteps at hline
        split at hline
        · simp at hline
        · obtain ⟨name, -, hname⟩ := List.mem_map.mp hline
          split at hname
          · cases hname
          · rename_i hlen
            cases hname
            omega
      split at hline
      · split at hline
        · cases hline
        · simp at hline
      · simp at hline

theorem scanConfFile_isSome (fuel : Nat) (relconf : Text) (ents : List Ldent) :
    (scanConfFile tree root fuel relconf ents).isSome = (Calls.run (confSteps tree root) fuel relconf).isSome := by
  rw [← scanConfFile_refines fuel relconf ents, Option.isSome_map]

/-- The scan of the configuration ends exactly when no file that it comes to leads back to itself. -/
theorem scanConf_ends_iff (tree : Tree) (root : Text) (ents : List Ldent) :
    (∃ fuel, (scanConfFile tree root fuel (ascii "/etc/ld.so.conf") ents).isSome = true) ↔
      ∀ conf, Relation.ReflTransGen (Includes tree root) (ascii "/etc/ld.so.conf") conf →
        ¬ Relation.TransGen (Includes tree root) conf conf := by
  -- there are only so many paths that fit a buffer
  have hbyte : Finite UInt8 := Finite.of_injective UInt8.toFin fun _ _ => UInt8.toFin_inj.mp
  have hfin : {c : Text | c.length < ldPathMax}.Finite := List.finite_length_lt UInt8 ldPathMax
  refine Iff.trans (exists_congr fun fuel => ?_)
    (Calls.ends_iff hfin (fun relconf c (h : .call c ∈ confSteps tree root relconf) => call_mem_confSteps h) _)
  rw [scanConfFile_isSome, Option.isSome_iff_exists]

end Ends

/-! ## A file that includes itself -/

/-- A target whose configuration holds one line, which includes the configuration. -/
def selfIncluding : Tree where
  readFile p := if p = ascii "/target/etc/ld.so.conf" then some (ascii "include /etc/ld.so.conf\n") else none
  readdir p := if p = ascii "/target/etc" then some [ascii ".", ascii "..", ascii "ld.so.conf"] else none

theorem confSteps_selfIncluding :
    confSteps selfIncluding (ascii "/target") (ascii "/etc/ld.so.conf") = [.call (ascii "/etc/ld.so.conf")] := by
  decide +kernel

/-- The scan of such a target never ends. -/
theorem scan_never_ends : ∃ (tree : Tree) (root : Text), root ≠ [] ∧
    ∀ fuel ents, scanConfFile tree root fuel (ascii "/etc/ld.so.conf") ents = none := by
  refine ⟨selfIncluding, ascii "/target", by decide, fun fuel ents => ?_⟩
  have hself : Includes selfIncluding (ascii "/target") (ascii "/etc/ld.so.conf") (ascii "/etc/ld.so.conf") :=
    ⟨[], [], confSteps_selfIncluding, fun s hs => absurd hs List.not_mem_nil⟩
  have hrun := Calls.run_cycle (Relation.TransGen.single hself) fuel
  rw [← scanConfFile_refines fuel _ ents] at hrun
  exact Option.map_eq_none_iff.mp hrun

end Guppy.Ldconfig
