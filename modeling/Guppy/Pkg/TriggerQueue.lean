import Guppy.Ldconfig.Cache
import Guppy.Ldconfig.Conf
import Guppy.Pkg.State
import Guppy.Pkg.Triggers

set_option autoImplicit false

/-! # Pending triggers

The queue `Unincorp` has a line for each pending trigger, which begins with its name. `pkg_triggers_process` of
`src/pkg_triggers.c` goes through a copy of it, and for the name `ldconfig` it builds the cache of the dynamic linker and
writes the queue without the lines of that name. A queue that is read whole has all other lines afterwards, in their
order, and it is not touched when no cache was built; and `pkg_trigger_activate_noawait` adds the line of a trigger unless
the queue has it (`queue_preserved`). A line with the same name and more behind it does not count for that
(`activate_pending_adds_line`).
-/

namespace Guppy.Pkg.Triggers

open Vfs (Text)
open Archive (cText)
open Postinst (scriptLines)
open LineFiles (Store)
open Ldconfig (Ldent Scan Tree scanDir scanConfFile buildCache entCmp ldPathMax)

/-! ## Files -/

/-- The target: how a file is read and closed, which files can be opened for writing, their directories made, and the
names in a directory. -/
structure Disk where
  drv : StatusDriver
  opens : Store Text UInt8 → Text → Bool
  readdir : Store Text UInt8 → Text → Option (List Text)

/-- `readfile` -/
def readfile (disk : Disk) (s : Store Text UInt8) (p : Text) : Option Text := (s p).map (readStatus disk.drv)

/-- `writefile`: whether it worked, and the files. What is written goes to the disk when the file is closed. -/
def writefile (disk : Disk) (p d : Text) (s : Store Text UInt8) : Bool × Store Text UInt8 :=
  if disk.opens s p then ((disk.drv.close d).1, Function.update s p (some (disk.drv.close d).2)) else (false, s)

/-! ## The cache of the dynamic linker -/

/-- `read_file` of `src/pkg_ldconfig.c`, which asks for as many bytes as the file has. -/
def ldReadFile (disk : Disk) (s : Store Text UInt8) (p : Text) : Option Text :=
  (s p).filter fun file => file.length ≤ disk.drv.shown

def treeOf (disk : Disk) (s : Store Text UInt8) : Tree := ⟨ldReadFile disk s, disk.readdir s⟩

/-- `dirs` -/
def libraryDirs : List Text :=
  [ascii "/lib/x86_64-linux-gnu", ascii "/usr/lib/x86_64-linux-gnu", ascii "/lib64", ascii "/usr/lib64", ascii "/lib",
    ascii "/usr/lib"]

/-- The loop over these directories. -/
def scanDirs (tree : Tree) (root : Text) : List Text → List Ldent → Scan
  | [], ents => (true, ents)
  | dir :: dirs, ents =>
      if (scanDir tree root dir ents).1 then scanDirs tree root dirs (scanDir tree root dir ents).2
      else scanDir tree root dir ents

def cachePath (root : Text) : Text := root ++ ascii "/etc/ld.so.cache"

/-- `build_cache`: `qsort`, and what is written. -/
def writeCache (disk : Disk) (root : Text) (ents : List Ldent) (s : Store Text UInt8) : Bool × Store Text UInt8 :=
  match buildCache (ents.mergeSort fun a b => entCmp a b ≤ 0) with
  | none => (false, s)
  | some cache => if (cachePath root).length ≥ ldPathMax then (false, s) else writefile disk (cachePath root) cache s

/-- `pkg_ldconfig_run`, where configuration files are nested at most so deep: without a result it has not ended. -/
def pkgLdconfigRun (disk : Disk) (fuel : Nat) (root : Text) (s : Store Text UInt8) : Option (Bool × Store Text UInt8) :=
  if root = [] then some (false, s)
  else
    let dirs := scanDirs (treeOf disk s) root libraryDirs []
    if dirs.1 = false then some (false, s)
    else
      (scanConfFile (treeOf disk s) root fuel (ascii "/etc/ld.so.conf") dirs.2).map fun conf =>
        if conf.1 = false then (false, s) else writeCache disk root conf.2 s

/-! ## The code -/

/-- `line_present` -/
def linePresent (disk : Disk) (s : Store Text UInt8) (path line : Text) : Bool :=
  (Lines.split 10 ((readfile disk s path).getD [])).any fun l => l = line

/-- The name in a line, as `remove_trigger_pending` copies it. -/
def pendingName (line : Text) : Text :=
  cText (((line.dropWhile isBlank).takeWhile fun c => !isBlank c).take (trLineMax - 1))

/-- `remove_trigger_pending` -/
def removeTriggerPending (disk : Disk) (root trigger : Text) (s : Store Text UInt8) : Bool × Store Text UInt8 :=
  if (queuePath root).length ≥ trPathMax then (false, s)
  else
    match readfile disk s (queuePath root) with
    | none => (true, s)
    | some buf =>
        writefile disk (queuePath root) (Lines.join 10 ((Lines.split 10 buf).filter fun l => pendingName l ≠ trigger)) s

/-- What becomes of a line of the queue. -/
inductive Handled
  | unsupported (name : Text)
  | pathTooLong
  | noInterest
  | notRegistered
  | notInstalled (state : Text)
  | ldconfigFailed
  | notRetired
  | retired
  deriving DecidableEq

/-- `last`: the state behind its last blank, or all of it when nothing is there. -/
def lastWord (state : Text) : Text := if state.rtakeWhile (· ≠ 32) = [] then state else state.rtakeWhile (· ≠ 32)

/-- The path of the status file, in a buffer whose size is not checked. -/
def statusPath (root : Text) : Text := (root ++ ascii "/var/lib/dpkg/status").take 1023

/-- `process_ldconfig_trigger` -/
def processLdconfigTrigger (disk : Disk) (fuel : Nat) (root : Text) (s : Store Text UInt8) :
    Option (Handled × Store Text UInt8) :=
  if (triggersPath root (ascii "ldconfig")).length ≥ trPathMax then some (.pathTooLong, s)
  else if linePresent disk s (triggersPath root (ascii "ldconfig")) (ascii "libc-bin") = false then some (.noInterest, s)
  else
    match pkgStateLookup disk.drv (s (statusPath root)) (ascii "libc-bin") with
    | none => some (.notRegistered, s)
    | some st =>
        if lastWord st.state ≠ ascii "installed" then some (.notInstalled (lastWord st.state), s)
        else
          (pkgLdconfigRun disk fuel root s).map fun ran =>
            if ran.1 = false then (.ldconfigFailed, ran.2)
            else
              let removed := removeTriggerPending disk root (ascii "ldconfig") ran.2
              (if removed.1 then .retired else .notRetired, removed.2)

/-- The names that `pkg_triggers_process` finds in its copy of the queue. -/
def queueNames (buf : Text) : List Text :=
  (scriptLines buf).map fun line => (line.takeWhile fun c => !isBlank c).take (trLineMax - 1)

/-- The loop over these names -/
def processLoop (disk : Disk) (fuel : Nat) (root : Text) :
    List Text → Store Text UInt8 → Option (List Handled × Store Text UInt8)
  | [], s => some ([], s)
  | name :: names, s =>
      if name = [] then processLoop disk fuel root names s
      else if name = ascii "ldconfig" then
        (processLdconfigTrigger disk fuel root s).bind fun h =>
          (processLoop disk fuel root names h.2).map fun r => (h.1 :: r.1, r.2)
      else (processLoop disk fuel root names s).map fun r => (.unsupported name :: r.1, r.2)

/-- What is counted as failed. -/
def Handled.failed : Handled → Bool
  | .unsupported _ | .retired => false
  | _ => true

/-- What `pkg_triggers_process` returns, what became of the names, and the files. -/
structure Run where
  rc : Int
  handled : List Handled
  store : Store Text UInt8

/-- `pkg_triggers_process` -/
def pkgTriggersProcess (disk : Disk) (fuel : Nat) (root : Text) (s : Store Text UInt8) : Option Run :=
  if root = [] then some ⟨2, [], s⟩
  else if (queuePath root).length ≥ trPathMax then some ⟨1, [], s⟩
  else
    match readfile disk s (queuePath root) with
    | none => some ⟨0, [], s⟩
    | some buf =>
        (processLoop disk fuel root (queueNames buf) s).map fun r => ⟨if r.1.any Handled.failed then 1 else 0, r.1, r.2⟩

/-- `append_unique_line`, with reading and closing as they are -/
def appendLine (disk : Disk) (path line : Text) (s : Store Text UInt8) : Bool × Store Text UInt8 :=
  if linePresent disk s path line then (true, s)
  else writefile disk path (Lines.ended 10 ((readfile disk s path).getD []) ++ (line ++ [10])) s

/-- The line of a trigger, in a buffer that cuts it. -/
def activationLine (trigger : Text) : Text := (trigger ++ ascii " -").take (trLineMax - 1)

/-- `pkg_trigger_activate_noawait`; the size of the path is not checked. -/
def pkgTriggerActivateNoawait (disk : Disk) (root trigger : Text) (s : Store Text UInt8) : Int × Store Text UInt8 :=
  if root = [] ∨ validExplicitName trigger = false then (1, s)
  else
    let r := appendLine disk ((queuePath root).take (trPathMax - 1)) (activationLine trigger) s
    (if r.1 then 0 else 1, r.2)

/-! ## What is kept -/

/-- The first word of a line. -/
def firstWord (line : Text) : Text := cText ((line.dropWhile isBlank).takeWhile fun c => !isBlank c)

/-- The lines of a queue but for those of `ldconfig`. -/
def retained (text : Text) : Text := Lines.join 10 ((Lines.split 10 text).filter fun l => firstWord l ≠ ascii "ldconfig")

/-- The action was run and succeeded, whether or not the queue could be written then. -/
def Run.Acted (r : Run) : Prop := .retired ∈ r.handled ∨ .notRetired ∈ r.handled

/-- The queue after a run in which it could be written. -/
structure Processed (root text : Text) (r : Run) : Prop where
  acted : r.Acted → r.store (queuePath root) = some (retained text)
  pending : ¬ r.Acted → r.store (queuePath root) = some text

/-- The queue after an activation: as before when the line of the trigger is there, else with that line at its end. -/
structure Activated (disk : Disk) (root text trigger : Text) (s : Store Text UInt8) : Prop where
  present : activationLine trigger ∈ Lines.split 10 text →
    (pkgTriggerActivateNoawait disk root trigger s).2 (queuePath root) = some text
  absent : activationLine trigger ∉ Lines.split 10 text → (queuePath root).length < trPathMax →
    (pkgTriggerActivateNoawait disk root trigger s).1 = 0 → ∃ after,
      (pkgTriggerActivateNoawait disk root trigger s).2 (queuePath root) = some after ∧
      Lines.split 10 after = Lines.split 10 text ++ [activationLine trigger]

/-! ## Writing -/

section Write

variable {disk : Disk} {p q d : Text} {s : Store Text UInt8}

theorem writefile_other (h : q ≠ p) : (writefile disk p d s).2 q = s q := by
  unfold writefile
  split
  · exact Function.update_of_ne h _ _
  · rfl

/-- A write that worked has left what was written. -/
theorem writefile_self (h : (writefile disk p d s).1 = true) : (writefile disk p d s).2 p = some d := by
  unfold writefile at h ⊢
  split at h
  · rename_i hopen
    rw [if_pos hopen]
    change Function.update s p (some (disk.drv.close d).2) p = some d
    rw [Function.update_self, disk.drv.kept d h]
  · cases h

theorem linePresent_iff {line : Text} :
    linePresent disk s p line = true ↔ line ∈ Lines.split 10 ((readfile disk s p).getD []) := by
  simp [linePresent]

theorem appendLine_present {line : Text} (h : line ∈ Lines.split 10 ((readfile disk s p).getD [])) :
    appendLine disk p line s = (true, s) := if_pos (linePresent_iff.mpr h)

theorem appendLine_absent {line : Text} (h : line ∉ Lines.split 10 ((readfile disk s p).getD [])) :
    appendLine disk p line s =
      writefile disk p (Lines.ended 10 ((readfile disk s p).getD []) ++ (line ++ [10])) s :=
  if_neg fun hp => h (linePresent_iff.mp hp)

theorem appendLine_other {line : Text} (h : q ≠ p) : (appendLine disk p line s).2 q = s q := by
  unfold appendLine
  split
  · rfl
  · exact writefile_other h

/-- Where the file is read whole and closing it works, this is the append of the registration. -/
theorem appendLine_eq {line : Text} (hshown : ∀ file, s p = some file → file.length ≤ disk.drv.shown)
    (hclose : ∀ data, (disk.drv.close data).1 = true) : appendUniqueLine (disk.opens s) p line s =
      if (appendLine disk p line s).1 then some (appendLine disk p line s).2 else none := by
  have hread : readfile disk s p = s p := by
    cases hfile : s p with
    | none => rw [readfile, hfile, Option.map_none]
    | some file => rw [readfile, hfile, Option.map_some, readStatus, List.take_of_length_le (hshown file hfile)]
  rw [appendUniqueLine]
  by_cases hline : line ∈ Lines.split 10 ((s p).getD [])
  · rw [if_pos hline, appendLine_present (by rwa [hread])]
    rfl
  · rw [if_neg hline, appendLine_absent (by rwa [hread]), hread]
    unfold writefile
    split
    · dsimp only []
      rw [if_pos (hclose _), disk.drv.kept _ (hclose _)]
    · rfl

/-- The cache is not the queue. -/
theorem queuePath_ne_cachePath (root : Text) : queuePath root ≠ cachePath root := by
  intro h
  rw [queuePath, triggersPath, cachePath, List.append_assoc, List.append_cancel_left_eq] at h
  exact absurd h (by decide +kernel)

theorem writeCache_queue (root : Text) (ents : List Ldent) :
    (writeCache disk root ents s).2 (queuePath root) = s (queuePath root) := by
  unfold writeCache
  split
  · rfl
  split
  · rfl
  · exact writefile_other (queuePath_ne_cachePath root)

theorem pkgLdconfigRun_queue {fuel : Nat} {root : Text} {r : Bool × Store Text UInt8}
    (h : pkgLdconfigRun disk fuel root s = some r) : r.2 (queuePath root) = s (queuePath root) := by
  unfold pkgLdconfigRun at h
  dsimp only [] at h
  split at h
  · cases h
    rfl
  split at h
  · cases h
    rfl
  · obtain ⟨conf, -, rfl⟩ := Option.map_eq_some_iff.mp h
    split
    · rfl
    · exact writeCache_queue root conf.2

end Write

/-! ## The lines that are kept -/

/-- Both ways to cut out a name see the same lines of `ldconfig`. -/
theorem pendingName_eq_iff (line : Text) : pendingName line = ascii "ldconfig" ↔ firstWord line = ascii "ldconfig" := by
  unfold pendingName firstWord cText
  rw [← List.take_takeWhile]
  constructor
  · intro h
    have hlen := congrArg List.length h
    rw [List.length_take] at hlen
    have : (ascii "ldconfig").length = 8 := by decide +kernel
    have : trLineMax - 1 = 2047 := rfl
    rwa [List.take_of_length_le (by omega)] at h
  · intro h
    rw [h]
    decide +kernel

theorem filter_pendingName (ls : List Text) : (ls.filter fun l => pendingName l ≠ ascii "ldconfig") =
    ls.filter fun l => firstWord l ≠ ascii "ldconfig" :=
  List.filter_congr fun l _ => decide_eq_decide.mpr (not_congr (pendingName_eq_iff l))

theorem split_retained (text : Text) :
    Lines.split 10 (retained text) = (Lines.split 10 text).filter fun l => firstWord l ≠ ascii "ldconfig" :=
  Lines.split_join fun _ hl => Lines.not_mem_of_mem_split (List.mem_of_mem_filter hl)

theorem retained_retained (text : Text) : retained (retained text) = retained text := by
  conv_lhs => rw [retained, split_retained, List.filter_filter]
  simp only [Bool.and_self]
  rfl

theorem retained_sublist (text : Text) : (retained text).Sublist (Lines.ended 10 text) := by
  rw [← Lines.join_split]
  exact List.Sublist.flatMap List.filter_sublist _

/-- A queue that is read up to its last newline at least, and whose lines to keep are those of the first one. -/
structure Keeps (disk : Disk) (text t : Text) : Prop where
  shown : Lines.split 10 (readStatus disk.drv t) = Lines.split 10 t
  retained : retained t = retained text

theorem Keeps.refl {disk : Disk} {text : Text} (h : text.length ≤ disk.drv.shown) : Keeps disk text text := by
  refine ⟨?_, rfl⟩
  rw [readStatus, List.take_of_length_le h]

/-- Only the newline that a last line has got may be out of sight. -/
theorem Keeps.of_retained {disk : Disk} {text : Text} (h : text.length ≤ disk.drv.shown) :
    Keeps disk text (Triggers.retained text) := by
  refine ⟨?_, retained_retained text⟩
  by_cases hall : (Triggers.retained text).length ≤ disk.drv.shown
  · rw [readStatus, List.take_of_length_le hall]
  -- then nothing was taken out, and the text had no newline at its end
  · have hsub := retained_sublist text
    have hended : Lines.ended 10 text = text ++ [10] := by
      unfold Lines.ended at hsub ⊢
      split
      · rename_i hlast
        rw [if_pos hlast] at hsub
        have := hsub.length_le
        omega
      · rfl
    have hsame : Triggers.retained text = text ++ [10] := by
      rw [hended] at hsub
      refine hsub.eq_of_length_le ?_
      rw [List.length_append, List.length_singleton]
      omega
    have hshown : disk.drv.shown = text.length := by
      rw [hsame, List.length_append, List.length_singleton] at hall
      omega
    rw [readStatus, hsame, hshown, List.take_left, ← hended, Lines.split_ended]

/-! ## A run -/

section Run

variable {disk : Disk} {fuel : Nat} {root text : Text}

theorem removeTriggerPending_queue {s : Store Text UInt8} {t : Text} (hqueue : s (queuePath root) = some t)
    (ht : Keeps disk text t) (h : (removeTriggerPending disk root (ascii "ldconfig") s).1 = true) :
    (removeTriggerPending disk root (ascii "ldconfig") s).2 (queuePath root) = some (retained text) := by
  unfold removeTriggerPending at h ⊢
  split at h
  · cases h
  · rename_i hpath
    have hread : readfile disk s (queuePath root) = some (readStatus disk.drv t) := by rw [readfile, hqueue, Option.map_some]
    rw [hread] at h ⊢
    rw [if_neg hpath]
    dsimp only [] at h ⊢
    rw [writefile_self h, filter_pendingName, ht.shown]
    exact congrArg some ht.retained

/-- One pending `ldconfig`: the queue has the lines to keep when the action succeeded, and is as before otherwise. -/
theorem processLdconfigTrigger_queue {s : Store Text UInt8} {t : Text} (hqueue : s (queuePath root) = some t)
    (ht : Keeps disk text t) {h : Handled × Store Text UInt8} (hrun : processLdconfigTrigger disk fuel root s = some h)
    (hwritten : h.1 ≠ .notRetired) : (h.1 = .retired → h.2 (queuePath root) = some (retained text)) ∧
      (h.1 ≠ .retired → h.2 (queuePath root) = some t) := by
  unfold processLdconfigTrigger at hrun
  split at hrun
  · cases hrun
    exact ⟨nofun, fun _ => hqueue⟩
  split at hrun
  · cases hrun
    exact ⟨nofun, fun _ => hqueue⟩
  cases hstate : pkgStateLookup disk.drv (s (statusPath root)) (ascii "libc-bin") with
  | none =>
      rw [hstate] at hrun
      cases hrun
      exact ⟨nofun, fun _ => hqueue⟩
  | some st =>
      rw [hstate] at hrun
      dsimp only [] at hrun
      split at hrun
      · cases hrun
        exact ⟨nofun, fun _ => hqueue⟩
      obtain ⟨ran, hran, rfl⟩ := Option.map_eq_some_iff.mp hrun
      have hcache : ran.2 (queuePath root) = some t := (pkgLdconfigRun_queue hran).trans hqueue
      cases hok : ran.1 with
      | false => exact ⟨nofun, fun _ => hcache⟩
      | true =>
          rw [if_neg (by simp [hok])] at hwritten
          rw [if_neg (by simp)]
          dsimp only [] at hwritten ⊢
          cases hremoved : (removeTriggerPending disk root (ascii "ldconfig") ran.2).1 with
          | false =>
              rw [hremoved] at hwritten
              exact absurd rfl hwritten
          | true => exact ⟨fun _ => removeTriggerPending_queue hcache ht hremoved, fun hno => absurd rfl hno⟩

/-- The loop, from a queue with these lines to keep. -/
theorem processLoop_queue (names : List Text) (htext : text.length ≤ disk.drv.shown) :
    ∀ {s : Store Text UInt8} {t : Text} {r : List Handled × Store Text UInt8}, s (queuePath root) = some t →
      Keeps disk text t → processLoop disk fuel root names s = some r → .notRetired ∉ r.1 →
      (.retired ∈ r.1 → r.2 (queuePath root) = some (retained text)) ∧
        (.retired ∉ r.1 → r.2 (queuePath root) = some t) := by
  induction names with
  | nil =>
      intro s t r hqueue _ hrun _
      rw [processLoop] at hrun
      cases hrun
      exact ⟨fun h => absurd h List.not_mem_nil, fun _ => hqueue⟩
  | cons name names ih =>
      intro s t r hqueue ht hrun hwritten
      rw [processLoop] at hrun
      split at hrun
      · exact ih hqueue ht hrun hwritten
      split at hrun
      · obtain ⟨h, hone, hmore⟩ := Option.bind_eq_some_iff.mp hrun
        obtain ⟨r, hrest, rfl⟩ := Option.map_eq_some_iff.mp hmore
        obtain ⟨hfirst, hwritten⟩ := List.ne_and_not_mem_of_not_mem_cons hwritten
        have hstep := processLdconfigTrigger_queue hqueue ht hone (Ne.symm hfirst)
        by_cases hret : h.1 = .retired
        · -- the lines are gone, and a later action finds none
          obtain ⟨hagain, hsame⟩ := ih (hstep.1 hret) (Keeps.of_retained htext) hrest hwritten
          refine ⟨fun _ => ?_, fun hno => absurd (hret ▸ List.mem_cons_self) hno⟩
          by_cases hmem : .retired ∈ r.1
          · exact hagain hmem
          · exact hsame hmem
        · obtain ⟨hretired, hsame⟩ := ih (hstep.2 hret) ht hrest hwritten
          refine ⟨fun hmem => hretired ?_, fun hno => hsame fun hmem => hno (List.mem_cons_of_mem _ hmem)⟩
          exact (List.mem_cons.mp hmem).resolve_left (Ne.symm hret)
      · obtain ⟨r, hrest, rfl⟩ := Option.map_eq_some_iff.mp hrun
        obtain ⟨-, hwritten⟩ := List.ne_and_not_mem_of_not_mem_cons hwritten
        obtain ⟨hretired, hsame⟩ := ih hqueue ht hrest hwritten
        refine ⟨fun hmem => hretired ?_, fun hno => hsame fun hmem => hno (List.mem_cons_of_mem _ hmem)⟩
        exact (List.mem_cons.mp hmem).resolve_left fun he => by cases he

theorem pkgTriggersProcess_queue {s : Store Text UInt8} (hqueue : s (queuePath root) = some text)
    (htext : text.length ≤ disk.drv.shown) {r : Run} (hrun : pkgTriggersProcess disk fuel root s = some r)
    (hwritten : .notRetired ∉ r.handled) : Processed root text r := by
  have hkept {r : Run} (hnone : r.handled = []) (hstore : r.store = s) : Processed root text r := by
    refine ⟨fun hacted => ?_, fun _ => by rw [hstore, hqueue]⟩
    rw [Run.Acted, hnone] at hacted
    exact absurd hacted (by simp)
  unfold pkgTriggersProcess at hrun
  split at hrun
  · cases hrun
    exact hkept rfl rfl
  split at hrun
  · cases hrun
    exact hkept rfl rfl
  · rw [readfile, hqueue, Option.map_some] at hrun
    obtain ⟨r, hloop, rfl⟩ := Option.map_eq_some_iff.mp hrun
    obtain ⟨hretired, hsame⟩ := processLoop_queue _ htext hqueue (Keeps.refl htext) hloop hwritten
    exact ⟨fun hacted => hretired (hacted.resolve_right hwritten), fun hpending => hsame fun hmem => hpending (Or.inl hmem)⟩

end Run

/-! ## Activation -/

section Activate

variable {disk : Disk} {root text trigger : Text} {s : Store Text UInt8}

theorem not_mem_activationLine (h : validExplicitName trigger = true) : 10 ∉ activationLine trigger := by
  intro hmem
  rw [validExplicitName, Bool.and_eq_true, List.all_eq_true] at h
  rcases List.mem_append.mp (List.mem_of_mem_take hmem) with hmem | hmem
  · exact absurd (h.2 10 hmem) (by decide)
  · exact absurd hmem (by decide +kernel)

theorem pkgTriggerActivateNoawait_queue (hqueue : s (queuePath root) = some text) (htext : text.length ≤ disk.drv.shown) :
    Activated disk root text trigger s := by
  have hread : (readfile disk s (queuePath root)).getD [] = text := by
    rw [readfile, hqueue, Option.map_some, Option.getD_some, readStatus, List.take_of_length_le htext]
  constructor
  · intro hmem
    unfold pkgTriggerActivateNoawait
    split
    · exact hqueue
    dsimp only []
    by_cases hpath : queuePath root = (queuePath root).take (trPathMax - 1)
    · rw [← hpath, appendLine_present (by rwa [hread])]
      exact hqueue
    · rw [appendLine_other hpath, hqueue]
  · intro habsent hpath hrc
    unfold pkgTriggerActivateNoawait at hrc ⊢
    split at hrc
    · cases hrc
    rename_i hargs
    rw [if_neg hargs]
    have hvalid : validExplicitName trigger = true := by
      simpa using fun h => hargs (Or.inr h)
    have hwhole : (queuePath root).take (trPathMax - 1) = queuePath root := List.take_of_length_le (by omega)
    dsimp only [] at hrc ⊢
    rw [hwhole] at hrc ⊢
    rw [appendLine_absent (by rwa [hread]), hread] at hrc ⊢
    refine ⟨_, writefile_self ?_, ?_⟩
    · by_contra hno
      rw [if_neg hno] at hrc
      cases hrc
    · rw [Lines.split_ended_append, Lines.split_line_append (not_mem_activationLine hvalid), Lines.split_nil]

end Activate

/-- A queue that is read whole has its lines but for those of `ldconfig` when the cache was built, and all of them when
not. Activating a trigger adds its line unless the queue has it. -/
theorem queue_preserved (disk : Disk) (fuel : Nat) (root text : Text) (s : Store Text UInt8)
    (hqueue : s (queuePath root) = some text) (htext : text.length ≤ disk.drv.shown) :
    (∀ r, pkgTriggersProcess disk fuel root s = some r → .notRetired ∉ r.handled → Processed root text r) ∧
      ∀ trigger, Activated disk root text trigger s :=
  ⟨fun _ hrun hwritten => pkgTriggersProcess_queue hqueue htext hrun hwritten,
    fun _ => pkgTriggerActivateNoawait_queue hqueue htext⟩

/-- A driver that writes what it is given, on a target without libraries. -/
def bareDisk : Disk := ⟨smallBlocks, fun _ _ => true, fun _ _ => none⟩

/-- A target with this queue, on which `libc-bin` is installed and has asked for `ldconfig`. -/
def libcTarget (queue : Text) : Store Text UInt8 := fun p =>
  if p = queuePath (ascii "/mnt") then some queue
  else if p = triggersPath (ascii "/mnt") (ascii "ldconfig") then some (ascii "libc-bin\n")
  else if p = statusPath (ascii "/mnt") then some (ascii "Package: libc-bin\nStatus: install ok installed\n")
  else none

/-- Two lines are done and one is left. -/
theorem queue_preserved_libc : ∃ r,
    pkgTriggersProcess bareDisk 1 (ascii "/mnt") (libcTarget (ascii "ldconfig -\nman-db -\n ldconfig")) = some r ∧
      r.handled = [.retired, .unsupported (ascii "man-db"), .retired] ∧
      r.store (queuePath (ascii "/mnt")) = some (ascii "man-db -\n") := by
  have hqueue : libcTarget (ascii "ldconfig -\nman-db -\n ldconfig") (queuePath (ascii "/mnt")) =
      some (ascii "ldconfig -\nman-db -\n ldconfig") := if_pos rfl
  have hspec := queue_preserved bareDisk 1 (ascii "/mnt") _ _ hqueue (by decide +kernel)
  have hrun : (pkgTriggersProcess bareDisk 1 (ascii "/mnt") (libcTarget (ascii "ldconfig -\nman-db -\n ldconfig"))).map
      Run.handled = some [.retired, .unsupported (ascii "man-db"), .retired] := by decide +kernel
  obtain ⟨r, hr, hhandled⟩ := Option.map_eq_some_iff.mp hrun
  refine ⟨r, hr, hhandled, ?_⟩
  have hacted : r.Acted := Or.inl (by rw [hhandled]; exact List.mem_cons_self)
  rw [(hspec.1 r hr (by rw [hhandled]; decide +kernel)).acted hacted]
  decide +kernel

/-- A line that names a package that waits is not the line of the trigger, and a second one is added. -/
theorem activate_pending_adds_line : firstWord (ascii "ldconfig libc6") = ascii "ldconfig" ∧
    (pkgTriggerActivateNoawait bareDisk (ascii "/mnt") (ascii "ldconfig") (libcTarget (ascii "ldconfig libc6\n"))).2
      (queuePath (ascii "/mnt")) = some (ascii "ldconfig libc6\nldconfig -\n") := by
  constructor
  all_goals decide +kernel

end Guppy.Pkg.Triggers
