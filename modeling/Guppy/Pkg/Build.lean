import Guppy.Archive.ArRound
import Guppy.Archive.TarRound
import Guppy.Pkg.Control

set_option autoImplicit false

/-! # Packages from a directory and back

`gu_deb_build_ex` of `src/deb_build.c` packs the `DEBIAN` directory of a staging directory into one tar
archive and everything else into another, and the two archives into a package. `deb_open_fp`,
`open_member_tar` and `gu_tar_walk` lead from the package back to the files. A package that could be built
is read again as the directory that it was built from (`built_package_read`).
-/

namespace Guppy.Pkg.Build

open Vfs Archive

/-! ## The code -/

/-- A name of a directory entry. -/
structure FileName where
  text : Text
  noNul : 0 ∉ text
  noSlash : slash ∉ text
  nonempty : text ≠ []

/-- A directory as `readdir` and `stat` show it; what is neither a directory nor a regular file, or cannot be
read, is `other`. -/
inductive Items
  | nil
  | file (name : FileName) (src : List UInt8) (rest : Items)
  | dir (name : FileName) (sub rest : Items)
  | other (name : FileName) (rest : Items)

/-- `PACKAGE_PATH_MAX` -/
def packagePathMax : Nat := 4096

/-- What `pack_tree` leaves out: the two names of each directory, and `DEBIAN` at the top of the data. -/
def isSkipped (control : Bool) (relative name : Text) : Bool :=
  name = [dot] ∨ name = dotdot ∨ control = false ∧ relative = [] ∧ name = ascii "DEBIAN"

/-- The path of an entry in the archive. -/
def childOf (relative : CString) (name : FileName) : CString where
  text := if relative.text = [] then name.text else relative.text ++ slash :: name.text
  noNul := by
    split
    · exact name.noNul
    · rw [List.mem_append, List.mem_cons]
      exact fun h => h.elim relative.noNul (fun h => h.elim (by decide) name.noNul)

/-- The two calls of `join` for an entry: for its path in the archive, also where that is the name alone, and
for its path on the disk. -/
def childPath (root : Text) (relative : CString) (name : FileName) : Option CString :=
  if packagePathMax ≤ relative.text.length + 1 + name.text.length then none
  else if packagePathMax ≤ root.length + 1 + (childOf relative name).text.length then none
  else some (childOf relative name)

/-- The mode of a file: 0755 below `bin` and `usr/bin`, and 0644 elsewhere. -/
def fileMode (control : Bool) (child : Text) : Nat :=
  if control = false ∧ (ascii "bin/" <+: child ∨ ascii "usr/bin/" <+: child) then 493 else 420

/-- `pack_tree` -/
def packTree (control : Bool) (root : Text) : Items → CString → List UInt8 → Option (List UInt8)
  | .nil, _, out => some out
  | .file name src rest, relative, out =>
      if isSkipped control relative.text name.text = true then packTree control root rest relative out
      else
        (childPath root relative name).bind (fun child =>
          (guTarWriteFile out child.text src src.length (fileMode control child.text)).bind
            (packTree control root rest relative))
  | .dir name sub rest, relative, out =>
      if isSkipped control relative.text name.text = true then packTree control root rest relative out
      else
        (childPath root relative name).bind (fun child =>
          (guTarWriteDir out child.text 493).bind (fun out =>
            (packTree control root sub child out).bind (packTree control root rest relative)))
  | .other name rest, relative, out =>
      if isSkipped control relative.text name.text = true then packTree control root rest relative out else none

/-- The top of an archive. -/
def topPath : CString := ⟨[], List.not_mem_nil⟩

/-- The directory of a name. -/
def Items.findDir (want : Text) : Items → Option Items
  | .nil => none
  | .file name _ rest => if name.text = want then none else rest.findDir want
  | .dir name sub rest => if name.text = want then some sub else rest.findDir want
  | .other name rest => if name.text = want then none else rest.findDir want

/-- The bytes of the file of a name. -/
def Items.findFile (want : Text) : Items → Option (List UInt8)
  | .nil => none
  | .file name src rest => if name.text = want then some src else rest.findFile want
  | .dir name _ rest => if name.text = want then none else rest.findFile want
  | .other name rest => if name.text = want then none else rest.findFile want

/-- One of the two archives. -/
def packArchive (control : Bool) (root : Text) (items : Items) : Option (List UInt8) :=
  (packTree control root items topPath []).bind guTarWriteEnd

/-- `gu_deb_build_ex`; `encode` is `gu_xz_encode_file`. -/
def guDebBuildEx (encode : List UInt8 → Option (List UInt8)) (xz : Bool) (staging : Text) (items : Items) :
    Option (List UInt8) :=
  if packagePathMax ≤ staging.length + 15 then none
  else do
    let debian ← items.findDir (ascii "DEBIAN")
    let check ← debian.findFile (ascii "control")
    if check = [] then none
    else
      let control ← packArchive true (staging ++ ascii "/DEBIAN") debian
      let data ← packArchive false staging items
      if xz = true then
        let control ← encode control
        let data ← encode data
        Ar.guDebBuildEx true control data
      else Ar.guDebBuildEx false control data

/-- `open_member_tar`: the file with the archive, and where in it the archive starts and how long it is;
`decode` is `gu_xz_decode_member` on the bytes of the member. -/
def openMemberTar (decode : List UInt8 → Option (List UInt8)) (deb : List UInt8) (m : Ar.DebMember) (stem : Text) :
    Option (List UInt8 × Nat × Nat) :=
  if m.name = stem ++ ascii ".tar" then some (deb, m.offset, m.size)
  else if m.name = stem ++ ascii ".tar.xz" then
    ((fread deb m.offset m.size).bind decode).map (fun tar => (tar, 0, tar.length))
  else none

/-- What is said of an entry, and the bytes of its file. -/
structure Listed where
  path : Text
  type : UInt8
  mode : Nat
  bytes : List UInt8
  deriving DecidableEq

/-- Walk over an archive of a package, reading the bytes of each entry from its offset. -/
def readMember (decode : List UInt8 → Option (List UInt8)) (deb : List UInt8) (m : Ar.DebMember) (stem : Text) :
    Option (List Listed) :=
  (openMemberTar decode deb m stem).bind (fun tar =>
    let walk := guTarWalk tar.1 tar.2.1 tar.2.2 collect []
    if walk.1 ≠ 0 then none
    else some (walk.2.map (fun e => ⟨e.path, e.type, e.mode, (tar.1.drop e.dataOffset).take e.size⟩)))

/-! ## The directory as it is to be read -/

/-- The entries of a directory: a directory comes before what it contains. -/
def listing (control : Bool) : Items → CString → List Listed
  | .nil, _ => []
  | .file name src rest, relative =>
      (if isSkipped control relative.text name.text = true then []
        else [⟨(childOf relative name).text, 48, fileMode control (childOf relative name).text, src⟩]) ++
      listing control rest relative
  | .dir name sub rest, relative =>
      (if isSkipped control relative.text name.text = true then []
        else ⟨(childOf relative name).text ++ [slash], 53, 493, []⟩ :: listing control sub (childOf relative name)) ++
      listing control rest relative
  | .other _ rest, relative => listing control rest relative

/-- No file is so large that the walk would mistake where the next entry starts. -/
def Items.Small : Items → Prop
  | .nil => True
  | .file _ src rest => src.length + 511 < 4294967296 ∧ rest.Small
  | .dir _ sub rest => sub.Small ∧ rest.Small
  | .other _ rest => rest.Small

/-- The calls of the writers. -/
def entries (control : Bool) : Items → CString → List Archive.Entry
  | .nil, _ => []
  | .file name src rest, relative =>
      (if isSkipped control relative.text name.text = true then []
        else [.file (childOf relative name) src src.length (fileMode control (childOf relative name).text)]) ++
      entries control rest relative
  | .dir name sub rest, relative =>
      (if isSkipped control relative.text name.text = true then []
        else .dir (childOf relative name) 493 :: entries control sub (childOf relative name)) ++
      entries control rest relative
  | .other _ rest, relative => entries control rest relative

/-! ## Writing -/

/-- Write some entries. -/
def writeEntries : List UInt8 → List Archive.Entry → Option (List UInt8)
  | out, [] => some out
  | out, e :: es => (writeEntry out e).bind (fun out => writeEntries out es)

theorem writeEntries_append (es fs : List Archive.Entry) : ∀ out : List UInt8,
    writeEntries out (es ++ fs) = (writeEntries out es).bind (fun out => writeEntries out fs) := by
  induction es with
  | nil => exact fun _ => rfl
  | cons e es ih =>
      intro out
      rw [List.cons_append, writeEntries, writeEntries, Option.bind_assoc]
      exact congrArg _ (funext ih)

theorem writeArchive_eq (es : List Archive.Entry) : ∀ out : List UInt8,
    writeArchive out es = (writeEntries out es).bind guTarWriteEnd := by
  induction es with
  | nil =>
      intro out
      rw [writeArchive, writeEntries, Option.bind_some]
  | cons e es ih =>
      intro out
      rw [writeArchive, writeEntries, Option.bind_assoc]
      cases writeEntry out e with
      | none => rfl
      | some out' => exact ih out'

theorem childPath_eq_some {root : Text} {relative child : CString} {name : FileName}
    (h : childPath root relative name = some child) : child = childOf relative name := by
  unfold childPath at h
  split at h
  · cases h
  · split at h
    · cases h
    · exact (Option.some.inj h).symm

/-- What is packed are the entries of the directory, in their order. -/
theorem packTree_writes {control : Bool} {root : Text} (items : Items) : ∀ {relative : CString} {out file : List UInt8},
    packTree control root items relative out = some file →
      writeEntries out (entries control items relative) = some file := by
  induction items with
  | nil => exact fun h => h
  | file name src rest ih =>
      intro relative out file h
      rw [packTree] at h
      rw [entries]
      split at h
      · rename_i hskip
        rw [if_pos hskip]
        exact ih h
      · rename_i hkeep
        rw [if_neg hkeep]
        obtain ⟨child, hchild, hpack⟩ := Option.bind_eq_some_iff.mp h
        obtain ⟨out', hwrite, hrest⟩ := Option.bind_eq_some_iff.mp hpack
        obtain rfl := childPath_eq_some hchild
        rw [List.singleton_append, writeEntries]
        exact Option.bind_eq_some_iff.mpr ⟨out', hwrite, ih hrest⟩
  | dir name sub rest ihsub ih =>
      intro relative out file h
      rw [packTree] at h
      rw [entries]
      split at h
      · rename_i hskip
        rw [if_pos hskip]
        exact ih h
      · rename_i hkeep
        rw [if_neg hkeep]
        obtain ⟨child, hchild, hpack⟩ := Option.bind_eq_some_iff.mp h
        obtain ⟨out', hwrite, hin⟩ := Option.bind_eq_some_iff.mp hpack
        obtain ⟨out'', hsub, hrest⟩ := Option.bind_eq_some_iff.mp hin
        obtain rfl := childPath_eq_some hchild
        rw [List.cons_append, writeEntries]
        refine Option.bind_eq_some_iff.mpr ⟨out', hwrite, ?_⟩
        rw [writeEntries_append]
        exact Option.bind_eq_some_iff.mpr ⟨out'', ihsub hsub, ih hrest⟩
  | other name rest ih =>
      intro relative out file h
      rw [packTree] at h
      rw [entries]
      split at h
      · exact ih h
      · cases h

theorem packArchive_writes {control : Bool} {root : Text} {items : Items} {file : List UInt8}
    (h : packArchive control root items = some file) : writeArchive [] (entries control items topPath) = some file := by
  obtain ⟨out, hpack, hend⟩ := Option.bind_eq_some_iff.mp h
  rw [writeArchive_eq]
  exact Option.bind_eq_some_iff.mpr ⟨out, packTree_writes items hpack, hend⟩

/-! ## Reading -/

section Placed

variable {pre out file : List UInt8}

theorem fwrite_at {data : List UInt8} (h : fwrite out data = some file) (hmax : pre.length + file.length ≤ longMax) :
    fwrite (pre ++ out) data = some (pre ++ file) := by
  obtain ⟨-, rfl⟩ := fwrite_eq_some.mp h
  rw [List.length_append] at hmax
  exact fwrite_eq_some.mpr ⟨by rw [List.length_append]; omega, (List.append_assoc ..).symm⟩

/-- The writers only append, so that what stands before makes no difference. -/
theorem writeEntry_at {e : Archive.Entry} (h : writeEntry out e = some file) (hmax : pre.length + file.length ≤ longMax) :
    writeEntry (pre ++ out) e = some (pre ++ file) := by
  cases e with
  | dir path mode =>
      simp only [writeEntry, guTarWriteDir] at h ⊢
      split at h
      · cases h
      · rename_i hlen
        rw [if_neg hlen]
        obtain ⟨block, hblock, hwrite⟩ := Option.bind_eq_some_iff.mp h
        exact Option.bind_eq_some_iff.mpr ⟨block, hblock, fwrite_at hwrite hmax⟩
  | file path src size mode =>
      simp only [writeEntry, guTarWriteFile, Option.bind_eq_bind, Option.bind_eq_some_iff] at h ⊢
      obtain ⟨block, hblock, out₁, hwrite₁, out₂, hcopy, hwrite₂⟩ := h
      obtain ⟨hroom, hout₂⟩ := (copyLoop_eq_some size).mp hcopy
      obtain ⟨-, hfile⟩ := fwrite_eq_some.mp hwrite₂
      have hlen₂ : out₂.length ≤ file.length := by rw [hfile, List.length_append]; omega
      have hlen₁ : out₁.length ≤ out₂.length := by rw [hout₂, List.length_append]; omega
      have htake : ((src.drop 0).take size).length = min size src.length := by
        rw [List.length_take, List.drop_zero]
      refine ⟨block, hblock, pre ++ out₁, fwrite_at hwrite₁ (by omega), pre ++ out₂, ?_, fwrite_at hwrite₂ hmax⟩
      refine (copyLoop_eq_some size).mpr ⟨hroom.imp_right (fun hroom => ⟨hroom.1, ?_⟩), ?_⟩
      · have := congrArg List.length hout₂
        rw [List.length_append] at this ⊢
        omega
      · rw [hout₂, List.append_assoc]

theorem writeArchive_at {es : List Archive.Entry} : ∀ {out file : List UInt8}, writeArchive out es = some file →
    pre.length + file.length ≤ longMax → writeArchive (pre ++ out) es = some (pre ++ file) := by
  induction es with
  | nil =>
      intro out file h hmax
      rw [writeArchive, guTarWriteEnd] at h ⊢
      exact fwrite_at h hmax
  | cons e es ih =>
      intro out file h hmax
      rw [writeArchive] at h ⊢
      cases hentry : writeEntry out e with
      | none =>
          rw [hentry] at h
          cases h
      | some out' =>
          rw [hentry] at h
          obtain ⟨-, tail, htail⟩ := writeArchive_eq_some h
          have hle : out'.length ≤ file.length := by rw [htail, List.length_append]; omega
          rw [writeEntry_at hentry (by omega)]
          exact ih h hmax

end Placed

/-- What a call of a writer says of its entry. -/
def listed (e : Archive.Entry) : Listed := ⟨e.name, e.type, e.mode % 4096, e.payload⟩

/-- At the offset of each entry are its bytes. -/
theorem described_listed {es : List Archive.Entry} (rest : List UInt8) : ∀ {out file : List UInt8},
    writeArchive out es = some file → (describedFrom out.length es).map (fun e =>
      (⟨e.path, e.type, e.mode, ((file ++ rest).drop e.dataOffset).take e.size⟩ : Listed)) = es.map listed := by
  induction es with
  | nil => exact fun _ => rfl
  | cons e es ih =>
      intro out file h
      rw [writeArchive] at h
      cases hentry : writeEntry out e with
      | none =>
          rw [hentry] at h
          cases h
      | some out' =>
          rw [hentry] at h
          obtain ⟨-, block, hblock, hout'⟩ := writeEntry_eq_some hentry
          obtain ⟨-, tail, htail⟩ := writeArchive_eq_some h
          have hblen := (hblock 0).1
          have hsize : e.payload.length = e.size := rfl
          have hround := le_roundUp e.size
          have hlen : out'.length = out.length + 512 + roundUp e.size := by
            rw [hout']
            simp only [List.length_append, List.length_replicate, hblen]
            omega
          have hbytes : ((file ++ rest).drop (out.length + 512)).take e.size = e.payload := by
            rw [htail, hout']
            simp only [List.append_assoc]
            rw [← List.append_assoc out, List.drop_left' (by rw [List.length_append, hblen]), List.take_left' hsize]
          have htl := ih h
          rw [hlen] at htl
          rw [describedFrom, List.map_cons, List.map_cons, htl]
          exact congrArg (· :: es.map listed) (congrArg (Listed.mk e.name e.type (e.mode % 4096)) hbytes)

theorem dirName_childOf (relative : CString) (name : FileName) :
    dirName (childOf relative name).text = (childOf relative name).text ++ [slash] := by
  have hlast : ∀ t : Text, (t ++ name.text).getLast? ≠ some slash := by
    intro t h
    obtain ⟨u, c, hc⟩ : ∃ u c, name.text = u ++ [c] :=
      ⟨_, _, (List.dropLast_concat_getLast name.nonempty).symm⟩
    rw [hc, ← List.append_assoc, List.getLast?_concat] at h
    obtain rfl := Option.some.inj h
    exact name.noSlash (hc ▸ List.mem_append_right _ (List.mem_singleton_self _))
  refine if_neg ?_
  unfold childOf
  dsimp only []
  split
  · exact hlast []
  · rw [List.append_cons]
    exact hlast _

theorem fileMode_lt (control : Bool) (child : Text) : fileMode control child % 4096 = fileMode control child := by
  unfold fileMode
  split
  · rfl
  · rfl

/-- The calls of the writers say what the directory contains. -/
theorem entries_listed (control : Bool) (items : Items) : ∀ relative : CString,
    (entries control items relative).map listed = listing control items relative := by
  induction items with
  | nil => exact fun _ => rfl
  | file name src rest ih =>
      intro relative
      rw [entries, listing, List.map_append, ih]
      split
      · rfl
      · rw [List.map_singleton]
        unfold listed Entry.payload Entry.mode
        dsimp only []
        rw [fileMode_lt, List.take_length]
        rfl
  | dir name sub rest ihsub ih =>
      intro relative
      rw [entries, listing, List.map_append, ih]
      split
      · rfl
      · rw [List.map_cons, ihsub]
        unfold listed Entry.name
        dsimp only []
        rw [dirName_childOf]
        rfl
  | other name rest ih => exact ih

theorem sound_of_small {es : List Archive.Entry} (h : ∀ e ∈ es, e.Small) : Sound es := by
  induction es with
  | nil => trivial
  | cons e es ih =>
      exact Or.inl ⟨h e (List.mem_cons_self ..), ih (fun e he => h e (List.mem_cons_of_mem _ he))⟩

theorem entries_small {control : Bool} {items : Items} : ∀ {relative : CString}, items.Small →
    ∀ e ∈ entries control items relative, e.Small := by
  induction items with
  | nil => exact fun _ e he => absurd he List.not_mem_nil
  | file name src rest ih =>
      intro relative h e he
      rw [entries] at he
      rcases List.mem_append.mp he with he | he
      · split at he
        · cases he
        · rw [List.mem_singleton.mp he]
          show (src.take src.length).length + 511 < 4294967296
          rw [List.take_length]
          exact h.1
      · exact ih h.2 e he
  | dir name sub rest ihsub ih =>
      intro relative h e he
      rw [entries] at he
      rcases List.mem_append.mp he with he | he
      · split at he
        · cases he
        · rcases List.mem_cons.mp he with rfl | he
          · show ([] : List UInt8).length + 511 < 4294967296
            decide
          · exact ihsub h.1 e he
      · exact ih h.2 e he
  | other name rest ih => exact fun h => ih h

/-! ## Packages -/

section Package

variable {encode decode : List UInt8 → Option (List UInt8)} {file : List UInt8}

theorem suffix_noNul (xz : Bool) : 0 ∉ Ar.controlTar ++ Ar.suffix xz ∧ 0 ∉ Ar.dataTar ++ Ar.suffix xz := by
  cases xz <;> decide

/-- The three members of a package. -/
def packageMembers (xz : Bool) (control data : List UInt8) : List Ar.Member :=
  [⟨⟨Ar.debianBinary, by decide⟩, [50, 46, 48, 10]⟩, ⟨⟨Ar.controlTar ++ Ar.suffix xz, (suffix_noNul xz).1⟩, control⟩,
    ⟨⟨Ar.dataTar ++ Ar.suffix xz, (suffix_noNul xz).2⟩, data⟩]

/-- A package that was written is opened, and its two archives are found. -/
theorem debOpenFp_written {xz : Bool} {control data : List UInt8} (h : Ar.guDebBuildEx xz control data = some file) :
    file.length ≤ longMax ∧ ∃ oc od, (∀ fuel, 4 ≤ fuel → Ar.debOpenFp fuel file = some (.ok ⟨[50, 46, 48],
        ⟨Ar.controlTar ++ Ar.suffix xz, oc, control.length⟩, ⟨Ar.dataTar ++ Ar.suffix xz, od, data.length⟩⟩)) ∧
      (file.drop oc).take control.length = control ∧ (file.drop od).take data.length = data := by
  unfold Ar.guDebBuildEx at h
  obtain ⟨magic, hmagic, h⟩ := Option.bind_eq_some_iff.mp h
  have hwrite : Ar.writeMembers magic (packageMembers xz control data) = some file := by
    obtain ⟨out₁, h₁, h⟩ := Option.bind_eq_some_iff.mp h
    obtain ⟨out₂, h₂, h₃⟩ := Option.bind_eq_some_iff.mp h
    refine Option.bind_eq_some_iff.mpr ⟨out₁, h₁, Option.bind_eq_some_iff.mpr ⟨out₂, h₂, ?_⟩⟩
    exact Option.bind_eq_some_iff.mpr ⟨file, h₃, rfl⟩
  have hmax := Ar.writeMembers_le (List.cons_ne_nil _ _) hwrite
  obtain ⟨tail, htail⟩ := Ar.writeMembers_extends hwrite
  obtain ⟨hwalk, hbytes⟩ := Ar.writeMembers_walk hwrite hmax
  have hmagic : magic = [33, 60, 97, 114, 99, 104, 62, 10] := (fwrite_eq_some.mp hmagic).2
  have hlen : magic.length = 8 := by rw [hmagic]; rfl
  rw [hlen] at hwalk hbytes
  unfold packageMembers at hwalk hbytes
  simp only [Ar.membersFrom, List.map_cons, List.map_nil, List.cons.injEq, Prod.mk.injEq, true_and, and_true] at hwalk hbytes
  obtain ⟨hversion, hcontrol, hdata⟩ := hbytes
  refine ⟨hmax, _, _, fun fuel hfuel => ?_, hcontrol, hdata⟩
  have hstart : fread file 0 8 = some magic := by
    rw [htail]
    exact fread_append (a := []) (b := magic) rfl hlen
  have hread : fread file (8 + 60) 4 = some [50, 46, 48, 10] := by
    have hroom : 8 + 60 + 4 ≤ file.length := by
      have := congrArg List.length hversion
      rw [List.length_take, List.length_drop, List.length_cons, List.length_cons, List.length_cons, List.length_cons,
        List.length_nil] at this
      omega
    unfold fread
    rw [if_pos hroom]
    exact congrArg some hversion
  have hnote : Ar.note file ⟨[], ⟨[], 0, 0⟩, ⟨[], 0, 0⟩⟩ ⟨Ar.debianBinary, 8 + 60, ([50, 46, 48, 10] : List UInt8).length⟩ =
      ⟨[50, 46, 48], ⟨[], 0, 0⟩, ⟨[], 0, 0⟩⟩ := by
    unfold Ar.note Ar.noteMember
    rw [if_pos rfl]
    dsimp only []
    rw [if_neg (by decide), show (if ([50, 46, 48, 10] : List UInt8).length < 31 then ([50, 46, 48, 10] : List UInt8).length
      else 31) = 4 from rfl, hread]
    exact congrArg (fun v => (⟨v, ⟨[], 0, 0⟩, ⟨[], 0, 0⟩⟩ : Ar.DebPackage)) (by decide)
  unfold Ar.debOpenFp
  rw [hstart]
  dsimp only []
  rw [if_neg (not_not.mpr hmagic), Ar.openLoop_of_walk hwalk (lt_of_lt_of_le (Nat.lt_succ_self 3) hfuel),
    List.foldl_cons, hnote, List.foldl_cons, List.foldl_cons, List.foldl_nil]
  unfold Ar.note
  dsimp only []
  rw [Ar.noteMember_control, Ar.noteMember_data]
  unfold Ar.accepted
  rw [if_pos]
  exact ⟨List.cons_ne_nil _ _, List.cons_ne_nil _ _, List.cons_ne_nil _ _⟩

/-- An archive of a directory, in a file at an offset, is walked over as the directory. -/
theorem packArchive_walked {control : Bool} {root : Text} {items : Items} {tar pre rest : List UInt8}
    (h : packArchive control root items = some tar) (hsmall : items.Small) (hmax : pre.length + tar.length ≤ longMax) :
    ∃ es, guTarWalk (pre ++ tar ++ rest) pre.length tar.length collect [] = (0, es) ∧
      es.map (fun e => (⟨e.path, e.type, e.mode, ((pre ++ tar ++ rest).drop e.dataOffset).take e.size⟩ : Listed)) =
        listing control items topPath := by
  have hwrite := writeArchive_at (packArchive_writes h) hmax
  rw [List.append_nil] at hwrite
  have hlen : (pre ++ tar).length - pre.length = tar.length := by rw [List.length_append, Nat.add_sub_cancel_left]
  have hle : pre.length ≤ (pre ++ tar).length := by rw [List.length_append]; omega
  have hwalk := guTarWalk_eq hwrite rest
  rw [(walkLoop_written _ hwrite rfl (by omega) (by omega)).mpr (sound_of_small (entries_small hsmall)), hlen,
    List.nil_append] at hwalk
  refine ⟨_, hwalk, ?_⟩
  rw [described_listed rest hwrite, entries_listed]

theorem packArchive_ne_nil {control : Bool} {root : Text} {items : Items} {tar : List UInt8}
    (h : packArchive control root items = some tar) : tar ≠ [] := by
  obtain ⟨out, -, hend⟩ := Option.bind_eq_some_iff.mp h
  rw [guTarWriteEnd] at hend
  obtain ⟨-, htar⟩ := fwrite_eq_some.mp hend
  intro hnil
  have hlen := congrArg List.length htar
  rw [hnil, List.length_append, List.length_replicate] at hlen
  have : tarBlockSize * 2 = 1024 := rfl
  rw [List.length_nil] at hlen
  omega

/-- What the decoder has to do with what the encoder has done. -/
def Inverse (encode decode : List UInt8 → Option (List UInt8)) : Prop :=
  ∀ a b, encode a = some b → b ≠ [] ∧ decode b = some a

/-- The archive of a directory is read from the member that it was written to. -/
theorem readMember_written {control xz : Bool} {root stem name : Text} {items : Items} {tar bytes : List UInt8} {off : Nat}
    (h : packArchive control root items = some tar) (hsmall : items.Small)
    (hbytes : if xz = true then encode tar = some bytes else bytes = tar) (hcodec : Inverse encode decode)
    (hmax : file.length ≤ longMax) (hoff : (file.drop off).take bytes.length = bytes)
    (hname : name = stem ++ ascii ".tar" ++ Ar.suffix xz) :
    readMember decode file ⟨name, off, bytes.length⟩ stem = some (listing control items topPath) := by
  have hne : bytes ≠ [] := by
    by_cases hxz : xz = true
    · rw [if_pos hxz] at hbytes
      exact (hcodec tar bytes hbytes).1
    · rw [if_neg hxz] at hbytes
      exact hbytes ▸ packArchive_ne_nil h
  have hfit : off + bytes.length ≤ file.length := by
    have hlen := congrArg List.length hoff
    have hpos := List.length_pos_iff.mpr hne
    rw [List.length_take, List.length_drop] at hlen
    omega
  unfold readMember openMemberTar
  cases xz with
  | false =>
      rw [if_neg Bool.false_ne_true] at hbytes
      subst hbytes
      have hpre : (file.take off).length = off := by
        rw [List.length_take]
        omega
      have hfile : file.take off ++ bytes ++ file.drop (off + bytes.length) = file := by
        rw [← hoff, List.append_assoc, List.length_take, List.length_drop, Nat.min_eq_left (by omega),
          ← List.drop_drop, List.take_append_drop, List.take_append_drop]
      obtain ⟨es, hwalk, hes⟩ := @packArchive_walked control root items bytes (file.take off)
        (file.drop (off + bytes.length)) h hsmall (by omega)
      rw [hfile, hpre] at hwalk
      rw [hfile] at hes
      rw [if_pos (hname.trans (List.append_nil _)), Option.bind_some]
      dsimp only []
      rw [hwalk, if_neg (not_not.mpr rfl), hes]
  | true =>
      rw [if_pos rfl] at hbytes
      have hraw : name ≠ stem ++ ascii ".tar" := by
        intro heq
        have := congrArg List.length (heq.symm.trans hname)
        rw [@List.length_append _ (stem ++ ascii ".tar")] at this
        have hsuffix : (Ar.suffix true).length = 3 := rfl
        omega
      have hxz : name = stem ++ ascii ".tar.xz" := by
        rw [hname, List.append_assoc]
        exact congrArg (stem ++ ·) (by decide)
      have hread : fread file off bytes.length = some bytes := by
        unfold fread
        rw [if_pos hfit, hoff]
      obtain ⟨es, hwalk, hes⟩ := @packArchive_walked control root items tar [] [] h hsmall (by
        rw [List.length_nil, Nat.zero_add]
        exact (writeArchive_eq_some (packArchive_writes h)).1)
      rw [List.nil_append, List.append_nil, List.length_nil] at hwalk
      rw [List.nil_append, List.append_nil] at hes
      rw [if_neg hraw, if_pos hxz, hread, Option.bind_some, (hcodec tar bytes hbytes).2, Option.map_some,
        Option.bind_some]
      dsimp only []
      rw [hwalk, if_neg (not_not.mpr rfl), hes]

theorem findDir_small {want : Text} {items sub : Items} (h : items.findDir want = some sub) (hsmall : items.Small) :
    sub.Small := by
  induction items with
  | nil => cases h
  | file name src rest ih =>
      rw [Items.findDir] at h
      split at h
      · cases h
      · exact ih h hsmall.2
  | dir name inner rest _ ih =>
      rw [Items.findDir] at h
      split at h
      · exact Option.some.inj h ▸ hsmall.1
      · exact ih h hsmall.2
  | other name rest ih =>
      rw [Items.findDir] at h
      split at h
      · cases h
      · exact ih h hsmall

/-- A package that is built from a staging directory is opened again. Its control archive is read as the
`DEBIAN` directory and its data archive as everything else, with the paths, types, modes and bytes. -/
theorem built_package_read {xz : Bool} {staging : Text} {items : Items} (hcodec : Inverse encode decode)
    (h : guDebBuildEx encode xz staging items = some file) (hsmall : items.Small) {fuel : Nat} (hfuel : 4 ≤ fuel) :
    ∃ pkg debian, Ar.debOpenFp fuel file = some (.ok pkg) ∧ items.findDir (ascii "DEBIAN") = some debian ∧
      readMember decode file pkg.control (ascii "control") = some (listing true debian topPath) ∧
      readMember decode file pkg.data (ascii "data") = some (listing false items topPath) := by
  unfold guDebBuildEx at h
  split at h
  · cases h
  obtain ⟨debian, hdebian, h⟩ := Option.bind_eq_some_iff.mp h
  obtain ⟨check, -, h⟩ := Option.bind_eq_some_iff.mp h
  split at h
  · cases h
  obtain ⟨control, hcontrol, h⟩ := Option.bind_eq_some_iff.mp h
  obtain ⟨data, hdata, h⟩ := Option.bind_eq_some_iff.mp h
  obtain ⟨control', data', hcontrol', hdata', hbuild⟩ : ∃ control' data',
      (if xz = true then encode control = some control' else control' = control) ∧
      (if xz = true then encode data = some data' else data' = data) ∧
      Ar.guDebBuildEx xz control' data' = some file := by
    cases xz with
    | false => exact ⟨control, data, rfl, rfl, h⟩
    | true =>
        obtain ⟨control', hcontrol', h⟩ := Option.bind_eq_some_iff.mp h
        obtain ⟨data', hdata', h⟩ := Option.bind_eq_some_iff.mp h
        exact ⟨control', data', hcontrol', hdata', h⟩
  obtain ⟨hmax, oc, od, hopen, hoc, hod⟩ := debOpenFp_written hbuild
  refine ⟨_, debian, hopen fuel hfuel, hdebian, ?_, ?_⟩
  · exact readMember_written hcontrol (findDir_small hdebian hsmall) hcontrol' hcodec hmax hoc
      (congrArg (· ++ Ar.suffix xz) (by decide))
  · exact readMember_written hdata hsmall hdata' hcodec hmax hod (congrArg (· ++ Ar.suffix xz) (by decide))

/-- A staging directory with a control file of one byte, and with a file of three bytes in a directory. -/
def tinyStaging : Items :=
  .dir ⟨[dot], by decide, by decide, by decide⟩ .nil
    (.dir ⟨ascii "DEBIAN", by decide, by decide, by decide⟩
      (.file ⟨ascii "control", by decide, by decide, by decide⟩ [80] .nil)
      (.dir ⟨ascii "bin", by decide, by decide, by decide⟩
        (.file ⟨ascii "a", by decide, by decide, by decide⟩ [1, 2, 3] .nil) .nil))

theorem built_package_read_tiny : ∃ file pkg, guDebBuildEx (fun _ => none) false (ascii "s") tinyStaging = some file ∧
    Ar.debOpenFp 4 file = some (.ok pkg) ∧
    readMember (fun _ => none) file pkg.control (ascii "control") = some [⟨ascii "control", 48, 420, [80]⟩] ∧
    readMember (fun _ => none) file pkg.data (ascii "data") =
      some [⟨ascii "bin/", 53, 493, []⟩, ⟨ascii "bin/a", 48, 493, [1, 2, 3]⟩] := by
  have hsome : (guDebBuildEx (fun _ => none) false (ascii "s") tinyStaging).isSome = true := by decide +kernel
  obtain ⟨file, hfile⟩ := Option.isSome_iff_exists.mp hsome
  have hsmall : tinyStaging.Small := ⟨trivial, ⟨by decide, trivial⟩, ⟨by decide, trivial⟩, trivial⟩
  have hcodec : Inverse (fun _ => none) (fun _ => none) := fun a b h => absurd h (by simp)
  obtain ⟨pkg, debian, hopen, hdebian, hcontrol, hdata⟩ := built_package_read hcodec hfile hsmall le_rfl
  have hsub : debian = .file ⟨ascii "control", by decide, by decide, by decide⟩ [80] .nil := by
    rw [tinyStaging, Items.findDir, if_neg (by decide), Items.findDir, if_pos rfl] at hdebian
    exact (Option.some.inj hdebian).symm
  rw [hsub] at hcontrol
  exact ⟨file, pkg, hfile, hopen, hcontrol.trans (by decide +kernel), hdata.trans (by decide +kernel)⟩

end Package

end Guppy.Pkg.Build
