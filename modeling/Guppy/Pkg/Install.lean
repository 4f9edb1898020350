import Guppy.Vfs.Contain
import Guppy.Pkg.Filter

set_option autoImplicit false

/-! # Unpacking an archive

`install_cb` of `src/cmd_pkg.c` puts one archive member below the install root: it makes the
parent directories, then the directory, the link or the file itself, all through the VFS.
The model keeps the tree and, in order, the locations of the objects that were created or
overwritten.

What the ext2 driver does with a request depends on things the tree does not show, such as
free blocks. A request may be carried out, refused, or carried out with an error all the
same; `outcome` decides, and nothing is assumed about it.
-/

namespace Guppy.Pkg

open Vfs Prog

/-! ## The VFS calls of the installer -/

/-- The tree and the locations that were created or overwritten. -/
structure World where
  tree : Tree
  touched : List Loc

inductive Outcome
  | done
  | refused
  | half
  deriving DecidableEq

section Calls

variable (outcome : Tree → Loc → Outcome) (cwd : Text)

/-- Ask the driver to change the object at a location. -/
def change (loc : Loc) (node : Option Node) : Prog World Unit := do
  let w ← get
  match outcome w.tree loc with
  | .refused => throw (-1)
  | .done => set (World.mk (setNode w.tree loc node) (w.touched ++ [loc]))
  | .half => do
      set (World.mk (setNode w.tree loc node) (w.touched ++ [loc]))
      throw (-1)

/-- Ask the driver for a new link. Its directory record is the last thing `ext2_symlink_at`
writes, so a request that fails has made no link. -/
def changeLink (loc : Loc) (target : Text) : Prog World Unit := do
  let w ← get
  failIf (outcome w.tree loc ≠ .done) (-1)
  set (World.mk (setNode w.tree loc (some (.symlink target))) (w.touched ++ [loc]))

def resolve (path : Text) (followFinal : Bool) : Prog World PathRes := do
  let w ← get
  match vfsResolvePathEx w.tree cwd path followFinal with
  | none => throw (-1)
  | some r => pure r

/-- `vfs_mkdir`; the driver is content with a directory that exists. -/
def vfsMkdir (path : Text) : Prog World Unit := do
  let r ← resolve cwd path true
  let w ← get
  failIf (w.tree.node r.dir ≠ some .dir ∨ r.leaf = []) (-1)
  match r.node with
  | some .dir => pure ()
  | some _ => throw (-1)
  | none => change outcome r.loc (some .dir)

/-- `vfs_stat`: the object at a path. -/
def vfsStat (t : Tree) (path : Text) : Option Node :=
  (vfsResolvePathEx t cwd path true).bind PathRes.node

/-- `vfs_mkdir(path) != 0 && vfs_stat(path) != 0` as a failure. -/
def mkdirOrStat (path : Text) : Prog World Unit :=
  orRun (vfsMkdir outcome cwd path) (do
    let w ← get
    failIf (vfsStat cwd w.tree path = none) 1)

/-- `vfs_symlink`; the driver stores targets of at most 60 bytes. -/
def vfsSymlink (target path : Text) : Prog World Unit := do
  failIf (target = []) (-1)
  let r ← resolve cwd path false
  let w ← get
  failIf (r.node ≠ none ∨ w.tree.node r.dir ≠ some .dir ∨ r.leaf = [] ∨ 60 < target.length) (-1)
  changeLink outcome r.loc target

/-- `vfs_readlink`: the target of the link at a path, when it is not empty. -/
def vfsReadlink (t : Tree) (path : Text) : Option Text :=
  ((vfsResolvePathEx t cwd path false).bind (fun r => r.node.bind readlink)).filter (· ≠ [])

def vfsUnlink (path : Text) : Prog World Unit := do
  let r ← resolve cwd path false
  let w ← get
  failIf (r.node = none ∨ r.node = some .dir ∨ w.tree.node r.dir ≠ some .dir ∨ r.leaf = []) (-1)
  change outcome r.loc none

/-- An open file: where it is, and whether `i_create` made it up for this open. -/
structure Handle where
  dir : Loc
  loc : Loc
  isNew : Bool

/-- `vfs_open` for writing, with creation and truncation. -/
def vfsOpen (path : Text) : Prog World Handle := do
  let r ← resolve cwd path true
  match r.node with
  | none => do
      failIf (r.leaf = []) (-1)
      pure ⟨r.dir, r.loc, true⟩
  | some .dir => throw (-1)
  | some (.reg _) => do
      ignore (change outcome r.loc (some (.reg [])))
      pure ⟨r.dir, r.loc, false⟩
  | some _ => pure ⟨r.dir, r.loc, false⟩

/-- `vfs_close`: the bytes that were written to the handle reach the driver. -/
def vfsClose (h : Handle) (data : List UInt8) : Prog World Unit := do
  let w ← get
  if h.isNew then do
    failIf (w.tree.node h.dir ≠ some .dir ∨ w.tree.node h.loc ≠ none) (-1)
    change outcome h.loc (some (.reg data))
  else if data = [] then pure ()
  else
    match w.tree.node h.loc with
    | some (.reg _) => change outcome h.loc (some (.reg data))
    | some .device => change outcome h.loc (some .device)
    | _ => throw (-1)

/-- `vfs_chmod`: the object stays what it is. -/
def vfsChmod (path : Text) : Prog World Unit := do
  let r ← resolve cwd path true
  match r.node with
  | none => throw (-1)
  | some node => change outcome r.loc (some node)

/-- The prefixes of a path that end before a slash. -/
def parents (path : Text) : List Text :=
  ((List.range path.length).filter (fun i => 1 ≤ i ∧ path[i]? = some slash)).map (path.take ·)

/-- `mkparents`. -/
def mkparents (path : Text) : Prog World Unit := do
  failIf (1024 ≤ path.length) (-1)
  forEach (mkdirOrStat outcome cwd) (parents path)

end Calls

/-! ## Members -/

inductive Kind
  | dir
  | symlink (target : Text)
  | file (data : List UInt8) (seekable complete : Bool)
  | other

/-- A member as `gu_tar_walk` reads it: its path is made of a name of at most 100 bytes and
a prefix of at most 155. For a file, `data` is what can be read of it; the archive may be
too short to seek to it or to read it to its end. -/
structure Member where
  pre : Text
  name : Text
  pre_le : pre.length ≤ 155
  name_le : name.length ≤ 100
  kind : Kind

def Member.path (m : Member) : Text := if m.pre = [] then m.name else m.pre ++ slash :: m.name

section Install

/-- What the dash handoff reads from the package database: whether the shell is diverted,
and whether another package owns it. -/
structure Database where
  diverted : Tree → Bool
  claimed : Tree → Bool

variable (outcome : Tree → Loc → Outcome) (cwd : Text) (db : Database) (package root : Text)

def dash : Text := [100, 97, 115, 104]

def usrBinSh : Text := [117, 115, 114, 47, 98, 105, 110, 47, 115, 104]

/-- `dash_bootstrap_sh_handoff`: 0 when it does not apply, 1 when it is done. -/
def dashBootstrapShHandoff (rel dst target : Text) : Prog World Int := do
  if package ≠ dash ∨ rel ≠ usrBinSh ∨ target ≠ dash then pure 0
  else do
    let w ← get
    let got := vfsReadlink cwd w.tree dst
    let st := vfsStat cwd w.tree dst
    if got = some target then pure 1
    else if st = none ∧ got = none then pure 0
    else do
      failIf (got = none ∧ st = some .dir) 1
      failIf (db.diverted w.tree = true ∨ db.claimed w.tree = true) 1
      vfsUnlink outcome cwd dst
      vfsSymlink outcome cwd target dst
      pure 1

/-- The symlink branch of `install_cb` after `mkparents`. -/
def installLink (rel dst target : Text) : Prog World Unit :=
  orRun (vfsSymlink outcome cwd target dst) (do
    let w ← get
    if vfsReadlink cwd w.tree dst = some target then pure ()
    else do
      let handoff ← dashBootstrapShHandoff outcome cwd db package rel dst target
      failIf (handoff = 0) 1)

/-- `install_cb`. A failing program stops the walk over the archive. -/
def installCb (m : Member) : Prog World Unit := do
  let rel := clean m.path
  if rel = [] then pure ()
  else do
    failIf (safePath rel = false) 1
    let dst := installDst root rel
    match m.kind with
    | .dir => do
        mkparents outcome cwd dst
        mkdirOrStat outcome cwd dst
    | .symlink target => do
        failIf (target = []) 1
        mkparents outcome cwd dst
        installLink outcome cwd db package rel dst target
    | .file data seekable complete => do
        mkparents outcome cwd dst
        failIf (seekable = false) 1
        let h ← vfsOpen outcome cwd dst
        ignore (vfsClose outcome h data)
        failIf (complete = false) 1
        ignore (vfsChmod outcome cwd dst)
    | .other => pure ()

/-- The members of an archive, in order. -/
def unpack (ms : List Member) : Prog World Unit :=
  forEach (installCb outcome cwd db package root) ms

end Install

end Guppy.Pkg
