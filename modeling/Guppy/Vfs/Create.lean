import Guppy.Pkg.Confine

set_option autoImplicit false

/-! # Creating objects

`vfs_open` with `O_CREAT`, `vfs_mkdir`, `vfs_symlink` and `vfs_mknod` of `src/vfs.c`, and which
object each of them is asked for.

`vfs_resolve_path_ex` answers a missing component with the directory it is missing from and its
name, whether it is the last one or not, and the callers create that name. So a path whose
middle is missing makes the call create the missing middle. `requested` says what the path asks
for: the last component in its directory, or nothing, when a component before it is missing.
-/

namespace Guppy.Vfs

open Pkg Prog

/-! ## What a path asks for -/

/-- Where the components of a path lead: to the last one in its directory, to a directory from
which one before the last is missing, to a link that is to be followed, or nowhere. -/
inductive Request
  | last (dir : Loc) (leaf : Text)
  | missing (dir : Loc)
  | link (parent : Loc) (target : Text) (rest : List Text)
  | nowhere

/-- Follow the components, which are cut as `comp_next` cuts them. -/
def requestWalk (t : Tree) (followFinal : Bool) : Nat → Loc → List Text → Request
  | 0, _, _ => .nowhere
  | _ + 1, _, [] => .nowhere
  | fuel + 1, cur, c :: cs =>
      let comp := (compNext c cs).1
      let rest := (compNext c cs).2
      match lookup t cur comp with
      | none => if rest = [] then .last cur comp else .missing cur
      | some node =>
          if node.isLink = true ∧ (rest ≠ [] ∨ followFinal = true) then
            match readlink node with
            | none => .nowhere
            | some target => .link cur target rest
          else if rest = [] then .last cur comp
          else requestWalk t followFinal fuel (cur ++ [comp]) rest

def requestOnce (t : Tree) (followFinal : Bool) (current : Loc) : Request :=
  match findMountFor t current with
  | none => .nowhere
  | some mp =>
      let rel := current.drop mp.length
      if rel = [] then .last mp [] else requestWalk t followFinal (size rel) mp rel

/-- Follow up to `left` links. -/
def requestLoop (t : Tree) (cwd : Text) (followFinal : Bool) (left : Nat) (current : Loc) : Request :=
  match requestOnce t followFinal current with
  | .link parent target rest =>
      match left with
      | 0 => .nowhere
      | left + 1 =>
          let next := vfsNormalizePath cwd (expanded parent target rest)
          if next = [] then .nowhere else requestLoop t cwd followFinal left (segments next)
  | r => r

/-- What a path asks for. -/
def requested (t : Tree) (cwd path : Text) (followFinal : Bool) : Request :=
  if path = [] then .nowhere
  else
    let current := vfsNormalizePath cwd path
    if current = [] then .nowhere
    else requestLoop t cwd followFinal vfsSymlinkMax (segments current)

/-! ## The four calls -/

/-- `flags & VFS_O_ACCMODE`. -/
inductive AccMode
  | rdonly
  | wronly
  | rdwr
  | invalid
  deriving DecidableEq

/-- The flags of `vfs_open` besides `O_CREAT`. -/
structure OpenFlags where
  accmode : AccMode
  trunc : Bool
  directory : Bool

/-- An open file of the ext2 driver. -/
structure OpenFile where
  dir : Loc
  loc : Loc
  isNew : Bool
  writable : Bool

section Calls

variable (outcome : Tree → Loc → Outcome) (readable : Tree → Loc → Bool) (cwd : Text)

/-- `i_open` of a file: one that is written without truncation is read first. -/
def iOpen (fl : OpenFlags) (r : PathRes) (isNew : Bool) : Prog World OpenFile := do
  let w ← get
  failIf (fl.directory = true ∨ fl.accmode = .invalid) (-1)
  failIf (fl.accmode ≠ .rdonly ∧ isNew = false ∧ fl.trunc = false ∧ readable w.tree r.loc = false) (-1)
  pure ⟨r.dir, r.loc, isNew, fl.accmode ≠ .rdonly⟩

/-- `vfs_open` with `O_CREAT`. A new file exists in memory only until it is closed. -/
def vfsOpenCreat (fl : OpenFlags) (path : Text) : Prog World OpenFile := do
  let r ← resolve cwd path true
  match r.node with
  | none => do
      failIf (r.leaf = []) (-1)
      iOpen readable fl r true
  | some .dir => do
      failIf (fl.accmode ≠ .rdonly) (-1)
      pure ⟨r.dir, r.loc, false, false⟩
  | some (.reg _) => do
      let f ← iOpen readable fl r false
      skipIf (fl.trunc = false) (ignore (change outcome r.loc (some (.reg []))))
      pure f
  | some _ => iOpen readable fl r false

/-- `vfs_close`, with what was written to the file, if anything was. -/
def fRelease (f : OpenFile) (written : Option (List UInt8)) : Prog World Unit := do
  let w ← get
  if f.writable = false ∨ (written = none ∧ f.isNew = false) then pure ()
  else if f.isNew = true then do
    failIf (w.tree.node f.dir ≠ some .dir ∨ w.tree.node f.loc ≠ none) (-1)
    change outcome f.loc (some (.reg (written.getD [])))
  else
    match w.tree.node f.loc with
    | some (.reg _) => change outcome f.loc (some (.reg (written.getD [])))
    | some .device => change outcome f.loc (some .device)
    | _ => throw (-1)

/-- `VFS_S_IFMT`, `VFS_S_IFCHR` and `VFS_S_IFBLK`. -/
def isDeviceMode (mode : Nat) : Bool := mode &&& 0xF000 = 0x2000 ∨ mode &&& 0xF000 = 0x6000

/-- `vfs_mknod`. -/
def vfsMknod (mode : Nat) (path : Text) : Prog World Unit := do
  failIf (path = [] ∨ isDeviceMode mode = false) (-1)
  let r ← resolve cwd path false
  let w ← get
  failIf (r.node ≠ none ∨ r.leaf = [] ∨ w.tree.node r.dir ≠ some .dir) (-1)
  change outcome r.loc (some .device)

/-- A call that may create an object. -/
inductive CreateOp
  | openCreat (fl : OpenFlags) (written : Option (List UInt8))
  | mkdir
  | symlink (target : Text)
  | mknod (mode : Nat)

/-- Whether the call follows a link at the end of the path. -/
def CreateOp.follows : CreateOp → Bool
  | .openCreat _ _ => true
  | .mkdir => true
  | .symlink _ => false
  | .mknod _ => false

/-- Make the call; a file is closed again. -/
def CreateOp.run (path : Text) : CreateOp → Prog World Unit
  | .openCreat fl written => do
      let f ← vfsOpenCreat outcome readable cwd fl path
      fRelease outcome f written
  | .mkdir => vfsMkdir outcome cwd path
  | .symlink target => vfsSymlink outcome cwd target path
  | .mknod mode => vfsMknod outcome cwd mode path

end Calls

/-- A call on the tree `t` creates what its path asks for and nothing else: it fails, without
creating anything, when a component before the last is missing, and every object that is new
after a successful call is the one at the path. -/
structure CreatesRequested (t : Tree) (req : Request) (res : EStateM.Result Int World Unit) : Prop where
  missing : ∀ dir, req = .missing dir →
    (∃ e w, res = .error e w) ∧ ∀ l, t.node l = none → (left res).tree.node l = none
  only : ∀ w, res = .ok () w → ∀ l, t.node l = none → w.tree.node l ≠ none →
    ∃ dir leaf, req = .last dir leaf ∧ l = dir ++ [leaf]

/-- The call fails, whatever is in `dir`, or because it is not a directory: with bad arguments,
or when something has to be written. -/
def CreateOp.Refused (t : Tree) (dir : Loc) : CreateOp → Prop
  | .openCreat fl _ => fl.directory = true ∨ fl.accmode = .invalid ∨
      (fl.accmode ≠ .rdonly ∧ t.node dir ≠ some .dir)
  | .mkdir => t.node dir ≠ some .dir
  | .symlink target => target = [] ∨ 60 < target.length ∨ t.node dir ≠ some .dir
  | .mknod mode => isDeviceMode mode = false ∨ t.node dir ≠ some .dir

/-! ## The resolver and the request -/

/-- The location of a name in a directory; the empty name stands for the directory. -/
def nameLoc (dir : Loc) (leaf : Text) : Loc := if leaf = [] then dir else dir ++ [leaf]

/-- What the resolver returns for a request: for a component that is missing before the last
one it returns that component, as if it were the last. -/
def Answers (t : Tree) : Request → Option PathRes → Prop
  | .last dir leaf, res => ∃ node, res = some ⟨dir, leaf, node⟩ ∧
      ∀ n, node = some n → t.node (nameLoc dir leaf) = some n
  | .missing dir, res => ∃ name, name ≠ [] ∧ lookup t dir name = none ∧ res = some ⟨dir, name, none⟩
  | .link _ _ _, _ => False
  | .nowhere, res => res = none

theorem node_of_lookup {t : Tree} {dir : Loc} {name : Text} {n : Node} (h : lookup t dir name = some n) :
    t.node (dir ++ [name]) = some n := by
  unfold lookup at h
  split at h
  · exact h
  · cases h

/-- How the walk of the resolver ends, for each end of the request's walk. -/
def WalkAnswers (t : Tree) : Request → Walked → Prop
  | .last dir leaf, res => ∃ node, res = .found dir leaf node ∧
      ∀ n, node = some n → t.node (nameLoc dir leaf) = some n
  | .missing dir, res => ∃ name, name ≠ [] ∧ lookup t dir name = none ∧ res = .found dir name none
  | .link parent target rest, res => res = .link parent target rest
  | .nowhere, res => res = .fail

theorem compNext_ne_nil {c : Text} (hc : c ≠ []) {cs : List Text} (hcs : ∀ s ∈ cs, s ≠ []) :
    (compNext c cs).1 ≠ [] ∧ ∀ s ∈ (compNext c cs).2, s ≠ [] := by
  unfold compNext
  split
  · exact ⟨hc, hcs⟩
  · rename_i hlong
    refine ⟨?_, ?_⟩
    · simp [hc]
    · intro s hs
      rcases List.mem_cons.mp hs with rfl | hs
      · intro h0
        have := congrArg List.length h0
        rw [List.length_drop, List.length_nil] at this
        omega
      · exact hcs s hs

theorem walkComps_answers {t : Tree} {follow : Bool} (fuel : Nat) :
    ∀ {cur : Loc} {cs : List Text}, (∀ s ∈ cs, s ≠ []) →
      WalkAnswers t (requestWalk t follow fuel cur cs) (walkComps t follow fuel cur cs) := by
  induction fuel with
  | zero =>
      intro cur cs _
      exact rfl
  | succ fuel ih =>
      intro cur cs hcs
      cases cs with
      | nil => exact rfl
      | cons c cs =>
          obtain ⟨hcomp, hrest⟩ := compNext_ne_nil (hcs c (List.mem_cons_self ..))
            (fun s hs => hcs s (List.mem_cons_of_mem _ hs))
          unfold requestWalk walkComps
          dsimp only []
          generalize (compNext c cs).1 = comp at hcomp ⊢
          generalize (compNext c cs).2 = rest at hrest ⊢
          have hloc : nameLoc cur comp = cur ++ [comp] := if_neg hcomp
          cases hl : lookup t cur comp with
          | none =>
              dsimp only []
              split
              · exact ⟨none, rfl, fun n hn => by cases hn⟩
              · exact ⟨comp, hcomp, hl, rfl⟩
          | some node =>
              dsimp only []
              split
              · cases readlink node with
                | none => exact rfl
                | some target => exact rfl
              · split
                · refine ⟨some node, rfl, fun n hn => ?_⟩
                  cases hn
                  rw [hloc]
                  exact node_of_lookup hl
                · exact ih hrest

theorem resolveOnce_answers {t : Tree} {follow : Bool} {current : Loc} (h : ∀ s ∈ current, s ≠ []) :
    WalkAnswers t (requestOnce t follow current) (resolveOnce t follow current) := by
  unfold requestOnce resolveOnce
  cases findMountFor t current with
  | none => exact rfl
  | some mp =>
      dsimp only []
      split
      · exact ⟨t.node mp, rfl, fun n hn => by rw [← hn]; rfl⟩
      · exact walkComps_answers _ (fun s hs => h s (List.mem_of_mem_drop hs))

theorem resolveLoop_answers {t : Tree} {cwd : Text} {follow : Bool} (left : Nat) :
    ∀ {current : Loc}, (∀ s ∈ current, s ≠ []) →
      Answers t (requestLoop t cwd follow left current) (resolveLoop t cwd follow left current) := by
  induction left using Nat.strong_induction_on with
  | _ left ih =>
      intro current h
      have hw := @resolveOnce_answers t follow current h
      unfold requestLoop resolveLoop
      cases hreq : requestOnce t follow current with
      | last dir leaf =>
          rw [hreq] at hw
          obtain ⟨node, hres, hnode⟩ := hw
          rw [hres]
          exact ⟨node, rfl, hnode⟩
      | missing dir =>
          rw [hreq] at hw
          obtain ⟨name, hne, hl, hres⟩ := hw
          rw [hres]
          exact ⟨name, hne, hl, rfl⟩
      | link parent target rest =>
          rw [hreq] at hw
          rw [show resolveOnce t follow current = _ from hw]
          cases left with
          | zero => exact rfl
          | succ left =>
              dsimp only []
              split
              · exact rfl
              · exact ih left (Nat.lt_succ_self left) (fun s hs => (segments_isName _ s hs).1)
      | nowhere =>
          rw [hreq] at hw
          rw [show resolveOnce t follow current = _ from hw]
          exact rfl

/-- The resolver and the request end at the same place. -/
theorem resolve_answers (t : Tree) (cwd path : Text) (follow : Bool) :
    Answers t (requested t cwd path follow) (vfsResolvePathEx t cwd path follow) := by
  unfold requested vfsResolvePathEx
  split
  · exact rfl
  · dsimp only []
    split
    · exact rfl
    · exact resolveLoop_answers _ (fun s hs => (segments_isName _ s hs).1)

/-! ## What the calls do to the tree -/

/-- Two trees differ at one location at most. -/
def OnlyAt (loc : Loc) (t t' : Tree) : Prop := ∀ l, l ≠ loc → t'.node l = t.node l

theorem onlyAt_refl (loc : Loc) (t : Tree) : OnlyAt loc t t := fun _ _ => rfl

theorem OnlyAt.trans {loc : Loc} {t t' t'' : Tree} (h : OnlyAt loc t t') (h' : OnlyAt loc t' t'') :
    OnlyAt loc t t'' := fun l hl => (h' l hl).trans (h l hl)

theorem onlyAt_setNode (loc : Loc) (t : Tree) (node : Option Node) : OnlyAt loc t (setNode t loc node) :=
  fun _ hl => if_neg hl

section Calls

variable {outcome : Tree → Loc → Outcome} {readable : Tree → Loc → Bool} {cwd : Text}

theorem change_eq (loc : Loc) (node : Option Node) (w : World) :
    change outcome loc node w = match outcome w.tree loc with
      | .refused => .error (-1) w
      | .done => .ok () ⟨setNode w.tree loc node, w.touched ++ [loc]⟩
      | .half => .error (-1) ⟨setNode w.tree loc node, w.touched ++ [loc]⟩ := by
  have hrun : change outcome loc node w = (match outcome w.tree loc with
      | .refused => throw (-1)
      | .done => set (World.mk (setNode w.tree loc node) (w.touched ++ [loc]))
      | .half => do
          set (World.mk (setNode w.tree loc node) (w.touched ++ [loc]))
          throw (-1) : Prog World Unit) w := rfl
  rw [hrun]
  cases outcome w.tree loc with
  | done => rfl
  | refused => rfl
  | half => rfl

theorem onlyAt_change (loc : Loc) (node : Option Node) (w : World) :
    OnlyAt loc w.tree (left (change outcome loc node w)).tree := by
  rw [change_eq]
  cases outcome w.tree loc with
  | done => exact onlyAt_setNode _ _ _
  | refused => exact onlyAt_refl _ _
  | half => exact onlyAt_setNode _ _ _

/-- A sequence changes a location at most when its parts do. -/
theorem onlyAt_bind {α β : Type} {loc : Loc} {x : Prog World α} {f : α → Prog World β} {w : World}
    (hx : OnlyAt loc w.tree (left (x w)).tree)
    (hf : ∀ a w', x w = .ok a w' → OnlyAt loc w'.tree (left (f a w')).tree) :
    OnlyAt loc w.tree (left ((x >>= f) w)).tree := by
  cases hrun : x w with
  | ok a w' =>
      rw [bind_of_ok hrun]
      rw [hrun] at hx
      exact hx.trans (hf a w' hrun)
  | error e w' =>
      rw [bind_of_error hrun]
      rw [hrun] at hx
      exact hx

theorem onlyAt_failIf {c : Prop} [Decidable c] {e : Int} {loc : Loc} {w : World} :
    OnlyAt loc w.tree (left (failIf c e w)).tree := by
  unfold failIf
  split
  · exact onlyAt_refl _ _
  · exact onlyAt_refl _ _

theorem onlyAt_get {loc : Loc} {w : World} :
    OnlyAt loc w.tree (left ((get : Prog World World) w)).tree := onlyAt_refl _ _

/-- Opening and closing a file changes it, or nothing. -/
theorem onlyAt_iOpen {fl : OpenFlags} {r : PathRes} {isNew : Bool} {loc : Loc} {w : World} :
    OnlyAt loc w.tree (left (iOpen readable fl r isNew w)).tree := by
  unfold iOpen
  refine onlyAt_bind onlyAt_get (fun v w₁ _ => ?_)
  refine onlyAt_bind onlyAt_failIf (fun _ w₂ _ => ?_)
  refine onlyAt_bind onlyAt_failIf (fun _ w₃ _ => ?_)
  exact onlyAt_refl _ _

theorem iOpen_loc {fl : OpenFlags} {r : PathRes} {isNew : Bool} {w w' : World} {f : OpenFile}
    (h : iOpen readable fl r isNew w = .ok f w') : f.loc = r.loc := by
  unfold iOpen at h
  obtain ⟨_, _, -, h⟩ := bind_ok_iff.mp h
  obtain ⟨_, _, -, h⟩ := bind_ok_iff.mp h
  obtain ⟨_, _, -, h⟩ := bind_ok_iff.mp h
  rw [(pure_ok_iff.mp h).1]

theorem onlyAt_fRelease {f : OpenFile} {written : Option (List UInt8)} {w : World} :
    OnlyAt f.loc w.tree (left (fRelease outcome f written w)).tree := by
  unfold fRelease
  refine onlyAt_bind onlyAt_get (fun v w₁ _ => ?_)
  split_ifs
  · exact onlyAt_refl _ _
  · refine onlyAt_bind onlyAt_failIf (fun _ w₂ _ => ?_)
    exact onlyAt_change _ _ _
  · cases hnode : v.tree.node f.loc with
    | none => exact onlyAt_refl _ _
    | some n =>
        cases n with
        | reg data => exact onlyAt_change _ _ _
        | device => exact onlyAt_change _ _ _
        | dir => exact onlyAt_refl _ _
        | symlink target => exact onlyAt_refl _ _

theorem onlyAt_ignore {α : Type} {loc : Loc} {x : Prog World α} {w : World}
    (hx : OnlyAt loc w.tree (left (x w)).tree) : OnlyAt loc w.tree (left (ignore x w)).tree := by
  unfold ignore
  cases hrun : x w with
  | ok a w' =>
      rw [hrun] at hx
      exact hx
  | error e w' =>
      rw [hrun] at hx
      exact hx

theorem onlyAt_openCreat {fl : OpenFlags} {written : Option (List UInt8)} {path : Text} {w : World}
    {r : PathRes} (hr : vfsResolvePathEx w.tree cwd path true = some r) :
    OnlyAt r.loc w.tree
      (left (CreateOp.run outcome readable cwd path (.openCreat fl written) w)).tree := by
  have hresolve : resolve cwd path true w = .ok r w := by
    rw [resolve_eq, hr]
  have hclose : ∀ (f : OpenFile) (w' : World), f.loc = r.loc →
      OnlyAt r.loc w'.tree (left (fRelease outcome f written w')).tree := by
    intro f w' hf
    rw [← hf]
    exact onlyAt_fRelease
  show OnlyAt r.loc w.tree (left ((vfsOpenCreat outcome readable cwd fl path >>= fun f =>
    fRelease outcome f written) w)).tree
  unfold vfsOpenCreat
  -- the file that is opened is the one that was resolved, and only that one is touched
  have hopen : ∀ (x : Prog World OpenFile), OnlyAt r.loc w.tree (left (x w)).tree →
      (∀ f w', x w = .ok f w' → f.loc = r.loc) →
      OnlyAt r.loc w.tree (left ((x >>= fun f => fRelease outcome f written) w)).tree := by
    intro x hx hloc
    exact onlyAt_bind hx (fun f w' hrun => hclose f w' (hloc f w' hrun))
  refine hopen _ ?_ ?_
  · rw [bind_of_ok hresolve]
    cases r.node with
    | none => exact onlyAt_bind onlyAt_failIf (fun _ _ _ => onlyAt_iOpen)
    | some n =>
        cases n with
        | dir => exact onlyAt_bind onlyAt_failIf (fun _ _ _ => onlyAt_refl _ _)
        | reg data =>
            refine onlyAt_bind onlyAt_iOpen (fun f w' _ => ?_)
            refine onlyAt_bind ?_ (fun _ _ _ => onlyAt_refl _ _)
            unfold skipIf
            split
            · exact onlyAt_refl _ _
            · exact onlyAt_ignore (onlyAt_change _ _ _)
        | symlink target => exact onlyAt_iOpen
        | device => exact onlyAt_iOpen
  · intro f w' hrun
    rw [bind_of_ok hresolve] at hrun
    cases hn : r.node with
    | none =>
        rw [hn] at hrun
        obtain ⟨_, _, -, hrun⟩ := bind_ok_iff.mp hrun
        exact iOpen_loc hrun
    | some n =>
        rw [hn] at hrun
        cases n with
        | dir =>
            obtain ⟨_, _, -, hrun⟩ := bind_ok_iff.mp hrun
            rw [(pure_ok_iff.mp hrun).1]
        | reg data =>
            obtain ⟨f', _, hf, hrun⟩ := bind_ok_iff.mp hrun
            obtain ⟨_, _, -, hrun⟩ := bind_ok_iff.mp hrun
            rw [(pure_ok_iff.mp hrun).1]
            exact iOpen_loc hf
        | symlink target => exact iOpen_loc hrun
        | device => exact iOpen_loc hrun

theorem onlyAt_changeLink {loc : Loc} {target : Text} {w : World} :
    OnlyAt loc w.tree (left (changeLink outcome loc target w)).tree := by
  unfold changeLink
  refine onlyAt_bind onlyAt_get (fun v w₁ hget => ?_)
  obtain rfl : v = w₁ := by
    cases hget
    rfl
  refine onlyAt_bind onlyAt_failIf (fun _ w₂ hfail => ?_)
  obtain rfl : v = w₂ := (failIf_ok_iff.mp hfail).2.symm
  exact onlyAt_setNode _ _ _

/-- A call changes nothing but the object that its path resolves to. -/
theorem onlyAt_run {op : CreateOp} {path : Text} {w : World} {r : PathRes}
    (hr : vfsResolvePathEx w.tree cwd path op.follows = some r) :
    OnlyAt r.loc w.tree (left (op.run outcome readable cwd path w)).tree := by
  have hresolve : resolve cwd path op.follows w = .ok r w := by
    rw [resolve_eq, hr]
  cases op with
  | openCreat fl written => exact onlyAt_openCreat hr
  | mkdir =>
      have hresolve : resolve cwd path true w = .ok r w := hresolve
      show OnlyAt r.loc w.tree (left (vfsMkdir outcome cwd path w)).tree
      unfold vfsMkdir
      rw [bind_of_ok hresolve]
      refine onlyAt_bind onlyAt_get (fun _ _ _ => onlyAt_bind onlyAt_failIf (fun _ _ _ => ?_))
      cases r.node with
      | none => exact onlyAt_change _ _ _
      | some n =>
          cases n with
          | dir => exact onlyAt_refl _ _
          | reg data => exact onlyAt_refl _ _
          | symlink target => exact onlyAt_refl _ _
          | device => exact onlyAt_refl _ _
  | symlink target =>
      have hresolve : resolve cwd path false w = .ok r w := hresolve
      show OnlyAt r.loc w.tree (left (vfsSymlink outcome cwd target path w)).tree
      unfold vfsSymlink
      by_cases h0 : target = []
      · rw [bind_of_error (failIf_of h0)]
        exact onlyAt_refl _ _
      · rw [bind_of_ok (failIf_of_not h0), bind_of_ok hresolve]
        refine onlyAt_bind onlyAt_get (fun _ _ _ => onlyAt_bind onlyAt_failIf (fun _ _ _ => ?_))
        exact onlyAt_changeLink
  | mknod mode =>
      have hresolve : resolve cwd path false w = .ok r w := hresolve
      show OnlyAt r.loc w.tree (left (vfsMknod outcome cwd mode path w)).tree
      unfold vfsMknod
      by_cases h0 : path = [] ∨ isDeviceMode mode = false
      · rw [bind_of_error (failIf_of h0)]
        exact onlyAt_refl _ _
      · rw [bind_of_ok (failIf_of_not h0), bind_of_ok hresolve]
        refine onlyAt_bind onlyAt_get (fun _ _ _ => onlyAt_bind onlyAt_failIf (fun _ _ _ => ?_))
        exact onlyAt_change _ _ _

/-- A call whose path does not resolve fails. -/
theorem run_unresolved {op : CreateOp} {path : Text} {w : World}
    (hr : vfsResolvePathEx w.tree cwd path op.follows = none) :
    ∃ e, op.run outcome readable cwd path w = .error e w := by
  have hresolve : resolve cwd path op.follows w = .error (-1) w := by
    rw [resolve_eq, hr]
  cases op with
  | openCreat fl written =>
      have hopen : vfsOpenCreat outcome readable cwd fl path w = .error (-1) w := bind_of_error hresolve
      exact ⟨_, bind_of_error hopen⟩
  | mkdir => exact ⟨_, bind_of_error hresolve⟩
  | symlink target =>
      by_cases h0 : target = []
      · exact ⟨_, bind_of_error (failIf_of h0)⟩
      · exact ⟨_, (bind_of_ok (failIf_of_not h0)).trans (bind_of_error hresolve)⟩
  | mknod mode =>
      by_cases h0 : path = [] ∨ isDeviceMode mode = false
      · exact ⟨_, bind_of_error (failIf_of h0)⟩
      · exact ⟨_, (bind_of_ok (failIf_of_not h0)).trans (bind_of_error hresolve)⟩

/-- `get` returns the state. -/
theorem bind_get {α : Type} {f : World → Prog World α} {w : World} :
    ((get : Prog World World) >>= f) w = f w w := rfl

section Missing

variable {path name : Text} {dir : Loc} {w : World}

/-- A refused call fails at a missing name and creates nothing. -/
theorem run_refused {op : CreateOp} (hname : name ≠ [])
    (hr : vfsResolvePathEx w.tree cwd path op.follows = some ⟨dir, name, none⟩)
    (hrefused : op.Refused w.tree dir) : ∃ e, op.run outcome readable cwd path w = .error e w := by
  have hresolve : resolve cwd path op.follows w = .ok ⟨dir, name, none⟩ w := by
    rw [resolve_eq, hr]
  cases op with
  | openCreat fl written =>
      have hopen : vfsOpenCreat outcome readable cwd fl path w =
          iOpen readable fl ⟨dir, name, none⟩ true w :=
        (bind_of_ok hresolve).trans (bind_of_ok (failIf_of_not hname))
      by_cases hbad : fl.directory = true ∨ fl.accmode = .invalid
      · have hfail : iOpen readable fl ⟨dir, name, none⟩ true w = .error (-1) w :=
          bind_get.trans (bind_of_error (failIf_of hbad))
        exact ⟨_, bind_of_error (hopen.trans hfail)⟩
      · -- the file opens, and closing it fails
        have hwrite : fl.accmode ≠ .rdonly ∧ w.tree.node dir ≠ some .dir := by
          rcases hrefused with h | h | h
          · exact absurd (Or.inl h) hbad
          · exact absurd (Or.inr h) hbad
          · exact h
        have hok : iOpen readable fl ⟨dir, name, none⟩ true w =
            .ok ⟨dir, PathRes.loc ⟨dir, name, none⟩, true, fl.accmode ≠ .rdonly⟩ w :=
          bind_get.trans ((bind_of_ok (failIf_of_not hbad)).trans
            (bind_of_ok (failIf_of_not (fun h => by cases h.2.1))))
        refine ⟨-1, (bind_of_ok (hopen.trans hok)).trans ?_⟩
        unfold fRelease
        rw [bind_get, if_neg (by simp [hwrite.1]), if_pos rfl]
        exact bind_of_error (failIf_of (Or.inl hwrite.2))
  | mkdir =>
      refine ⟨-1, (bind_of_ok hresolve).trans (bind_get.trans ?_)⟩
      exact bind_of_error (failIf_of (Or.inl hrefused))
  | symlink target =>
      by_cases h0 : target = []
      · exact ⟨_, bind_of_error (failIf_of h0)⟩
      · refine ⟨-1, (bind_of_ok (failIf_of_not h0)).trans ((bind_of_ok hresolve).trans
          (bind_get.trans (bind_of_error (failIf_of ?_))))⟩
        rcases hrefused with h | h | h
        · exact absurd h h0
        · exact Or.inr (Or.inr (Or.inr h))
        · exact Or.inr (Or.inl h)
  | mknod mode =>
      by_cases h0 : path = [] ∨ isDeviceMode mode = false
      · exact ⟨_, bind_of_error (failIf_of h0)⟩
      · refine ⟨-1, (bind_of_ok (failIf_of_not h0)).trans ((bind_of_ok hresolve).trans
          (bind_get.trans (bind_of_error (failIf_of ?_))))⟩
        rcases hrefused with h | h
        · exact absurd (Or.inr h) h0
        · exact Or.inr (Or.inr h)

/-- A call that is not refused goes through at a missing name, when the driver carries it out. -/
theorem run_goes {op : CreateOp} (hname : name ≠ []) (hpath : path ≠ [])
    (hl : lookup w.tree dir name = none)
    (hr : vfsResolvePathEx w.tree cwd path op.follows = some ⟨dir, name, none⟩)
    (hgo : ¬ op.Refused w.tree dir) :
    ∃ w', op.run (fun _ _ => .done) (fun _ _ => true) cwd path w = .ok () w' := by
  have hresolve : resolve cwd path op.follows w = .ok ⟨dir, name, none⟩ w := by
    rw [resolve_eq, hr]
  have hnode : w.tree.node dir = some .dir → w.tree.node (PathRes.loc ⟨dir, name, none⟩) = none := by
    intro hdir
    rw [PathRes.loc, if_neg hname, ← lookup_of_dir hdir, hl]
  cases op with
  | openCreat fl written =>
      unfold CreateOp.Refused at hgo
      have hbad : ¬ (fl.directory = true ∨ fl.accmode = .invalid) :=
        fun h => hgo (h.imp id Or.inl)
      have hopen : vfsOpenCreat (fun _ _ => .done) (fun _ _ => true) cwd fl path w =
          .ok ⟨dir, PathRes.loc ⟨dir, name, none⟩, true, fl.accmode ≠ .rdonly⟩ w :=
        (bind_of_ok hresolve).trans ((bind_of_ok (failIf_of_not hname)).trans
          (bind_get.trans ((bind_of_ok (failIf_of_not hbad)).trans
            (bind_of_ok (failIf_of_not (fun h => by cases h.2.1))))))
      show ∃ w', (vfsOpenCreat (fun _ _ => .done) (fun _ _ => true) cwd fl path >>= fun f =>
        fRelease (fun _ _ => .done) f written) w = .ok () w'
      rw [bind_of_ok hopen]
      unfold fRelease
      rw [bind_get]
      by_cases hro : fl.accmode = .rdonly
      · rw [if_pos (by simp [hro])]
        exact ⟨w, rfl⟩
      · have hdir : w.tree.node dir = some .dir := by
          by_contra hno
          exact hgo (Or.inr (Or.inr ⟨hro, hno⟩))
        rw [if_neg (by simp [hro]), if_pos rfl, bind_of_ok (failIf_of_not (by simp [hdir, hnode hdir])),
          change_eq]
        exact ⟨_, rfl⟩
  | mkdir =>
      have hdir : w.tree.node dir = some .dir := not_not.mp hgo
      refine ⟨_, (bind_of_ok hresolve).trans (bind_get.trans
        ((bind_of_ok (failIf_of_not (by simp [hdir, hname]))).trans (change_eq _ _ _)))⟩
  | symlink target =>
      unfold CreateOp.Refused at hgo
      push Not at hgo
      obtain ⟨h0, hshort, hdir⟩ := hgo
      have hlink : ∀ loc, ∃ w', changeLink (fun _ _ => .done) loc target w = .ok () w' := fun _ => ⟨_, rfl⟩
      obtain ⟨w', hlink⟩ := hlink (PathRes.loc ⟨dir, name, none⟩)
      exact ⟨w', (bind_of_ok (failIf_of_not h0)).trans ((bind_of_ok hresolve).trans (bind_get.trans
        ((bind_of_ok (failIf_of_not (by simp [hdir, hname, hshort]))).trans hlink)))⟩
  | mknod mode =>
      unfold CreateOp.Refused at hgo
      push Not at hgo
      obtain ⟨hmode, hdir⟩ := hgo
      refine ⟨_, (bind_of_ok (failIf_of_not (by simp [hpath, hmode]))).trans
        ((bind_of_ok hresolve).trans (bind_get.trans
          ((bind_of_ok (failIf_of_not (by simp [hdir, hname]))).trans (change_eq _ _ _))))⟩

end Missing

/-- A call at the root of a mount creates nothing. -/
theorem run_root {op : CreateOp} {path : Text} {dir : Loc} {w : World}
    (hr : vfsResolvePathEx w.tree cwd path op.follows = some ⟨dir, [], none⟩) :
    ∃ e, op.run outcome readable cwd path w = .error e w := by
  have hresolve : resolve cwd path op.follows w = .ok ⟨dir, [], none⟩ w := by
    rw [resolve_eq, hr]
  cases op with
  | openCreat fl written =>
      have hopen : vfsOpenCreat outcome readable cwd fl path w = .error (-1) w :=
        (bind_of_ok hresolve).trans (bind_of_error (failIf_of rfl))
      exact ⟨_, bind_of_error hopen⟩
  | mkdir =>
      exact ⟨-1, (bind_of_ok hresolve).trans (bind_get.trans (bind_of_error (failIf_of (Or.inr rfl))))⟩
  | symlink target =>
      by_cases h0 : target = []
      · exact ⟨_, bind_of_error (failIf_of h0)⟩
      · exact ⟨-1, (bind_of_ok (failIf_of_not h0)).trans ((bind_of_ok hresolve).trans (bind_get.trans
          (bind_of_error (failIf_of (Or.inr (Or.inr (Or.inl rfl)))))))⟩
  | mknod mode =>
      by_cases h0 : path = [] ∨ isDeviceMode mode = false
      · exact ⟨_, bind_of_error (failIf_of h0)⟩
      · exact ⟨-1, (bind_of_ok (failIf_of_not h0)).trans ((bind_of_ok hresolve).trans (bind_get.trans
          (bind_of_error (failIf_of (Or.inr (Or.inl rfl))))))⟩

end Calls

theorem createsRequested_error {t : Tree} {req : Request} {e : Int} {touched : List Loc} :
    CreatesRequested t req (.error e ⟨t, touched⟩) := by
  constructor
  · intro dir _
    exact ⟨⟨e, _, rfl⟩, fun l hl => hl⟩
  · intro w hw
    cases hw

/-- A tree that has only its root. -/
def bareTree : Tree := ⟨[[]], fun l => if l = [] then some .dir else none⟩

end Guppy.Vfs
