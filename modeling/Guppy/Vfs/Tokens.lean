import Guppy.Vfs.Normalize
import Mathlib.Data.List.TakeWhile

set_option autoImplicit false

/-! # The names that are looked up

The resolver again, on path texts and over any file systems: the text below the mount point is cut into
names of at most 255 bytes (`compNext`), each is passed to the `lookup` of the directory reached so far,
and a link starts another pass over a new path. A pass records the names that it looked up. They are
components of its path, in order, as long as no component of more than 255 bytes is reached
(`lookups_are_components_iff`).
-/

namespace Guppy.Vfs.Tokens

/-! ## The code -/

/-- Mounted file systems with inodes of type `α`. An inode without `lookup` is no directory; `lookup`
fails or says which inode has the name, if any; `readlink` gives the text of a target, if it can. -/
structure Fs (α : Type) where
  lookup : α → Option (Text → Option (Option α))
  isLink : α → Bool
  readlink : α → Option Text

/-- `mount_rec_t`, with the root of its superblock. -/
structure MountRec (α : Type) where
  mp : Text
  root : Option α

variable {α : Type}

/-- A round of the loop of `vfs_find_mount_for`: the best mount so far and the length of its mount point. -/
def betterMount (path : Text) (best : Option (MountRec α) × Nat) (m : MountRec α) : Option (MountRec α) × Nat :=
  if m.mp = [slash] then (if best.1.isNone = true then (some m, 1) else best)
  else if m.mp <+: path ∧ ((path.drop m.mp.length).head? = none ∨ (path.drop m.mp.length).head? = some slash) ∧
      best.2 < m.mp.length then (some m, m.mp.length)
  else best

/-- `vfs_find_mount_for` -/
def findMountFor (mounts : List (MountRec α)) (path : Text) : Option (MountRec α) := (mounts.foldl (betterMount path) (none, 0)).1

/-- The part of a path behind its mount point. -/
def belowMount (path mp : Text) : Text := if mp = [slash] then path else path.drop mp.length

/-- `vfs_mount_relative` with a buffer of `VFS_PATH_MAX` bytes -/
def mountRelative (path mp : Text) : Text := ((belowMount path mp).dropWhile (· = slash)).take (vfsPathMax - 1)

/-- `comp_next`: the name and where it stopped. -/
def compNext (s : Text) : Text × Text :=
  let name := (s.takeWhile (· ≠ slash)).take 255
  (name, (s.drop name.length).dropWhile (· = slash))

/-- `vfs_path_set` -/
def pathSet (cap : Nat) (src : Text) : Option Text := if cap ≤ src.length then none else some src

/-- `vfs_path_append` -/
def pathAppend (cap : Nat) (dst part : Text) : Option Text :=
  let part := part.dropWhile isSep
  if part = [] then some dst
  else
    let between : Text := if dst.getLast? = some slash then [] else [slash]
    if cap ≤ dst.length + between.length + part.length then none else some (dst ++ between ++ part)

/-- The path that a link is replaced by. -/
def expandLink (parentPath target rest : Text) : Option Text := do
  let expanded ←
    if target.head? = some slash ∨ target.head? = some backslash then pathSet (vfsPathMax * 3) target
    else do
      let base ← pathSet (vfsPathMax * 3) parentPath
      pathAppend (vfsPathMax * 3) base target
  if rest = [] then some expanded else pathAppend (vfsPathMax * 3) expanded rest

/-- `path_res_t` -/
structure PathRes (α : Type) where
  dir : α
  leaf : Text
  node : Option α
  deriving DecidableEq

/-- How a pass over one path ends: with an error, with a result, or at a link. -/
inductive Outcome (α : Type)
  | fail
  | found (r : PathRes α)
  | link (expanded : Text)

theorem compNext_shorter {p : Text} (hp : p ≠ []) : (compNext p).2.length < p.length := by
  obtain ⟨c, t, rfl⟩ := List.exists_cons_of_ne_nil hp
  have hdrop : ∀ s : Text, (s.dropWhile (· = slash)).length ≤ s.length := fun s => (List.dropWhile_suffix _).length_le
  unfold compNext
  dsimp only []
  by_cases hc : c = slash
  · -- nothing is copied, and the slash is passed over
    subst hc
    have hnone : (slash :: t).takeWhile (· ≠ slash) = [] := by simp
    rw [hnone, List.take_nil, List.length_nil, List.drop_zero, List.dropWhile_cons_of_pos (by simp), List.length_cons]
    exact Nat.lt_succ_of_le (hdrop t)
  · have hsome : (c :: t).takeWhile (· ≠ slash) = c :: t.takeWhile (· ≠ slash) := List.takeWhile_cons_of_pos (by simpa using hc)
    rw [hsome]
    refine (hdrop _).trans_lt ?_
    rw [List.length_drop, List.take_succ_cons, List.length_cons, List.length_cons]
    omega

/-- The inner loop of `vfs_resolve_path_ex`: the names that it looks up, and how it ends. `parentPath` is
the path of the directory `cur`, which was reached by the name `leaf` in `parent`. -/
def walkText (fs : Fs α) (followFinal : Bool) (parent cur : α) (leaf parentPath p : Text) : List Text × Outcome α :=
  if hp : p = [] then ([], .found ⟨parent, leaf, some cur⟩)
  else
    have := compNext_shorter hp
    let comp := (compNext p).1
    let rest := (compNext p).2
    if comp = [] then walkText fs followFinal parent cur leaf parentPath rest
    else
      match fs.lookup cur with
      | none => ([], .fail)
      | some look =>
          match look comp with
          | none => ([comp], .fail)
          | some none => ([comp], .found ⟨cur, comp, none⟩)
          | some (some next) =>
              if fs.isLink next = true ∧ (rest ≠ [] ∨ followFinal = true) then
                match fs.readlink next with
                | none => ([comp], .fail)
                | some target =>
                    match expandLink parentPath target rest with
                    | none => ([comp], .fail)
                    | some expanded => ([comp], .link expanded)
              else
                match if rest = [] then some parentPath else pathAppend vfsPathMax parentPath comp with
                | none => ([comp], .fail)
                | some parentPath =>
                    let w := walkText fs followFinal cur next comp parentPath rest
                    (comp :: w.1, w.2)
  termination_by p.length

/-- A pass of the outer loop: the path, the mount point and its root, and the names looked up. -/
structure Pass (α : Type) where
  current : Text
  mp : Text
  root : α
  names : List Text

/-- The outer loop, with the passes that it makes; `left` more links may be followed. -/
def resolveText (fs : Fs α) (mounts : List (MountRec α)) (cwd : Text) (followFinal : Bool) (left : Nat)
    (current : Text) : List (Pass α) × Option (PathRes α) :=
  match findMountFor mounts current with
  | none => ([], none)
  | some m =>
      match m.root with
      | none => ([], none)
      | some root =>
          let rel := mountRelative current m.mp
          if rel = [] then ([⟨current, m.mp, root, []⟩], some ⟨root, [], some root⟩)
          else
            match pathSet vfsPathMax m.mp with
            | none => ([⟨current, m.mp, root, []⟩], none)
            | some parentPath =>
                let w := walkText fs followFinal root root [] parentPath rel
                let pass : Pass α := ⟨current, m.mp, root, w.1⟩
                match w.2 with
                | .fail => ([pass], none)
                | .found r => ([pass], some r)
                | .link expanded =>
                    match left with
                    | 0 => ([pass], none)
                    | left + 1 =>
                        let next := vfsNormalizePath cwd expanded
                        if next = [] then ([pass], none)
                        else
                          let r := resolveText fs mounts cwd followFinal left next
                          (pass :: r.1, r.2)

/-- `vfs_resolve_path_ex` -/
def vfsResolvePathEx (fs : Fs α) (mounts : List (MountRec α)) (cwd path : Text) (followFinal : Bool) :
    List (Pass α) × Option (PathRes α) :=
  if path = [] then ([], none)
  else
    let current := vfsNormalizePath cwd path
    if current = [] then ([], none) else resolveText fs mounts cwd followFinal vfsSymlinkMax current

/-! ## Components and directories -/

/-- The parts of a text between slashes. -/
def parts (s : Text) : List Text := (s.splitOn slash).filter (· ≠ [])

/-- Looking the names up one by one leads through directories that are not links. -/
inductive Leads (fs : Fs α) : α → List Text → α → Prop
  | here (d : α) : Leads fs d [] d
  | down {d next e : α} {look : Text → Option (Option α)} {name : Text} {names : List Text} (hlook : fs.lookup d = some look)
      (hname : look name = some (some next)) (hlink : fs.isLink next = false) (hrest : Leads fs next names e) :
      Leads fs d (name :: names) e

/-- A component of more than 255 bytes is to be looked up in a directory that the components before it
lead to. -/
def ReachesLong (fs : Fs α) (root : α) (comps : List Text) : Prop :=
  ∃ before c after d, comps = before ++ c :: after ∧ 255 < c.length ∧ Leads fs root before d ∧ (fs.lookup d).isSome = true

theorem parts_append (a b : Text) : parts (a ++ slash :: b) = parts a ++ parts b := by
  unfold parts List.splitOn
  rw [List.splitOnP_append_cons a b (by simp), List.filter_append]

theorem parts_slash (t : Text) : parts (slash :: t) = parts t := parts_append [] t

theorem parts_dropWhile (t : Text) : parts (t.dropWhile (· = slash)) = parts t := by
  induction t with
  | nil => rfl
  | cons c t ih =>
      by_cases hc : c = slash
      · rw [List.dropWhile_cons_of_pos (by simpa using hc), ih, hc, parts_slash]
      · rw [List.dropWhile_cons_of_neg (by simpa using hc)]

theorem parts_name {c : Text} (hc : c ≠ []) (hslash : slash ∉ c) : parts c = [c] := by
  unfold parts List.splitOn
  rw [List.splitOnP_eq_singleton]
  · simp [hc]
  · intro b hb
    simpa using fun h : b = slash => hslash (h ▸ hb)

/-- What `comp_next` reads: the separators before a name, the whole of a name, or its first 255 bytes. -/
theorem compNext_cases {p : Text} (hp : p ≠ []) :
    ((compNext p).1 = [] ∧ parts (compNext p).2 = parts p) ∨
    (compNext p).1 ≠ [] ∧ ∃ c cs, parts p = c :: cs ∧
      (c.length ≤ 255 ∧ (compNext p).1 = c ∧ parts (compNext p).2 = cs ∨ 255 < c.length ∧ (compNext p).1 = c.take 255) := by
  obtain ⟨b, t, rfl⟩ := List.exists_cons_of_ne_nil hp
  by_cases hb : b = slash
  · left
    subst hb
    have hnone : (compNext (slash :: t)).1 = [] := by simp [compNext]
    refine ⟨hnone, ?_⟩
    have hrest : (compNext (slash :: t)).2 = (slash :: t).dropWhile (· = slash) := by simp [compNext]
    rw [hrest, parts_dropWhile]
  · right
    obtain ⟨c, hc⟩ : ∃ c, (b :: t).takeWhile (· ≠ slash) = c := ⟨_, rfl⟩
    obtain ⟨r, hr⟩ : ∃ r, (b :: t).dropWhile (· ≠ slash) = r := ⟨_, rfl⟩
    have hsplit : b :: t = c ++ r := by rw [← hc, ← hr, List.takeWhile_append_dropWhile]
    have hne : c ≠ [] := by
      rw [← hc, List.takeWhile_cons_of_pos (by simpa using hb)]
      exact List.cons_ne_nil _ _
    have hslash : slash ∉ c := by
      intro h
      rw [← hc] at h
      simpa using List.mem_takeWhile_imp h
    have hparts : parts (b :: t) = c :: parts r := by
      rw [hsplit]
      cases hr' : r with
      | nil => rw [List.append_nil, parts_name hne hslash]; rfl
      | cons d r' =>
          have hd := List.head?_dropWhile_not (fun x : UInt8 => decide (x ≠ slash)) (b :: t)
          rw [hr, hr'] at hd
          have hd : d = slash := by simpa using hd
          rw [hd, parts_append, parts_slash, parts_name hne hslash]
          rfl
    have hcomp : (compNext (b :: t)).1 = c.take 255 := by
      unfold compNext
      rw [hc]
    refine ⟨?_, c, parts r, hparts, ?_⟩
    · rw [hcomp]
      intro h
      exact hne ((List.take_eq_nil_iff.mp h).resolve_left (by decide))
    · by_cases hlen : c.length ≤ 255
      · left
        have hwhole : c.take 255 = c := List.take_of_length_le hlen
        refine ⟨hlen, hcomp.trans hwhole, ?_⟩
        have hrest : (compNext (b :: t)).2 = r.dropWhile (· = slash) := by
          unfold compNext
          dsimp only []
          rw [hc, hwhole, hsplit, List.drop_left]
        rw [hrest, parts_dropWhile]
      · exact Or.inr ⟨by omega, hcomp⟩

/-! ## A pass -/

theorem not_reachesLong_nil (fs : Fs α) (d : α) : ¬ ReachesLong fs d [] := by
  rintro ⟨before, c, after, _, hcomps, _⟩
  cases before <;> cases hcomps

/-- A long component later on is reached through the first one. -/
theorem reachesLong_cons {fs : Fs α} {d next : α} {look : Text → Option (Option α)} {c : Text} {cs : List Text}
    (hshort : c.length ≤ 255) (hlook : fs.lookup d = some look) (hname : look c = some (some next))
    (hlink : fs.isLink next = false) : ReachesLong fs d (c :: cs) ↔ ReachesLong fs next cs := by
  constructor
  · rintro ⟨before, c', after, e, hcomps, hlong, hleads, hdir⟩
    cases before with
    | nil =>
        obtain ⟨rfl, -⟩ := List.cons.inj hcomps
        omega
    | cons x before =>
        obtain ⟨rfl, hrest⟩ := List.cons.inj hcomps
        cases hleads with
        | down hlook' hname' _ hrest' =>
            obtain rfl := Option.some.inj (hlook.symm.trans hlook')
            obtain rfl := Option.some.inj (Option.some.inj (hname.symm.trans hname'))
            exact ⟨before, c', after, e, hrest, hlong, hrest', hdir⟩
  · rintro ⟨before, c', after, e, hcomps, hlong, hleads, hdir⟩
    exact ⟨c :: before, c', after, e, by rw [hcomps]; rfl, hlong, .down hlook hname hlink hleads, hdir⟩

/-- Nothing is reached through a name that leads nowhere. -/
theorem not_reachesLong_cons {fs : Fs α} {d : α} {look : Text → Option (Option α)} {c : Text} {cs : List Text}
    (hshort : c.length ≤ 255) (hlook : fs.lookup d = some look)
    (hstop : ∀ next, look c = some (some next) → fs.isLink next = true) : ¬ ReachesLong fs d (c :: cs) := by
  rintro ⟨before, c', after, e, hcomps, hlong, hleads, hdir⟩
  cases before with
  | nil =>
      obtain ⟨rfl, -⟩ := List.cons.inj hcomps
      omega
  | cons x before =>
      obtain ⟨rfl, hrest⟩ := List.cons.inj hcomps
      cases hleads with
      | down hlook' hname' hlink' _ =>
          obtain rfl := Option.some.inj (hlook.symm.trans hlook')
          rw [hstop _ hname'] at hlink'
          cases hlink'

/-- What a round of a pass that does not fail does: it passes over separators, it looks up a name and the
pass is over, or it goes on in the inode of that name, which is a link only if it is the last one. -/
theorem walkText_cases {fs : Fs α} {followFinal : Bool} {parent cur : α} {leaf parentPath p : Text} (hp : p ≠ [])
    (hok : ∀ names, walkText fs followFinal parent cur leaf parentPath p ≠ (names, .fail)) :
    ((compNext p).1 = [] ∧ walkText fs followFinal parent cur leaf parentPath p =
      walkText fs followFinal parent cur leaf parentPath (compNext p).2) ∨
    (compNext p).1 ≠ [] ∧ ∃ look, fs.lookup cur = some look ∧
      ((∀ next, look (compNext p).1 = some (some next) → fs.isLink next = true) ∧
        (walkText fs followFinal parent cur leaf parentPath p).1 = [(compNext p).1] ∨
      ∃ next path, look (compNext p).1 = some (some next) ∧ (fs.isLink next = true → (compNext p).2 = []) ∧
        walkText fs followFinal parent cur leaf parentPath p =
          ((compNext p).1 :: (walkText fs followFinal cur next (compNext p).1 path (compNext p).2).1,
            (walkText fs followFinal cur next (compNext p).1 path (compNext p).2).2)) := by
  rw [walkText] at hok ⊢
  rw [dif_neg hp] at hok ⊢
  dsimp only [] at hok ⊢
  by_cases hcomp : (compNext p).1 = []
  · left
    rw [if_pos hcomp]
    exact ⟨hcomp, rfl⟩
  · right
    rw [if_neg hcomp] at hok ⊢
    refine ⟨hcomp, ?_⟩
    cases hlook : fs.lookup cur with
    | none =>
        rw [hlook] at hok
        exact absurd rfl (hok [])
    | some look =>
        rw [hlook] at hok
        dsimp only [] at hok ⊢
        refine ⟨look, rfl, ?_⟩
        cases hname : look (compNext p).1 with
        | none =>
            rw [hname] at hok
            exact absurd rfl (hok [(compNext p).1])
        | some found =>
            rw [hname] at hok
            cases found with
            | none =>
                left
                refine ⟨fun next h => ?_, rfl⟩
                cases h
            | some next =>
                dsimp only [] at hok ⊢
                by_cases hlink : fs.isLink next = true ∧ ((compNext p).2 ≠ [] ∨ followFinal = true)
                · left
                  rw [if_pos hlink]
                  refine ⟨fun n h => Option.some.inj (Option.some.inj h) ▸ hlink.1, ?_⟩
                  cases fs.readlink next with
                  | none => rfl
                  | some target =>
                      dsimp only []
                      cases expandLink parentPath target (compNext p).2 <;> rfl
                · right
                  rw [if_neg hlink] at hok ⊢
                  have hlast : fs.isLink next = true → (compNext p).2 = [] := by
                    intro h
                    by_contra hrest
                    exact hlink ⟨h, Or.inl hrest⟩
                  cases hpath : if (compNext p).2 = [] then some parentPath else pathAppend vfsPathMax parentPath (compNext p).1 with
                  | none =>
                      rw [hpath] at hok
                      exact absurd rfl (hok [(compNext p).1])
                  | some path => exact ⟨next, path, rfl, hlast, rfl⟩

/-- The names of a pass that does not fail are components, as long as no long one is reached. -/
theorem walkText_iff {fs : Fs α} {followFinal : Bool} (n : Nat) : ∀ {parent cur : α} {leaf parentPath p : Text}, p.length = n →
    (∀ names, walkText fs followFinal parent cur leaf parentPath p ≠ (names, .fail)) →
    ((walkText fs followFinal parent cur leaf parentPath p).1 <+: parts p ↔ ¬ ReachesLong fs cur (parts p)) := by
  induction n using Nat.strong_induction_on with
  | _ n ih =>
      intro parent cur leaf parentPath p hn hok
      by_cases hp : p = []
      · subst hp
        rw [walkText, dif_pos rfl]
        exact iff_of_true List.nil_prefix (not_reachesLong_nil fs cur)
      · have hshorter := compNext_shorter hp
        rw [hn] at hshorter
        rcases walkText_cases hp hok with ⟨hnone, hwalk⟩ | ⟨hsome, look, hlook, hround⟩
        · -- only separators
          rcases compNext_cases hp with ⟨_, hparts⟩ | ⟨hsome, _⟩
          · rw [hwalk] at hok ⊢
            rw [← hparts]
            exact ih _ hshorter rfl hok
          · exact absurd hnone hsome
        · rcases compNext_cases hp with ⟨hnone, _⟩ | ⟨_, c, cs, hparts, hcase⟩
          · exact absurd hnone hsome
          · rw [hparts]
            rcases hcase with ⟨hshort, hname, hrest⟩ | ⟨hlong, hname⟩
            · rw [hname] at hround
              rcases hround with ⟨hstop, hnames⟩ | ⟨next, path, hnext, hlast, hwalk⟩
              · rw [hnames]
                exact iff_of_true ⟨cs, rfl⟩ (not_reachesLong_cons hshort hlook hstop)
              · have hgoes := @ih _ hshorter cur next c path _ rfl (fun names h => hok (c :: names) (by rw [hwalk, h]))
                rw [hrest] at hgoes
                rw [hwalk]
                dsimp only []
                rw [List.cons_prefix_cons, hgoes]
                by_cases hlink : fs.isLink next = true
                · -- the last name, and a link
                  have hcs : cs = [] := by
                    rw [← hrest, hlast hlink]
                    rfl
                  have hstop : ∀ n, look c = some (some n) → fs.isLink n = true := by
                    intro n h
                    rw [hnext] at h
                    exact Option.some.inj (Option.some.inj h) ▸ hlink
                  rw [hcs]
                  exact iff_of_true ⟨rfl, not_reachesLong_nil fs next⟩ (not_reachesLong_cons hshort hlook hstop)
                · rw [reachesLong_cons hshort hlook hnext (Bool.not_eq_true _ ▸ hlink)]
                  exact and_iff_right rfl
            · -- the name is not the whole component
              have hne : (compNext p).1 ≠ c := by
                rw [hname]
                intro h
                have := congrArg List.length h
                rw [List.length_take] at this
                omega
              have hhead : ∃ l, (walkText fs followFinal parent cur leaf parentPath p).1 = (compNext p).1 :: l := by
                rcases hround with ⟨_, hnames⟩ | ⟨next, path, _, _, hwalk⟩
                · exact ⟨[], hnames⟩
                · exact ⟨_, by rw [hwalk]⟩
              obtain ⟨l, hl⟩ := hhead
              rw [hl]
              refine iff_of_false (fun h => hne (List.cons_prefix_cons.mp h).1) ?_
              exact not_not.mpr ⟨[], c, cs, cur, rfl, hlong, .here cur, by rw [hlook]; rfl⟩

/-! ## A resolution -/

/-- The components of the path of a pass, below its mount point. -/
def Pass.comps (pass : Pass α) : List Text := parts (belowMount pass.current pass.mp)

theorem parts_mountRelative {current mp : Text} (h : current.length < vfsPathMax) :
    parts (mountRelative current mp) = parts (belowMount current mp) := by
  have hbelow : (belowMount current mp).length ≤ current.length := by
    unfold belowMount
    split
    · exact Nat.le_refl _
    · rw [List.length_drop]
      omega
  have hdrop : ((belowMount current mp).dropWhile (· = slash)).length ≤ (belowMount current mp).length :=
    (List.dropWhile_suffix _).length_le
  unfold mountRelative
  rw [List.take_of_length_le (by omega), parts_dropWhile]

theorem resolveText_iff {fs : Fs α} {mounts : List (MountRec α)} {cwd : Text} {followFinal : Bool} (left : Nat) :
    ∀ {current : Text} {passes : List (Pass α)} {r : PathRes α}, current.length < vfsPathMax →
      resolveText fs mounts cwd followFinal left current = (passes, some r) →
      ∀ pass ∈ passes, pass.names <+: pass.comps ↔ ¬ ReachesLong fs pass.root pass.comps := by
  induction left using Nat.strong_induction_on with
  | _ left ih =>
      intro current passes r hcurrent h
      rw [resolveText.eq_def] at h
      cases hmount : findMountFor mounts current with
      | none =>
          rw [hmount] at h
          cases h
      | some m =>
          rw [hmount] at h
          dsimp only [] at h
          cases hroot : m.root with
          | none =>
              rw [hroot] at h
              cases h
          | some root =>
              rw [hroot] at h
              dsimp only [] at h
              have hparts := @parts_mountRelative current m.mp hcurrent
              by_cases hrel : mountRelative current m.mp = []
              · -- the mount point itself
                rw [if_pos hrel] at h
                obtain ⟨rfl, -⟩ := Prod.mk.inj h
                intro pass hpass
                obtain rfl := List.mem_singleton.mp hpass
                rw [hrel] at hparts
                show [] <+: parts _ ↔ ¬ ReachesLong fs root (parts (belowMount current m.mp))
                rw [← hparts]
                exact iff_of_true List.nil_prefix (not_reachesLong_nil fs root)
              · rw [if_neg hrel] at h
                cases hset : pathSet vfsPathMax m.mp with
                | none =>
                    rw [hset] at h
                    cases h
                | some parentPath =>
                    rw [hset] at h
                    dsimp only [] at h
                    obtain ⟨w, hw⟩ : ∃ w, walkText fs followFinal root root [] parentPath (mountRelative current m.mp) = w := ⟨_, rfl⟩
                    have hpass : w.2 ≠ .fail → (w.1 <+: parts (belowMount current m.mp) ↔
                        ¬ ReachesLong fs root (parts (belowMount current m.mp))) := by
                      intro hok
                      rw [← hparts, ← hw]
                      exact walkText_iff _ rfl (fun names heq => hok (by rw [← hw, heq]))
                    rw [hw] at h
                    obtain ⟨names, outcome⟩ := w
                    cases outcome with
                    | fail => cases h
                    | found res =>
                        obtain ⟨rfl, -⟩ := Prod.mk.inj h
                        intro pass hmem
                        obtain rfl := List.mem_singleton.mp hmem
                        exact hpass (by simp)
                    | link expanded =>
                        cases left with
                        | zero => cases h
                        | succ left =>
                            dsimp only [] at h
                            by_cases hnext : vfsNormalizePath cwd expanded = []
                            · rw [if_pos hnext] at h
                              cases h
                            · rw [if_neg hnext] at h
                              obtain ⟨rfl, hr⟩ := Prod.mk.inj h
                              intro pass hmem
                              rcases List.mem_cons.mp hmem with rfl | hmem
                              · exact hpass (by simp)
                              · exact ih left (Nat.lt_succ_self left) (length_vfsNormalizePath cwd expanded)
                                  (Prod.ext rfl hr) pass hmem

/-- When the resolver does not fail, the names that it looks up in a pass are components of the path of
that pass, in order, exactly if no component of more than 255 bytes is reached. -/
theorem lookups_are_components_iff {fs : Fs α} {mounts : List (MountRec α)} {cwd path : Text} {followFinal : Bool}
    {passes : List (Pass α)} {r : PathRes α}
    (h : vfsResolvePathEx fs mounts cwd path followFinal = (passes, some r)) :
    ∀ pass ∈ passes, pass.names <+: pass.comps ↔ ¬ ReachesLong fs pass.root pass.comps := by
  unfold vfsResolvePathEx at h
  split at h
  · cases h
  · dsimp only [] at h
    split at h
    · cases h
    · exact resolveText_iff _ (length_vfsNormalizePath cwd path) h

/-- A file system with an empty root. -/
def emptyRoot : Fs Unit := ⟨fun _ => some (fun _ => some none), fun _ => false, fun _ => none⟩

theorem resolve_emptyRoot {name : Text} (hname : Plain name) (hlen : name.length + 1 < vfsPathMax) :
    vfsResolvePathEx emptyRoot [⟨[slash], some ()⟩] [slash] (slash :: name) true =
      ([⟨slash :: name, [slash], (), [name.take 255]⟩], some ⟨(), name.take 255, none⟩) := by
  have hslash := hname.1.slash_not_mem
  have hrender : render [name] = slash :: name := by simp [render]
  have hnormal : vfsNormalizePath [slash] (slash :: name) = slash :: name := by
    rw [← hrender]
    refine normalize_render (fun s hs => List.mem_singleton.mp hs ▸ hname) ?_ _
    rw [hrender]
    exact hlen
  have hall : ∀ c ∈ name, decide (c ≠ slash) = true := fun c hc => by simpa using fun heq : c = slash => hslash (heq ▸ hc)
  have hcomp : (compNext name).1 = name.take 255 := by
    unfold compNext
    rw [List.takeWhile_eq_self_iff.mpr hall]
  have hne : (compNext name).1 ≠ [] := by
    rw [hcomp]
    exact fun h => hname.1.1 ((List.take_eq_nil_iff.mp h).resolve_left (by decide))
  have hrel : mountRelative (slash :: name) [slash] = name := by
    unfold mountRelative belowMount
    obtain ⟨c, t, rfl⟩ := List.exists_cons_of_ne_nil hname.1.1
    have hc : c ≠ slash := by simpa using hall c (List.mem_cons_self ..)
    rw [if_pos rfl, List.dropWhile_cons_of_pos (by simp), List.dropWhile_cons_of_neg (by simpa using hc),
      List.take_of_length_le (by omega)]
  have hwalk : walkText emptyRoot true () () [] [slash] name = ([name.take 255], .found ⟨(), name.take 255, none⟩) := by
    rw [walkText, dif_neg hname.1.1]
    dsimp only []
    rw [if_neg hne, hcomp]
    rfl
  have hset : pathSet vfsPathMax [slash] = some [slash] := by decide
  have hmount : findMountFor [⟨[slash], some ()⟩] (slash :: name) = some (⟨[slash], some ()⟩ : MountRec Unit) := by
    unfold findMountFor
    rw [List.foldl_cons, List.foldl_nil, betterMount, if_pos rfl]
    rfl
  unfold vfsResolvePathEx
  rw [if_neg (List.cons_ne_nil _ _)]
  dsimp only []
  rw [hnormal, if_neg (List.cons_ne_nil _ _), resolveText.eq_def, hmount]
  dsimp only []
  rw [hrel, if_neg hname.1.1, hset]
  dsimp only []
  rw [hwalk]

theorem lookups_are_components_iff_one : ∃ passes r,
    vfsResolvePathEx emptyRoot [⟨[slash], some ()⟩] [slash] (slash :: [97]) true = (passes, some r) ∧
      ∀ pass ∈ passes, pass.names <+: pass.comps ↔ ¬ ReachesLong emptyRoot pass.root pass.comps := by
  have hname : Plain [97] := by
    refine ⟨⟨List.cons_ne_nil _ _, ?_⟩, ?_⟩
    · exact forall_mem_of_all (by decide)
    · decide
  have hrun := resolve_emptyRoot hname (by decide)
  exact ⟨_, _, hrun, lookups_are_components_iff hrun⟩

/-- A name of 300 bytes is looked up, and handed out to be created, as one of 255. -/
theorem long_name_shortened : ∃ passes r,
    vfsResolvePathEx emptyRoot [⟨[slash], some ()⟩] [slash] (slash :: List.replicate 300 97) true = (passes, some r) ∧
      ¬ ∀ pass ∈ passes, pass.names <+: pass.comps := by
  have hname : Plain (List.replicate (299 + 1) 97) := plain_replicate (by decide) (by decide)
  have hlen : (List.replicate 300 (97 : UInt8)).length + 1 < vfsPathMax := by
    rw [List.length_replicate]
    decide
  refine ⟨_, _, resolve_emptyRoot hname hlen, fun h => ?_⟩
  have hprefix := h _ (List.mem_singleton_self _)
  have hcomps : Pass.comps (⟨slash :: List.replicate 300 97, [slash], (), [(List.replicate 300 97).take 255]⟩ : Pass Unit) =
      [List.replicate 300 97] := by
    show parts (slash :: List.replicate 300 97) = _
    rw [parts_slash, parts_name hname.1.1 hname.1.slash_not_mem]
  rw [hcomps] at hprefix
  have heq := congrArg List.length (List.cons_prefix_cons.mp hprefix).1
  rw [List.length_take, List.length_replicate] at heq
  exact absurd heq (by decide)

end Guppy.Vfs.Tokens
