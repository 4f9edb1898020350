import Guppy.Lib.LongestPrefix
import Guppy.Vfs.Tokens

set_option autoImplicit false

/-! # The mount table

`vfs_mount_dev` and `vfs_umount` of `src/vfs.c` add a mount to the table and take one out, each for the
normalized path of its mount point. After any commands no mount point is there twice, and the router finds, for
a path that fits its buffer, the mount whose names are the longest prefix of those of the path, and what is left
of them below it (`mounts_route`).
-/

namespace Guppy.Vfs.Tokens

open LongestPrefix

/-! ## The code -/

/-- `mount_rec_t`, with what is shown to the user. -/
structure Mount (α : Type) extends MountRec α where
  src : Text
  fstype : Text
  opts : Text

/-- `filesystem_type_t`: `mount` gives the root, if there is one, and whether the file system is read-only; it
gives nothing when it fails. -/
structure FsType (α δ : Type) where
  name : Text
  mount : δ → Text → Option (Option α × Bool)

variable {α δ : Type}

/-- The letters of `ci_cmp`. -/
def lower (c : UInt8) : UInt8 := if 65 ≤ c ∧ c ≤ 90 then c + 32 else c

/-- `vfs_find_fs` -/
def vfsFindFs (types : List (FsType α δ)) (name : Text) : Option (FsType α δ) :=
  types.find? (fun f => f.name.map lower = name.map lower)

/-- `VFS_MAX_MOUNTS` -/
def vfsMaxMounts : Nat := 32

def readOnly : Text := [114, 111]
def readWrite : Text := [114, 119]

/-- `vfs_mount_dev` -/
def vfsMountDev (types : List (FsType α δ)) (cwd fstype src : Text) (dev : δ) (mountpoint opts : Text)
    (t : List (Mount α)) : Option (List (Mount α)) :=
  match vfsFindFs types fstype with
  | none => none
  | some fs =>
      let mp := vfsNormalizePath cwd mountpoint
      if t.any (fun m => m.mp = mp) = true then none
      else if vfsMaxMounts ≤ t.length then none
      else
        match fs.mount dev opts with
        | none => none
        | some (none, _) => none
        | some (some root, ro) =>
            let shown := if opts ≠ [] then opts else if ro = true then readOnly else readWrite
            some (t ++ [⟨⟨mp.take (vfsPathMax - 1), some root⟩, src.take 63, fstype.take 15, shown.take 63⟩])

/-- `vfs_umount`, and `vfs_unrecord_mount_by_target`, which does the same with the table. -/
def vfsUmount (cwd mountpoint : Text) (t : List (Mount α)) : Option (List (Mount α)) :=
  (t.findIdx? (fun m => m.mp = vfsNormalizePath cwd mountpoint)).map t.eraseIdx

/-- `vfs_register_mount`: new texts for a mount that is there. -/
def vfsRegisterMount (cwd src fstype target opts : Text) (t : List (Mount α)) : Option (List (Mount α)) :=
  let shown := if opts ≠ [] then opts else readWrite
  (t.findIdx? (fun m => m.mp = vfsNormalizePath cwd target)).map (fun i =>
    t.modify i (fun m => ⟨m.toMountRec, src.take 63, fstype.take 15, shown.take 63⟩))

/-- The commands, each with the working directory that it is given in. -/
inductive Command (α δ : Type)
  | mount (types : List (FsType α δ)) (cwd fstype src : Text) (dev : δ) (mountpoint opts : Text)
  | umount (cwd mountpoint : Text)
  | register (cwd src fstype target opts : Text)

/-- A command that fails leaves the table as it is. -/
def step (t : List (Mount α)) : Command α δ → List (Mount α)
  | .mount types cwd fstype src dev mountpoint opts => (vfsMountDev types cwd fstype src dev mountpoint opts t).getD t
  | .umount cwd mountpoint => (vfsUmount cwd mountpoint t).getD t
  | .register cwd src fstype target opts => (vfsRegisterMount cwd src fstype target opts t).getD t

def runMounts (cmds : List (Command α δ)) : List (Mount α) := cmds.foldl step []

/-- The mounts as the router sees them. -/
def records (t : List (Mount α)) : List (MountRec α) := t.map Mount.toMountRec

/-! ## Paths and their names -/

/-- A path that is the text of plain names and fits the buffer. -/
def Normal (p : Text) : Prop := ∃ st, (∀ s ∈ st, Plain s) ∧ p = render st ∧ p.length < vfsPathMax

/-- The names of the mount points. One that was given up as too long is empty and is the mount point of no path. -/
def keys (t : List (MountRec α)) : List (List Text) := (t.filter (fun m => m.mp ≠ [])).map (fun m => segments m.mp)

/-- The test of the router for a mount point. -/
def Covers (mp path : Text) : Prop :=
  mp = [slash] ∨ mp ≠ [] ∧ mp <+: path ∧
    ((path.drop mp.length).head? = none ∨ (path.drop mp.length).head? = some slash)

theorem normal_normalize {cwd path : Text} (h : vfsNormalizePath cwd path ≠ []) : Normal (vfsNormalizePath cwd path) :=
  ⟨_, walk_plain (segments_isName _) (by simp), normalize_eq_render h, length_vfsNormalizePath cwd path⟩

theorem mem_keys {t : List (MountRec α)} {m : MountRec α} (hm : m ∈ t) (hne : m.mp ≠ []) : segments m.mp ∈ keys t :=
  List.mem_map_of_mem (List.mem_filter.mpr ⟨hm, decide_eq_true hne⟩)

theorem exists_of_mem_keys {t : List (MountRec α)} {k : List Text} (hk : k ∈ keys t) :
    ∃ m ∈ t, m.mp ≠ [] ∧ segments m.mp = k := by
  obtain ⟨m, hm, hkey⟩ := List.mem_map.mp hk
  obtain ⟨hmem, hne⟩ := List.mem_filter.mp hm
  exact ⟨m, hmem, of_decide_eq_true hne, hkey⟩

theorem segments_plain {st : List Text} (h : ∀ s ∈ st, Plain s) : segments (render st) = st :=
  segments_render (fun s hs => (h s hs).1)

/-- A mount point covers the paths that go on from its names. -/
theorem covers_iff {ms st : List Text} (hms : ∀ s ∈ ms, Plain s) (hst : ∀ s ∈ st, Plain s) :
    Covers (render ms) (render st) ↔ ms <+: st := by
  constructor
  · rintro (hroot | ⟨-, ⟨rest, hrest⟩, hbound⟩)
    · have hnil : ms = [] := by
        rw [← segments_plain hms, hroot]
        decide
      exact hnil ▸ List.nil_prefix
    · rw [← hrest, List.drop_left] at hbound
      have hsegs := segments_plain hst
      rw [← hrest] at hsegs
      cases rest with
      | nil =>
          rw [List.append_nil, segments_plain hms] at hsegs
          exact hsegs ▸ List.prefix_rfl
      | cons c rest =>
          have hc : c = slash := by simpa using hbound
          rw [hc, segments_append _ _ isSep_slash, segments_plain hms] at hsegs
          exact ⟨segments rest, hsegs⟩
  · rintro ⟨st', rfl⟩
    by_cases hnil : ms = []
    · exact Or.inl (by rw [hnil]; rfl)
    · right
      refine ⟨render_ne_nil ms, ?_, ?_⟩
      · rw [render_of_ne hnil, render_of_ne (by simp [hnil]), List.flatMap_append]
        exact List.prefix_append ..
      · rw [render_of_ne hnil, render_of_ne (by simp [hnil]), List.flatMap_append, List.drop_left]
        cases st' with
        | nil => exact Or.inl rfl
        | cons s st' => exact Or.inr rfl

/-- Of two mount points that cover the same path, the longer text has more names. -/
theorem length_le_iff {ms ms' st : List Text} (hst : ∀ s ∈ st, s ≠ []) (h : ms <+: st) (h' : ms' <+: st) :
    (render ms').length ≤ (render ms).length ↔ ms'.length ≤ ms.length := by
  have hmono : ∀ {a b : List Text}, b <+: st → a <+: b → (render a).length ≤ (render b).length ∧
      ((render b).length ≤ (render a).length → b = a) := by
    rintro a _ hb ⟨c, rfl⟩
    have hac : ∀ s ∈ a ++ c, s ≠ [] := fun s hs => hst s (hb.subset hs)
    by_cases hc : c = []
    · rw [hc, List.append_nil]
      exact ⟨le_rfl, fun _ => rfl⟩
    · have hpos : 1 < (render c).length := (one_lt_length_render (fun s hs => hac s (List.mem_append_right _ hs))).mpr hc
      have hlong : (render a).length < (render (a ++ c)).length := by
        rw [length_render (List.append_ne_nil_of_right_ne_nil _ hc), size_append, ← length_render hc]
        by_cases ha : a = []
        · rw [ha]
          show 1 < 0 + _
          omega
        · rw [length_render ha]
          omega
      exact ⟨le_of_lt hlong, fun hle => absurd hle (Nat.not_le.mpr hlong)⟩
  rcases List.prefix_or_prefix_of_prefix h h' with hpre | hpre
  · refine ⟨fun hle => ?_, fun hle => ?_⟩
    · rw [(hmono h' hpre).2 hle]
    · rw [hpre.eq_of_length (le_antisymm hpre.length_le hle)]
  · exact iff_of_true (hmono h hpre).1 hpre.length_le

/-! ## The router -/

section Route

variable {path : Text} {t : List (MountRec α)}

/-- What the loop has found in the mounts that it has looked at. -/
inductive Chosen (path : Text) (l : List (MountRec α)) : Option (MountRec α) × Nat → Prop
  | none (h : ∀ m ∈ l, ¬ Covers m.mp path) : Chosen path l (none, 0)
  | some {m : MountRec α} (hm : m ∈ l) (hcovers : Covers m.mp path)
      (hlong : ∀ m' ∈ l, Covers m'.mp path → m'.mp.length ≤ m.mp.length) : Chosen path l (some m, m.mp.length)

theorem Covers.length_pos {mp : Text} (h : Covers mp path) : 0 < mp.length := by
  rcases h with h | h
  · rw [h]
    exact Nat.one_pos
  · exact List.length_pos_iff.mpr h.1

theorem betterMount_chosen {l : List (MountRec α)} {best : Option (MountRec α) × Nat} (h : Chosen path l best)
    (m : MountRec α) : Chosen path (l ++ [m]) (betterMount path best m) := by
  -- the best one stays, or the new one is longer than all before it
  have hstay : (Covers m.mp path → m.mp.length ≤ best.2) → Chosen path (l ++ [m]) best := by
    intro hshort
    cases h with
    | none h =>
        refine Chosen.none (fun m' hm' hc => ?_)
        rcases List.mem_append.mp hm' with hm' | hm'
        · exact h m' hm' hc
        · obtain rfl := List.mem_singleton.mp hm'
          exact absurd (hshort hc) (Nat.not_le.mpr hc.length_pos)
    | some hm hcovers hlong =>
        refine Chosen.some (List.mem_append_left _ hm) hcovers (fun m' hm' hc => ?_)
        rcases List.mem_append.mp hm' with hm' | hm'
        · exact hlong m' hm' hc
        · obtain rfl := List.mem_singleton.mp hm'
          exact hshort hc
  have htake : Covers m.mp path → best.2 < m.mp.length → Chosen path (l ++ [m]) (some m, m.mp.length) := by
    intro hcovers hlonger
    refine Chosen.some (List.mem_append_right _ (List.mem_singleton_self m)) hcovers (fun m' hm' hc => ?_)
    rcases List.mem_append.mp hm' with hm' | hm'
    · cases h with
      | none h => exact absurd hc (h m' hm')
      | some _ _ hlong => exact (hlong m' hm' hc).trans (le_of_lt hlonger)
    · rw [List.mem_singleton.mp hm']
  unfold betterMount
  by_cases hroot : m.mp = [slash]
  · rw [if_pos hroot]
    have hlen : m.mp.length = 1 := by rw [hroot]; rfl
    by_cases hnone : best.1.isNone = true
    · rw [if_pos hnone, ← hlen]
      refine htake (Or.inl hroot) ?_
      cases h with
      | none h => exact hlen ▸ Nat.one_pos
      | some _ _ _ => cases hnone
    · rw [if_neg hnone]
      refine hstay (fun _ => ?_)
      cases h with
      | none h => exact absurd rfl hnone
      | some _ hcovers _ => exact hlen ▸ hcovers.length_pos
  · rw [if_neg hroot]
    split
    · rename_i hbetter
      exact htake (Or.inr ⟨List.length_pos_iff.mp (by omega), hbetter.1, hbetter.2.1⟩) hbetter.2.2
    · rename_i hworse
      refine hstay (fun hc => ?_)
      rcases hc with hc | hc
      · exact absurd hc hroot
      · exact not_lt.mp (fun hlt => hworse ⟨hc.2.1, hc.2.2, hlt⟩)

theorem findMountFor_chosen : Chosen path t (t.foldl (betterMount path) (none, 0)) := by
  induction t using List.reverseRecOn with
  | nil => exact Chosen.none (fun m hm => absurd hm List.not_mem_nil)
  | append_singleton t m ih =>
      rw [List.foldl_concat]
      exact betterMount_chosen ih m

section Sound

variable {st : List Text} (hn : ∀ m ∈ t, m.mp = [] ∨ Normal m.mp) (hst : ∀ s ∈ st, Plain s)

include hn hst

theorem covers_iff_mem {m : MountRec α} (hm : m ∈ t) : Covers m.mp (render st) ↔ m.mp ≠ [] ∧ segments m.mp <+: st := by
  rcases hn m hm with hempty | ⟨ms, hms, hmp, -⟩
  · rw [hempty]
    refine iff_of_false ?_ (fun h => h.1 rfl)
    rintro (h | h)
    · cases h
    · exact h.1 rfl
  · rw [hmp, covers_iff hms hst, segments_plain hms]
    exact ⟨fun h => ⟨render_ne_nil ms, h⟩, fun h => h.2⟩

theorem best_iff {m : MountRec α} (hm : m ∈ t) (hne : m.mp ≠ []) : Best (keys t) st (segments m.mp) ↔
    Covers m.mp (render st) ∧ ∀ m' ∈ t, Covers m'.mp (render st) → m'.mp.length ≤ m.mp.length := by
  have hlen : ∀ m' ∈ t, Covers m'.mp (render st) → Covers m.mp (render st) →
      (m'.mp.length ≤ m.mp.length ↔ (segments m'.mp).length ≤ (segments m.mp).length) := by
    intro m' hm' hc' hc
    have hc' := (covers_iff_mem hn hst hm').mp hc'
    have hc := (covers_iff_mem hn hst hm).mp hc
    obtain ⟨ms', hms', hmp', -⟩ := (hn m' hm').resolve_left hc'.1
    obtain ⟨ms, hms, hmp, -⟩ := (hn m hm).resolve_left hne
    rw [hmp', segments_plain hms'] at hc'
    rw [hmp, segments_plain hms] at hc
    rw [hmp', hmp, segments_plain hms', segments_plain hms]
    exact length_le_iff (fun s hs => (hst s hs).1.1) hc.2 hc'.2
  constructor
  · rintro ⟨-, hpre, hlong⟩
    have hcovers := (covers_iff_mem hn hst hm).mpr ⟨hne, hpre⟩
    refine ⟨hcovers, fun m' hm' hc' => (hlen m' hm' hc' hcovers).mpr ?_⟩
    have hc := (covers_iff_mem hn hst hm').mp hc'
    exact hlong _ (mem_keys hm' hc.1) hc.2
  · rintro ⟨hcovers, hlong⟩
    refine ⟨mem_keys hm hne, ((covers_iff_mem hn hst hm).mp hcovers).2, fun k hk hpre => ?_⟩
    obtain ⟨m', hm', hne', rfl⟩ := exists_of_mem_keys hk
    have hc' := (covers_iff_mem hn hst hm').mpr ⟨hne', hpre⟩
    exact (hlen m' hm' hc' hcovers).mp (hlong m' hm' hc')

/-- The router finds the mount whose names are the longest prefix. -/
theorem findMountFor_iff (hd : (t.map (fun m => m.mp)).Nodup) {m : MountRec α} : findMountFor t (render st) = some m ↔
    m ∈ t ∧ m.mp ≠ [] ∧ Best (keys t) st (segments m.mp) := by
  have hchosen := @findMountFor_chosen _ (render st) t
  unfold findMountFor
  constructor
  · intro h
    generalize t.foldl (betterMount (render st)) (none, 0) = best at hchosen h
    cases hchosen with
    | none _ => cases h
    | some hm hcovers hlong =>
        cases h
        have hne := ((covers_iff_mem hn hst hm).mp hcovers).1
        exact ⟨hm, hne, (best_iff hn hst hm hne).mpr ⟨hcovers, hlong⟩⟩
  · rintro ⟨hm, hne, hbest⟩
    have hcovers := ((best_iff hn hst hm hne).mp hbest).1
    generalize t.foldl (betterMount (render st)) (none, 0) = best at hchosen
    cases hchosen with
    | none hnone => exact absurd hcovers (hnone m hm)
    | @some m' hm' hcovers' hlong' =>
        have hne' := ((covers_iff_mem hn hst hm').mp hcovers').1
        have hbest' := (best_iff hn hst hm' hne').mpr ⟨hcovers', hlong'⟩
        -- the names are the same, and so the texts
        obtain ⟨ms, hms, hmp, -⟩ := (hn m hm).resolve_left hne
        obtain ⟨ms', hms', hmp', -⟩ := (hn m' hm').resolve_left hne'
        have hsegs := hbest.unique hbest'
        rw [hmp, hmp', segments_plain hms, segments_plain hms'] at hsegs
        have hsame : m' = m := List.inj_on_of_nodup_map hd hm' hm (by rw [hmp, hmp', hsegs])
        rw [hsame]

/-- It finds none when no mount point is a prefix. -/
theorem findMountFor_eq_none (hd : (t.map (fun m => m.mp)).Nodup) : findMountFor t (render st) = none ↔
    ∀ k ∈ keys t, ¬ k <+: st := by
  constructor
  · intro hnone k hk hpre
    obtain ⟨k', hbest⟩ := exists_best ⟨k, hk, hpre⟩
    obtain ⟨m, hm, hne, rfl⟩ := exists_of_mem_keys hbest.mem
    have hsome := (findMountFor_iff hn hst hd).mpr ⟨hm, hne, hbest⟩
    rw [hnone] at hsome
    cases hsome
  · intro h
    by_contra hfound
    obtain ⟨m, hm⟩ := Option.ne_none_iff_exists'.mp hfound
    have hbest := ((findMountFor_iff hn hst hd).mp hm).2.2
    exact h _ hbest.mem hbest.isPrefix

/-- A mount that is added takes the paths that it covers and that no longer one does. -/
theorem findMountFor_append (hd : (t.map (fun m => m.mp)).Nodup) {m : MountRec α} (hm : m.mp = [] ∨ Normal m.mp)
    (hnew : m.mp ∉ t.map (fun m => m.mp)) : findMountFor (t ++ [m]) (render st) =
      if m.mp ≠ [] ∧ segments m.mp <+: st ∧ ∀ k ∈ keys t, k <+: st → k.length ≤ (segments m.mp).length then some m
      else findMountFor t (render st) := by
  have hn' : ∀ m' ∈ t ++ [m], m'.mp = [] ∨ Normal m'.mp := by
    intro m' hm'
    rcases List.mem_append.mp hm' with hm' | hm'
    · exact hn m' hm'
    · exact List.mem_singleton.mp hm' ▸ hm
  have hd' : ((t ++ [m]).map (fun m => m.mp)).Nodup := by
    rw [List.map_append, List.map_singleton]
    exact List.nodup_append'.mpr ⟨hd, List.nodup_singleton _, List.disjoint_singleton.mpr hnew⟩
  have hkeys : ∀ k ∈ keys (t ++ [m]), k ∈ keys t ∨ m.mp ≠ [] ∧ k = segments m.mp := by
    intro k hk
    obtain ⟨m', hm', hne, hkey⟩ := exists_of_mem_keys hk
    rcases List.mem_append.mp hm' with hm' | hm'
    · exact Or.inl (hkey ▸ mem_keys hm' hne)
    · obtain rfl := List.mem_singleton.mp hm'
      exact Or.inr ⟨hne, hkey.symm⟩
  split
  · rename_i h
    have hmem := List.mem_append_right t (List.mem_singleton_self m)
    refine (findMountFor_iff hn' hst hd').mpr ⟨hmem, h.1, mem_keys hmem h.1, h.2.1, fun k hk hpre => ?_⟩
    rcases hkeys k hk with hk | ⟨-, rfl⟩
    · exact h.2.2 k hk hpre
    · exact le_rfl
  · rename_i h
    -- the one that was found before is longer, or the new one covers nothing
    have hlonger : m.mp ≠ [] → segments m.mp <+: st → ∃ k ∈ keys t, k <+: st ∧ (segments m.mp).length < k.length := by
      intro hne hpre
      by_contra hall
      exact h ⟨hne, hpre, fun k hk hpre' => not_lt.mp (fun hlt => hall ⟨k, hk, hpre', hlt⟩)⟩
    cases hfound : findMountFor t (render st) with
    | none =>
        have hnone := (findMountFor_eq_none hn hst hd).mp hfound
        refine (findMountFor_eq_none hn' hst hd').mpr (fun k hk hpre => ?_)
        rcases hkeys k hk with hk | ⟨hne, rfl⟩
        · exact hnone k hk hpre
        · obtain ⟨k, hk, hpre, -⟩ := hlonger hne hpre
          exact hnone k hk hpre
    | some m' =>
        obtain ⟨hm', hne', hbest⟩ := (findMountFor_iff hn hst hd).mp hfound
        have hmem := List.mem_append_left [m] hm'
        refine (findMountFor_iff hn' hst hd').mpr ⟨hmem, hne', mem_keys hmem hne', hbest.isPrefix, fun k hk hpre => ?_⟩
        rcases hkeys k hk with hk | ⟨hne, rfl⟩
        · exact hbest.longest k hk hpre
        · obtain ⟨k, hk, hpre, hlt⟩ := hlonger hne hpre
          exact (le_of_lt hlt).trans (hbest.longest k hk hpre)

/-- A mount that is taken away is missed only by the paths that it was found for. -/
theorem findMountFor_of_sublist (hd : (t.map (fun m => m.mp)).Nodup) {t' : List (MountRec α)} (hsub : t'.Sublist t)
    (hfound : ∀ m, findMountFor t (render st) = some m → m ∈ t') :
    findMountFor t' (render st) = findMountFor t (render st) := by
  have hn' : ∀ m ∈ t', m.mp = [] ∨ Normal m.mp := fun m hm => hn m (hsub.subset hm)
  have hd' : (t'.map (fun m => m.mp)).Nodup := hd.sublist (hsub.map _)
  have hkeys : keys t' ⊆ keys t := List.map_subset _ (hsub.filter _).subset
  cases hbefore : findMountFor t (render st) with
  | none =>
      exact (findMountFor_eq_none hn' hst hd').mpr
        (fun k hk => (findMountFor_eq_none hn hst hd).mp hbefore k (hkeys hk))
  | some m =>
      obtain ⟨-, hne, hbest⟩ := (findMountFor_iff hn hst hd).mp hbefore
      have hm := hfound m hbefore
      exact (findMountFor_iff hn' hst hd').mpr ⟨hm, hne, hbest.mono hkeys (mem_keys hm hne)⟩

end Sound

end Route

/-! ## What is below a mount point -/

theorem dropWhile_slash_render {st : List Text} (h : ∀ s ∈ st, Plain s) :
    (st.flatMap (fun s => slash :: s)).dropWhile (· = slash) = restText st ∧
      (render st).dropWhile (· = slash) = restText st := by
  cases st with
  | nil => exact ⟨rfl, by decide⟩
  | cons s st =>
      obtain ⟨⟨hne, hsep⟩, -⟩ := h s (List.mem_cons_self ..)
      obtain ⟨c, s, rfl⟩ := List.exists_cons_of_ne_nil hne
      have hc : c ≠ slash := by
        rintro rfl
        have := hsep slash (List.mem_cons_self ..)
        rw [isSep_slash] at this
        cases this
      rw [restText, render_of_ne (List.cons_ne_nil _ _), List.flatMap_cons]
      have hdrop : (slash :: (c :: s) ++ st.flatMap (fun s => slash :: s)).dropWhile (· = slash) =
          (c :: s) ++ st.flatMap (fun s => slash :: s) := by
        rw [List.cons_append, List.dropWhile_cons_of_pos (by simp), List.cons_append,
          List.dropWhile_cons_of_neg (by simpa using hc)]
      exact ⟨hdrop, hdrop⟩

/-- The names of the path that are left below the mount point. -/
theorem mountRelative_render {ms rest : List Text} (h : ∀ s ∈ ms ++ rest, Plain s)
    (hfit : (render (ms ++ rest)).length < vfsPathMax) :
    mountRelative (render (ms ++ rest)) (render ms) = restText rest := by
  have hrest : ∀ s ∈ rest, Plain s := fun s hs => h s (List.mem_append_right _ hs)
  have hbelow : (belowMount (render (ms ++ rest)) (render ms)).dropWhile (· = slash) = restText rest := by
    unfold belowMount
    by_cases hms : ms = []
    · have hroot : render ms = [slash] := by rw [hms]; rfl
      rw [if_pos hroot, hms, List.nil_append]
      exact (dropWhile_slash_render hrest).2
    · have hlong := (one_lt_length_render (fun s hs => (h s (List.mem_append_left _ hs)).1.1)).mpr hms
      have hroot : render ms ≠ [slash] := fun hroot => by
        rw [hroot] at hlong
        exact absurd hlong (lt_irrefl 1)
      rw [if_neg hroot, render_of_ne hms, render_of_ne (List.append_ne_nil_of_left_ne_nil hms _), List.flatMap_append,
        List.drop_left]
      exact (dropWhile_slash_render hrest).1
  have hlen : (restText rest).length ≤ (render (ms ++ rest)).length := by
    rw [← hbelow]
    refine (List.dropWhile_suffix _).length_le.trans ?_
    unfold belowMount
    split
    · exact le_rfl
    · rw [List.length_drop]
      omega
  unfold mountRelative
  rw [hbelow, List.take_of_length_le (by omega)]

/-! ## The table -/

/-- What the commands keep. -/
structure Sound (t : List (Mount α)) : Prop where
  room : t.length ≤ vfsMaxMounts
  once : ((records t).map (fun m => m.mp)).Nodup
  normal : ∀ m ∈ records t, m.mp = [] ∨ Normal m.mp
  rooted : ∀ m ∈ records t, m.root.isSome

section Commands

variable {types : List (FsType α δ)} {cwd fstype src mountpoint opts : Text} {dev : δ} {t t' : List (Mount α)}

theorem vfsMountDev_eq_some (h : vfsMountDev types cwd fstype src dev mountpoint opts t = some t') :
    ∃ m, t' = t ++ [m] ∧ m.mp = vfsNormalizePath cwd mountpoint ∧ m.root.isSome ∧ t.length < vfsMaxMounts ∧
      m.mp ∉ (records t).map (fun m => m.mp) := by
  unfold vfsMountDev at h
  cases hfs : vfsFindFs types fstype with
  | none =>
      rw [hfs] at h
      cases h
  | some fs =>
      rw [hfs] at h
      dsimp only at h
      split at h
      · cases h
      · rename_i hfree
        split at h
        · cases h
        · rename_i hroom
          have htake : (vfsNormalizePath cwd mountpoint).take (vfsPathMax - 1) = vfsNormalizePath cwd mountpoint :=
            List.take_of_length_le (Nat.le_sub_one_of_lt (length_vfsNormalizePath cwd mountpoint))
          split at h
          · cases h
          · cases h
          · cases h
            refine ⟨_, rfl, htake, rfl, Nat.not_le.mp hroom, fun hmem => hfree ?_⟩
            obtain ⟨r, hr, hmp⟩ := List.mem_map.mp hmem
            obtain ⟨m, hm, rfl⟩ := List.mem_map.mp hr
            exact List.any_eq_true.mpr ⟨m, hm, decide_eq_true (hmp.trans htake)⟩

theorem vfsUmount_eq_some (h : vfsUmount cwd mountpoint t = some t') :
    ∃ l m l', t = l ++ m :: l' ∧ t' = l ++ l' ∧ m.mp = vfsNormalizePath cwd mountpoint := by
  obtain ⟨i, hi, rfl⟩ := Option.map_eq_some_iff.mp h
  obtain ⟨hlt, hmp, -⟩ := List.findIdx?_eq_some_iff_getElem.mp hi
  refine ⟨t.take i, t[i], t.drop (i + 1), ?_, List.eraseIdx_eq_take_drop_succ .., of_decide_eq_true hmp⟩
  rw [← List.drop_eq_getElem_cons hlt, List.take_append_drop]

theorem records_vfsRegisterMount (h : vfsRegisterMount cwd src fstype mountpoint opts t = some t') :
    records t' = records t := by
  obtain ⟨i, -, rfl⟩ := Option.map_eq_some_iff.mp h
  refine List.ext_getElem? (fun j => ?_)
  rw [records, records, List.getElem?_map, List.getElem?_map, List.getElem?_modify]
  split <;> cases t[j]? <;> rfl

/-- A command keeps what the table is. -/
theorem step_sound (h : Sound t) (c : Command α δ) : Sound (step t c) := by
  cases c with
  | mount types cwd fstype src dev mountpoint opts =>
      show Sound ((vfsMountDev types cwd fstype src dev mountpoint opts t).getD t)
      cases hmount : vfsMountDev types cwd fstype src dev mountpoint opts t with
      | none => exact h
      | some t' =>
          obtain ⟨m, rfl, hmp, hroot, hroom, hnew⟩ := vfsMountDev_eq_some hmount
          have hrecords : records (t ++ [m]) = records t ++ [m.toMountRec] := List.map_append
          refine ⟨?_, ?_, fun r hr => ?_, fun r hr => ?_⟩
          · rw [Option.getD_some, List.length_append]
            exact hroom
          · rw [Option.getD_some, hrecords, List.map_append, List.map_singleton]
            exact List.nodup_append'.mpr ⟨h.once, List.nodup_singleton _, List.disjoint_singleton.mpr hnew⟩
          · rw [Option.getD_some, hrecords] at hr
            rcases List.mem_append.mp hr with hr | hr
            · exact h.normal r hr
            · rw [List.mem_singleton.mp hr, hmp]
              exact (em _).imp_right normal_normalize
          · rw [Option.getD_some, hrecords] at hr
            rcases List.mem_append.mp hr with hr | hr
            · exact h.rooted r hr
            · exact List.mem_singleton.mp hr ▸ hroot
  | umount cwd mountpoint =>
      show Sound ((vfsUmount cwd mountpoint t).getD t)
      cases humount : vfsUmount cwd mountpoint t with
      | none => exact h
      | some t' =>
          obtain ⟨l, m, l', rfl, rfl, -⟩ := vfsUmount_eq_some humount
          have hsub : (l ++ l').Sublist (l ++ m :: l') := (List.sublist_cons_self m l').append_left l
          have hrec : (records (l ++ l')).Sublist (records (l ++ m :: l')) := hsub.map _
          exact ⟨hsub.length_le.trans h.room, h.once.sublist (hrec.map _), fun r hr => h.normal r (hrec.subset hr),
            fun r hr => h.rooted r (hrec.subset hr)⟩
  | register cwd src fstype target opts =>
      show Sound ((vfsRegisterMount cwd src fstype target opts t).getD t)
      cases hregister : vfsRegisterMount cwd src fstype target opts t with
      | none => exact h
      | some t' =>
          have hrec := records_vfsRegisterMount hregister
          have hlen : t'.length = t.length := by
            have hlen := congrArg List.length hrec
            rwa [records, records, List.length_map, List.length_map] at hlen
          exact ⟨hlen ▸ h.room, hrec ▸ h.once, hrec ▸ h.normal, hrec ▸ h.rooted⟩

theorem runMounts_sound (cmds : List (Command α δ)) : Sound (runMounts cmds) := by
  induction cmds using List.reverseRecOn with
  | nil => exact ⟨Nat.zero_le _, List.nodup_nil, fun m hm => absurd hm List.not_mem_nil, fun m hm => absurd hm List.not_mem_nil⟩
  | append_singleton cmds c ih =>
      unfold runMounts at ih ⊢
      rw [List.foldl_concat]
      exact step_sound ih c

/-- The mount that was made last is taken away again. -/
theorem vfsUmount_append {m : Mount α} (hmp : m.mp = vfsNormalizePath cwd mountpoint)
    (hnew : m.mp ∉ (records t).map (fun m => m.mp)) : vfsUmount cwd mountpoint (t ++ [m]) = some t := by
  have hold : t.findIdx? (fun m => m.mp = vfsNormalizePath cwd mountpoint) = none := by
    refine List.findIdx?_eq_none_iff.mpr (fun m' hm' => decide_eq_false (fun hmp' => hnew ?_))
    rw [hmp, ← hmp']
    exact List.mem_map_of_mem (List.mem_map_of_mem hm')
  have hlast : [m].findIdx? (fun m => m.mp = vfsNormalizePath cwd mountpoint) = some 0 := by
    rw [List.findIdx?_cons, if_pos (decide_eq_true hmp)]
  unfold vfsUmount
  rw [List.findIdx?_append, hold, hlast, Option.none_or, Option.map_some, Option.map_some, Nat.zero_add,
    List.eraseIdx_append_of_length_le le_rfl, Nat.sub_self]
  exact congrArg some (List.append_nil t)

end Commands

/-! ## The mount table and the router -/

/-- After any commands the router finds the mount with the longest prefix, and the names below it. -/
theorem mounts_route (cmds : List (Command α δ)) : Sound (runMounts cmds) ∧
    ∀ st, (∀ s ∈ st, Plain s) → (render st).length < vfsPathMax →
      (∀ m, findMountFor (records (runMounts cmds)) (render st) = some m ↔
        m ∈ records (runMounts cmds) ∧ m.mp ≠ [] ∧ Best (keys (records (runMounts cmds))) st (segments m.mp)) ∧
      ∀ m, findMountFor (records (runMounts cmds)) (render st) = some m →
        mountRelative (render st) m.mp = restText (st.drop (segments m.mp).length) := by
  have hsound := runMounts_sound cmds
  refine ⟨hsound, fun st hst hfit => ⟨fun m => findMountFor_iff hsound.normal hst hsound.once, fun m hm => ?_⟩⟩
  obtain ⟨hmem, hne, hbest⟩ := (findMountFor_iff hsound.normal hst hsound.once).mp hm
  obtain ⟨ms, hms, hmp, -⟩ := (hsound.normal m hmem).resolve_left hne
  obtain ⟨rest, rfl⟩ := hbest.isPrefix
  rw [hmp, segments_plain hms] at hst hfit ⊢
  rw [List.drop_left]
  exact mountRelative_render hst hfit

/-- A file system with one directory, which is mounted on any device. -/
def unitFs : FsType Unit Unit := ⟨[102], fun _ _ => some (some (), false)⟩

theorem plain_singleton {c : UInt8} (hc : isSep c = false) (hdot : c ≠ dot) : Plain [c] :=
  plain_replicate (n := 0) hc hdot

theorem plain_two : ∀ s ∈ ([[97], [98]] : List Text), Plain s := by
  intro s hs
  rcases List.mem_pair.mp hs with rfl | rfl
  · exact plain_singleton (by decide) (by decide)
  · exact plain_singleton (by decide) (by decide)

/-- The mounts of a root and of a directory `a`. -/
def rootAndA : List (Command Unit Unit) := [
  .mount [unitFs] [slash] [102] [] () [slash] [], .mount [unitFs] [slash] [102] [] () [slash, 97] []]

theorem mounts_route_two : findMountFor (records (runMounts rootAndA)) (render [[97], [98]]) =
      some ⟨[slash, 97], some ()⟩ ∧
    mountRelative (render [[97], [98]]) [slash, 97] = [98] := by
  have hfound : findMountFor (records (runMounts rootAndA)) (render [[97], [98]]) = some ⟨[slash, 97], some ()⟩ := by
    rfl
  exact ⟨hfound, ((mounts_route rootAndA).2 _ plain_two (by decide)).2 _ hfound⟩

/-- A mount takes the paths below its mount point that no longer mount point has, until it is taken away; a mount
that is taken away is missed by no other path. -/
theorem commands_reroute (cmds : List (Command α δ)) :
    (∀ (types : List (FsType α δ)) cwd fstype src dev mountpoint opts t',
      vfsMountDev types cwd fstype src dev mountpoint opts (runMounts cmds) = some t' →
        vfsUmount cwd mountpoint t' = some (runMounts cmds) ∧
        ∃ m, m.mp = vfsNormalizePath cwd mountpoint ∧ ∀ st, (∀ s ∈ st, Plain s) →
          findMountFor (records t') (render st) =
            if m.mp ≠ [] ∧ segments m.mp <+: st ∧
              ∀ k ∈ keys (records (runMounts cmds)), k <+: st → k.length ≤ (segments m.mp).length then some m
            else findMountFor (records (runMounts cmds)) (render st)) ∧
    ∀ cwd mountpoint t', vfsUmount cwd mountpoint (runMounts cmds) = some t' →
      ∀ st, (∀ s ∈ st, Plain s) →
        (∀ m, findMountFor (records (runMounts cmds)) (render st) = some m → m.mp ≠ vfsNormalizePath cwd mountpoint) →
          findMountFor (records t') (render st) = findMountFor (records (runMounts cmds)) (render st) := by
  have hsound := runMounts_sound cmds
  constructor
  · intro types cwd fstype src dev mountpoint opts t' h
    obtain ⟨m, rfl, hmp, -, -, hnew⟩ := vfsMountDev_eq_some h
    refine ⟨vfsUmount_append hmp hnew, m.toMountRec, hmp, fun st hst => ?_⟩
    rw [show records (runMounts cmds ++ [m]) = records (runMounts cmds) ++ [m.toMountRec] from List.map_append]
    refine findMountFor_append hsound.normal hst hsound.once ?_ hnew
    rw [hmp]
    exact (em _).imp_right normal_normalize
  · intro cwd mountpoint t' h st hst hother
    obtain ⟨l, m, l', hbefore, rfl, hmp⟩ := vfsUmount_eq_some h
    rw [hbefore] at hsound hother ⊢
    have hsub : (l ++ l').Sublist (l ++ m :: l') := (List.sublist_cons_self m l').append_left l
    refine findMountFor_of_sublist hsound.normal hst hsound.once (hsub.map _) (fun r hr => ?_)
    obtain ⟨hmem, -, -⟩ := (findMountFor_iff hsound.normal hst hsound.once).mp hr
    obtain ⟨m', hm', rfl⟩ := List.mem_map.mp hmem
    refine List.mem_map_of_mem ?_
    rcases List.mem_append.mp hm' with hm' | hm'
    · exact List.mem_append_left _ hm'
    · rcases List.mem_cons.mp hm' with rfl | hm'
      · exact absurd hmp (hother _ hr)
      · exact List.mem_append_right _ hm'

theorem commands_reroute_two : vfsUmount [slash] [slash, 97] (runMounts rootAndA) = some (runMounts (rootAndA.take 1)) ∧
    findMountFor (records (runMounts (rootAndA.take 1))) (render [[98], [97]]) =
      findMountFor (records (runMounts rootAndA)) (render [[98], [97]]) := by
  have humount : vfsUmount [slash] [slash, 97] (runMounts rootAndA) = some (runMounts (rootAndA.take 1)) :=
    ((commands_reroute (rootAndA.take 1)).1 [unitFs] [slash] [102] [] () [slash, 97] [] _ rfl).1
  have hst : ∀ s ∈ ([[98], [97]] : List Text), Plain s := fun s hs =>
    plain_two s (List.mem_pair.mpr (List.mem_pair.mp hs).symm)
  have hroot : findMountFor (records (runMounts rootAndA)) (render [[98], [97]]) = some ⟨[slash], some ()⟩ := by
    rfl
  refine ⟨humount, (commands_reroute rootAndA).2 [slash] [slash, 97] _ humount _ hst (fun m hm => ?_)⟩
  rw [hroot] at hm
  cases hm
  decide

end Guppy.Vfs.Tokens
