import Guppy.Iso.Walk
import Mathlib.Data.List.TakeWhile

set_option autoImplicit false

/-! # Paths of an ISO 9660 image

`iso_stat_path`, `iso_lookup_dir` and `iso_read_file_by_path` of `src/iso9660.c`. Both entry
points cut the path at its last slash. `iso_stat_path` looks the directory part up and then the
name in that directory; `iso_read_file_by_path` looks the name up in the root directory, whatever
the directory part is.

Over the code stands a resolver that keeps the directories it came through: `.` stays, `..` goes
back to the directory above, and any other name is looked up where the walk stands.
-/

namespace Guppy.Iso

open Vfs

/-- Where the data of a file or of a directory is. -/
structure Extent where
  lba : UInt32
  size : UInt32
  deriving DecidableEq

/-- The results of `iso_stat_path`. -/
structure Stat where
  extent : Extent
  isDir : Bool
  deriving DecidableEq

def Child.extent (c : Child) : Extent := ⟨UInt32.ofNat c.lba, UInt32.ofNat c.size⟩

/-- `flags & 0x02` -/
def Child.isDir (c : Child) : Bool := c.flags.testBit 1

def Child.stat (c : Child) : Stat := ⟨c.extent, c.isDir⟩

/-! ## The code -/

/-- `iso_walk_component` returns 1. -/
def walkFound (iso : Image) (fuel : Nat) (dir : Extent) (want : Text) : Option Child :=
  match isoWalkComponent iso fuel dir.lba dir.size want with
  | .found c => some c
  | _ => none

/-- The components that `iso_lookup_dir` passes over. -/
def passedOver (comp : Text) : Prop := comp = [] ∨ comp = [dot] ∨ comp = dotdot

instance (comp : Text) : Decidable (passedOver comp) := by unfold passedOver; infer_instance

/-- The loop of `iso_lookup_dir`, with a buffer of 256 bytes for a component. -/
def lookupLoop (iso : Image) (fuel : Nat) : Nat → Text → Extent → Option Extent
  | 0, _, cur => some cur
  | n + 1, p, cur =>
      if p = [] then some cur
      else
        let comp := (p.takeWhile (· ≠ slash)).take 255
        let p := (p.drop comp.length).dropWhile (· = slash)
        if passedOver comp then lookupLoop iso fuel n p cur
        else
          match walkFound iso fuel cur comp with
          | some c => if c.isDir = true then lookupLoop iso fuel n p c.extent else none
          | none => none

/-- `iso_lookup_dir`. Every iteration takes at least one byte of the path. -/
def isoLookupDir (iso : Image) (fuel : Nat) (root : Extent) (dirpath : Text) : Option Extent :=
  if dirpath.head? = some slash then
    let p := dirpath.dropWhile (· = slash)
    lookupLoop iso fuel p.length p root
  else none

/-- What follows the last slash. -/
def lastPart (path : Text) : Text := (path.reverse.takeWhile (· ≠ slash)).reverse

/-- `iso_stat_path` on a filesystem with the given root directory. -/
def isoStatPath (iso : Image) (fuel : Nat) (root : Extent) (path : Text) : Option Stat := do
  guard (path.head? = some slash)
  let last := lastPart path.tail
  -- the place of the last slash, when the path has one after the first
  let n := path.length - last.length - 1
  let dir ←
    if slash ∈ path.tail then
      if 512 ≤ n then none else isoLookupDir iso fuel root (path.take n)
    else some root
  guard (last ≠ [])
  (walkFound iso fuel dir last).map Child.stat

/-- The loop of `iso_read_file_by_path`; `out` is what has been written. -/
def readLoop (iso : Image) (cap : Nat) : Nat → UInt32 → Nat → List UInt8 → Option (List UInt8)
  | 0, _, _, out => some out
  | fuel + 1, lba, remaining, out =>
      if remaining = 0 then some out
      else
        match iso.read lba with
        | none => none
        | some blk =>
            let chunk := if sectorSize < remaining then sectorSize else remaining
            if cap < out.length + chunk then none
            else readLoop iso cap fuel (lba + 1) (remaining - chunk) (out ++ blk.take chunk)

/-- The lookup of a regular file in the root directory. -/
def rootFile (iso : Image) (fuel : Nat) (root : Extent) (last : Text) : Option Child := do
  let c ← walkFound iso fuel root last
  guard (c.isDir = false)
  return c

/-- `iso_read_file_by_path` into a buffer of `cap` bytes. -/
def isoReadFileByPath (iso : Image) (fuel : Nat) (root : Extent) (path : Text) (cap : Nat) :
    Option (List UInt8) := do
  guard (path.head? = some slash)
  let last := lastPart path.tail
  if slash ∈ path.tail then
    -- the directory part is not looked at
    guard (rootFile iso fuel root last).isSome
  guard (last ≠ [])
  let c ← rootFile iso fuel root last
  readLoop iso cap (c.extent.size.toNat + 1) c.extent.lba c.extent.size.toNat []

/-! ## What a path means -/

/-- A directory has the name. -/
def Finds (iso : Image) (dir : Extent) (want : Text) (c : Child) : Prop :=
  ∃ fuel, isoWalkComponent iso fuel dir.lba dir.size want = .found c

/-- Going through the components: where the walk stands, and the directories above. -/
inductive Leads (iso : Image) : Extent → List Extent → List Text → Extent → List Extent → Prop
  | done {cur : Extent} {above : List Extent} : Leads iso cur above [] cur above
  | stay {cur cur' : Extent} {above above' : List Extent} {s : Text} {ps : List Text} :
      s = [] ∨ s = [dot] → Leads iso cur above ps cur' above' → Leads iso cur above (s :: ps) cur' above'
  | up {cur cur' : Extent} {above above' : List Extent} {ps : List Text} :
      Leads iso (above.headD cur) above.tail ps cur' above' →
      Leads iso cur above (dotdot :: ps) cur' above'
  | down {cur cur' : Extent} {above above' : List Extent} {s : Text} {ps : List Text} {c : Child} :
      ¬ passedOver s → Finds iso cur s c → c.isDir = true →
      Leads iso c.extent (cur :: above) ps cur' above' → Leads iso cur above (s :: ps) cur' above'

/-- What the last component names. A path that ends with a slash names nothing. -/
inductive NamesLast (iso : Image) (cur : Extent) (above : List Extent) : Text → Stat → Prop
  | stay : NamesLast iso cur above [dot] ⟨cur, true⟩
  | up : NamesLast iso cur above dotdot ⟨above.headD cur, true⟩
  | name {s : Text} {c : Child} : ¬ passedOver s → Finds iso cur s c → NamesLast iso cur above s c.stat

/-- What a path names. -/
def Names (iso : Image) (root : Extent) (path : Text) (st : Stat) : Prop :=
  ∃ front last cur above, path.splitOn slash = front ++ [last] ∧ Leads iso root [] front cur above ∧
    NamesLast iso cur above last st

/-- A number of sectors. -/
def sectorsFrom (iso : Image) : Nat → UInt32 → Option (List UInt8)
  | 0, _ => some []
  | n + 1, lba => (iso.read lba).bind (fun s => (sectorsFrom iso n (lba + 1)).map (s ++ ·))

/-- The bytes of an extent. -/
def extentBytes (iso : Image) (lba : UInt32) (size : Nat) : Option (List UInt8) :=
  (sectorsFrom iso ((size + (sectorSize - 1)) / sectorSize) lba).map (·.take size)

def Stats (iso : Image) (root : Extent) (path : Text) (st : Stat) : Prop :=
  ∃ fuel, isoStatPath iso fuel root path = some st

def Reads (iso : Image) (root : Extent) (path : Text) (cap : Nat) (bytes : List UInt8) : Prop :=
  ∃ fuel, isoReadFileByPath iso fuel root path cap = some bytes

/-- The two entry points do what the path means. -/
structure Meets (iso : Image) (root : Extent) (path : Text) (cap : Nat) : Prop where
  stats : ∀ st, Stats iso root path st ↔ Names iso root path st
  reads : (∃ bytes, Reads iso root path cap bytes) ↔
    ∃ st, Stats iso root path st ∧ st.isDir = false ∧ st.extent.size.toNat ≤ cap
  bytes : ∀ bytes st, Reads iso root path cap bytes → Stats iso root path st →
    extentBytes iso st.extent.lba st.extent.size.toNat = some bytes

/-- The sectors of the file that the path names can be read, if it fits. -/
def Readable (iso : Image) (root : Extent) (path : Text) (cap : Nat) : Prop :=
  ∀ st, Names iso root path st → st.isDir = false → st.extent.size.toNat ≤ cap →
    (extentBytes iso st.extent.lba st.extent.size.toNat).isSome

/-- Some directory of some image has the name. -/
def Nameable (name : Text) : Prop := ∃ iso dir c, Finds iso dir name c

/-- The paths on which the directory part makes no difference. -/
inductive Direct (path : Text) : Prop
  | slash : lastPart path = [] → Direct path
  | nameless : ¬ passedOver (lastPart path) → ¬ Nameable (lastPart path) → Direct path
  | root : ¬ passedOver (lastPart path) → path.length - (lastPart path).length ≤ 512 →
      (∀ s ∈ (path.splitOn Vfs.slash).dropLast, passedOver s) → Direct path

/-! ## Cutting a path -/

section Cut

variable {dir last : Text}

theorem lastPart_append (h : slash ∉ last) : lastPart (dir ++ slash :: last) = last := by
  have hrev : ∀ c ∈ last.reverse, (decide (c ≠ slash)) = true := by
    intro c hc
    simp only [decide_eq_true_eq]
    rintro rfl
    exact h (List.mem_reverse.mp hc)
  unfold lastPart
  rw [List.reverse_append, List.reverse_cons, List.append_assoc, List.takeWhile_append_of_pos hrev]
  simp

/-- Every text with a slash is cut at its last one. -/
theorem exists_cut {t : Text} (h : slash ∈ t) : ∃ dir last, t = dir ++ slash :: last ∧ slash ∉ last := by
  obtain ⟨a, b, hab, hno⟩ := List.eq_append_cons_of_mem (List.mem_reverse.mpr h)
  refine ⟨b.reverse, a.reverse, ?_, by simpa using hno⟩
  have := congrArg List.reverse hab
  simpa using this

theorem splitOn_cut (h : slash ∉ last) :
    (dir ++ slash :: last).splitOn slash = dir.splitOn slash ++ [last] := by
  rw [List.splitOn_append_cons_self, List.splitOn_eq_singleton h]

/-- Nothing but components that are passed over. -/
def OnlyDots (p : Text) : Prop := ∀ s ∈ p.splitOn slash, passedOver s

theorem onlyDots_nil : OnlyDots [] := by
  intro s hs
  rw [List.splitOn_nil] at hs
  exact Or.inl (List.mem_singleton.mp hs)

theorem onlyDots_append {s p : Text} (h : slash ∉ s) :
    OnlyDots (s ++ slash :: p) ↔ passedOver s ∧ OnlyDots p := by
  unfold OnlyDots
  rw [List.splitOn_append_cons_self_of_not_mem h]
  exact List.forall_mem_cons

theorem onlyDots_dropWhile (p : Text) : OnlyDots (p.dropWhile (· = slash)) ↔ OnlyDots p := by
  induction p with
  | nil => exact Iff.rfl
  | cons c p ih =>
      by_cases hc : c = slash
      · subst hc
        rw [List.dropWhile_cons_of_pos (by simp), ih]
        have := @onlyDots_append [] p (List.not_mem_nil)
        rw [List.nil_append] at this
        rw [this]
        exact (and_iff_right (Or.inl rfl)).symm
      · rw [List.dropWhile_cons_of_neg (by simpa using hc)]

theorem passedOver.length_le {s : Text} (h : passedOver s) : s.length ≤ 2 := by
  rcases h with rfl | rfl | rfl <;> decide

/-- The first component, and what is after it. -/
theorem exists_first_component (p : Text) : ∃ s t, p = s ++ t ∧ slash ∉ s ∧ p.takeWhile (· ≠ slash) = s ∧
    (t = [] ∨ ∃ t', t = slash :: t') := by
  refine ⟨_, p.dropWhile (· ≠ slash), (List.takeWhile_append_dropWhile).symm, ?_, rfl, ?_⟩
  · intro h
    have := List.mem_takeWhile_imp h
    simp at this
  · cases ht : p.dropWhile (· ≠ slash) with
    | nil => exact Or.inl rfl
    | cons c t' =>
        have hc : c = slash := by
          have := List.head?_dropWhile_not (fun c => decide (c ≠ slash)) p
          rw [ht] at this
          simpa using this
        exact Or.inr ⟨t', by rw [hc]⟩

end Cut

/-! ## The directory part -/

section Loop

variable {iso : Image} {fuel : Nat} {cur : Extent}

/-- After a component, the rest of the path is made of dots if the whole is. -/
theorem onlyDots_rest {s t : Text} (hs : slash ∉ s) (ht : t = [] ∨ ∃ t', t = slash :: t') :
    OnlyDots (s ++ t) ↔ passedOver s ∧ OnlyDots (t.dropWhile (· = slash)) := by
  rcases ht with rfl | ⟨t', rfl⟩
  · rw [List.append_nil]
    unfold OnlyDots
    rw [List.splitOn_eq_singleton hs, List.dropWhile_nil, List.splitOn_nil]
    simp [passedOver]
  · rw [onlyDots_append hs, List.dropWhile_cons_of_pos (by simp), onlyDots_dropWhile]

theorem lookupLoop_dots (n : Nat) : ∀ p : Text, OnlyDots p → lookupLoop iso fuel n p cur = some cur := by
  induction n with
  | zero => exact fun p _ => rfl
  | succ n ih =>
      intro p hp
      unfold lookupLoop
      split
      · rfl
      · obtain ⟨s, t, rfl, hs, htake, ht⟩ := exists_first_component p
        have hrest := (onlyDots_rest hs ht).mp hp
        have hlen := hrest.1.length_le
        have hcomp : ((s ++ t).takeWhile (· ≠ slash)).take 255 = s := by
          rw [htake]
          exact List.take_of_length_le (by omega)
        dsimp only []
        rw [hcomp, if_pos hrest.1, List.drop_left]
        exact ih _ hrest.2

/-- In a directory without directories, the loop fails at the first component that it looks up. -/
theorem lookupLoop_noDirs (hno : ∀ s c, walkFound iso fuel cur s = some c → c.isDir = false) (n : Nat) :
    ∀ p : Text, p.length ≤ n → p.head? ≠ some slash → ¬ OnlyDots p → lookupLoop iso fuel n p cur = none := by
  induction n with
  | zero =>
      intro p hn _ hp
      obtain rfl : p = [] := List.length_eq_zero_iff.mp (by omega)
      exact absurd onlyDots_nil hp
  | succ n ih =>
      intro p hn hhead hp
      have hne : p ≠ [] := by
        rintro rfl
        exact hp onlyDots_nil
      unfold lookupLoop
      rw [if_neg hne]
      obtain ⟨s, t, rfl, hs, htake, ht⟩ := exists_first_component p
      dsimp only []
      rw [htake]
      by_cases hpass : passedOver (s.take 255)
      · -- a component that is passed over is short, so it was not cut
        have hshort : s.take 255 = s := by
          have hlen := hpass.length_le
          rw [List.length_take] at hlen
          exact List.take_of_length_le (by omega)
        have hpos : s ≠ [] := by
          rintro rfl
          rcases ht with rfl | ⟨t', rfl⟩
          · exact hne rfl
          · exact hhead rfl
        have hlenpos : 0 < s.length := List.length_pos_iff.mpr hpos
        rw [if_pos hpass, hshort, List.drop_left]
        rw [hshort] at hpass
        rw [List.length_append] at hn
        have hdrop : (t.dropWhile (· = slash)).length ≤ t.length := (List.dropWhile_sublist _).length_le
        apply ih
        · omega
        · intro hh
          have := List.head?_dropWhile_not (fun c => decide (c = slash)) t
          rw [hh] at this
          simp at this
        · exact fun h => hp ((onlyDots_rest hs ht).mpr ⟨hpass, h⟩)
      · rw [if_neg hpass]
        cases hw : walkFound iso fuel cur (s.take 255) with
        | none => rfl
        | some c => simp [hno _ c hw]

end Loop

/-! ## The entry points on a path that is cut -/

section Entry

variable {iso : Image} {fuel : Nat} {root : Extent} {dir last : Text}

theorem walkFound_eq_some {d : Extent} {want : Text} {c : Child} :
    walkFound iso fuel d want = some c ↔ isoWalkComponent iso fuel d.lba d.size want = .found c := by
  unfold walkFound
  split
  · rename_i c' hw
    rw [hw]
    simp
  · rename_i hw
    simp only [reduceCtorEq, false_iff]
    exact hw c

theorem rootFile_eq_some {want : Text} {c : Child} : rootFile iso fuel root want = some c ↔
    isoWalkComponent iso fuel root.lba root.size want = .found c ∧ c.isDir = false := by
  rw [← walkFound_eq_some]
  unfold rootFile
  cases walkFound iso fuel root want with
  | none => simp
  | some c' =>
      by_cases hd : c'.isDir = false
      · simp only [hd, guard_true, Option.bind_eq_bind, Option.bind_some, pure, Option.some.injEq]
        constructor
        · rintro rfl
          exact ⟨rfl, hd⟩
        · exact fun h => h.1
      · have : ∀ c, c' = c → ¬ c.isDir = false := by
          rintro c rfl
          exact hd
        simpa [hd] using this c

/-- The directory in which `iso_stat_path` looks the last component up. -/
def statDir (iso : Image) (fuel : Nat) (root : Extent) (dir : Text) : Option Extent :=
  if dir = [] then some root
  else if 512 ≤ dir.length then none else isoLookupDir iso fuel root dir

theorem tail_cut (habs : dir = [] ∨ dir.head? = some slash) (h : slash ∉ last) :
    (dir ++ slash :: last).head? = some slash ∧ lastPart (dir ++ slash :: last).tail = last ∧
      (slash ∈ (dir ++ slash :: last).tail ↔ dir ≠ []) := by
  cases dir with
  | nil =>
      refine ⟨rfl, ?_, by simpa using h⟩
      -- the whole of `last` is after the first slash
      have := @lastPart_append [] last h
      unfold lastPart at this ⊢
      rw [List.nil_append, List.reverse_cons] at this
      have hrev : ∀ c ∈ last.reverse, (decide (c ≠ slash)) = true := by
        intro c hc
        simp only [decide_eq_true_eq]
        rintro rfl
        exact h (List.mem_reverse.mp hc)
      show (List.takeWhile _ last.reverse).reverse = last
      rw [List.takeWhile_eq_self_iff.mpr hrev, List.reverse_reverse]
  | cons c dir =>
      have hc : c = slash := by simpa using habs
      subst hc
      refine ⟨rfl, lastPart_append h, ?_⟩
      simp

theorem isoStatPath_cut (habs : dir = [] ∨ dir.head? = some slash) (h : slash ∉ last) :
    isoStatPath iso fuel root (dir ++ slash :: last) = (statDir iso fuel root dir).bind (fun d =>
      if last = [] then none else (walkFound iso fuel d last).map Child.stat) := by
  obtain ⟨hhead, hlast, hmem⟩ := tail_cut habs h
  have hn : (dir ++ slash :: last).length - last.length - 1 = dir.length := by
    rw [List.length_append, List.length_cons]
    omega
  unfold isoStatPath statDir
  simp only [hhead, hlast, hmem, hn, List.take_left]
  by_cases hd : dir = []
  · by_cases hl : last = [] <;> simp [hd, hl]
  · by_cases hl : last = []
    · by_cases h5 : 512 ≤ dir.length <;> simp [hd, hl, h5]
    · by_cases h5 : 512 ≤ dir.length <;> simp [hd, hl, h5]

theorem isoReadFileByPath_cut (habs : dir = [] ∨ dir.head? = some slash) (h : slash ∉ last) (cap : Nat) :
    isoReadFileByPath iso fuel root (dir ++ slash :: last) cap =
      if last = [] then none
      else (rootFile iso fuel root last).bind (fun c =>
        readLoop iso cap (c.extent.size.toNat + 1) c.extent.lba c.extent.size.toNat []) := by
  obtain ⟨hhead, hlast, hmem⟩ := tail_cut habs h
  unfold isoReadFileByPath
  simp only [hhead, hlast, hmem]
  cases hr : rootFile iso fuel root last with
  | none =>
      by_cases hl : last = [] <;> simp [hl]
  | some c =>
      by_cases hl : last = [] <;> by_cases hd : dir = [] <;> simp [hl, hd]

/-! ## The bytes of an extent -/

/-- The loop reads the extent if it fits. -/
theorem readLoop_eq (cap fuel : Nat) : ∀ (lba : UInt32) (remaining : Nat) (out : List UInt8),
    remaining < fuel → out.length ≤ cap → readLoop iso cap fuel lba remaining out =
      if out.length + remaining ≤ cap then (extentBytes iso lba remaining).map (out ++ ·) else none := by
  induction fuel with
  | zero => exact fun _ _ _ h => absurd h (Nat.not_lt_zero _)
  | succ fuel ih =>
      intro lba remaining out hlt hcap
      unfold readLoop
      by_cases hz : remaining = 0
      · subst hz
        simp [extentBytes, sectorsFrom, sectorSize, hcap]
      · have hcount : (remaining + (sectorSize - 1)) / sectorSize =
            (remaining - sectorSize + (sectorSize - 1)) / sectorSize + 1 := by
          unfold sectorSize
          omega
        rw [if_neg hz]
        unfold extentBytes
        rw [hcount, sectorsFrom]
        cases hread : iso.read lba with
        | none => simp
        | some blk =>
            have hblk := iso.size hread
            have hpos : 0 < sectorSize := by decide
            -- the chunk is as much of the sector as is left of the file
            generalize hchunk : (if sectorSize < remaining then sectorSize else remaining) = chunk
            have hmin : chunk = min sectorSize remaining := by
              rw [← hchunk]
              split <;> omega
            have hleft : remaining - chunk = remaining - sectorSize := by omega
            have htake : blk.take chunk = blk.take remaining := by
              by_cases hle : remaining ≤ sectorSize
              · rw [hmin, Nat.min_eq_right hle]
              · rw [List.take_of_length_le (by omega), List.take_of_length_le (by omega)]
            have hlen : (blk.take chunk).length = chunk := by
              rw [List.length_take]
              omega
            dsimp only []
            by_cases hover : cap < out.length + chunk
            · rw [if_pos hover, if_neg (by omega)]
            · rw [if_neg hover, ih _ _ _ (by omega) (by rw [List.length_append]; omega),
                List.length_append, hlen, hleft, show out.length + chunk + (remaining - sectorSize) =
                out.length + remaining by omega]
              refine if_congr Iff.rfl ?_ rfl
              unfold extentBytes
              rw [htake, Option.bind_some, Option.map_map, Option.map_map, Option.map_map]
              refine congrArg (fun f => Option.map f _) (funext fun t => ?_)
              simp [List.take_append, hblk]

/-- A read that succeeds has found a file of the root directory, which fits. -/
theorem reads_iff (habs : dir = [] ∨ dir.head? = some slash) (h : slash ∉ last) {cap : Nat} {bytes : List UInt8} :
    Reads iso root (dir ++ slash :: last) cap bytes ↔ last ≠ [] ∧ ∃ c, Finds iso root last c ∧
      c.isDir = false ∧ c.extent.size.toNat ≤ cap ∧
      extentBytes iso c.extent.lba c.extent.size.toNat = some bytes := by
  have hread : ∀ c : Child, readLoop iso cap (c.extent.size.toNat + 1) c.extent.lba c.extent.size.toNat [] =
      if c.extent.size.toNat ≤ cap then extentBytes iso c.extent.lba c.extent.size.toNat else none := by
    intro c
    rw [readLoop_eq cap _ _ _ _ (Nat.lt_succ_self _) (Nat.zero_le _)]
    simp
  constructor
  · rintro ⟨fuel, hf⟩
    rw [isoReadFileByPath_cut habs h] at hf
    split at hf
    · cases hf
    · rename_i hne
      obtain ⟨c, hc, hloop⟩ := Option.bind_eq_some_iff.mp hf
      rw [hread] at hloop
      obtain ⟨hw, hd⟩ := rootFile_eq_some.mp hc
      split at hloop
      · rename_i hle
        exact ⟨hne, c, ⟨fuel, hw⟩, hd, hle, hloop⟩
      · cases hloop
  · rintro ⟨hne, c, ⟨fuel, hw⟩, hd, hle, hb⟩
    refine ⟨fuel, ?_⟩
    rw [isoReadFileByPath_cut habs h, if_neg hne, rootFile_eq_some.mpr ⟨hw, hd⟩, Option.bind_some, hread, if_pos hle, hb]

/-- With nothing but dots before the last component, it is looked up in the root directory. -/
theorem stats_iff_of_dots (habs : dir = [] ∨ dir.head? = some slash) (h : slash ∉ last) (hdots : OnlyDots dir)
    (hshort : dir.length < 512) {st : Stat} :
    Stats iso root (dir ++ slash :: last) st ↔ last ≠ [] ∧ ∃ c, Finds iso root last c ∧ c.stat = st := by
  have hdir : ∀ fuel, statDir iso fuel root dir = some root := by
    intro fuel
    unfold statDir
    split
    · rfl
    · rename_i hne
      unfold isoLookupDir
      rw [if_neg (by omega), if_pos (habs.resolve_left hne)]
      exact lookupLoop_dots _ _ ((onlyDots_dropWhile dir).mpr hdots)
  constructor
  · rintro ⟨fuel, hf⟩
    rw [isoStatPath_cut habs h, hdir, Option.bind_some] at hf
    split at hf
    · cases hf
    · rename_i hne
      obtain ⟨c, hc, hst⟩ := Option.map_eq_some_iff.mp hf
      exact ⟨hne, c, ⟨fuel, walkFound_eq_some.mp hc⟩, hst⟩
  · rintro ⟨hne, c, ⟨fuel, hw⟩, rfl⟩
    refine ⟨fuel, ?_⟩
    rw [isoStatPath_cut habs h, hdir, Option.bind_some, if_neg hne, walkFound_eq_some.mpr hw]
    rfl

/-- A path that is looked up has a last component that some directory has. -/
theorem Stats.nameable (habs : dir = [] ∨ dir.head? = some slash) (h : slash ∉ last) {st : Stat}
    (hst : Stats iso root (dir ++ slash :: last) st) : last ≠ [] ∧ Nameable last := by
  obtain ⟨fuel, hf⟩ := hst
  rw [isoStatPath_cut habs h] at hf
  obtain ⟨d, -, hf⟩ := Option.bind_eq_some_iff.mp hf
  split at hf
  · cases hf
  · rename_i hne
    obtain ⟨c, hc, -⟩ := Option.map_eq_some_iff.mp hf
    exact ⟨hne, iso, d, c, fuel, walkFound_eq_some.mp hc⟩

/-! ## What the reference says of such paths -/

theorem names_cut (h : slash ∉ last) {st : Stat} :
    Names iso root (dir ++ slash :: last) st ↔
      ∃ cur above, Leads iso root [] (dir.splitOn slash) cur above ∧ NamesLast iso cur above last st := by
  unfold Names
  rw [splitOn_cut h]
  constructor
  · rintro ⟨front, last', cur, above, heq, hleads, hlast⟩
    obtain ⟨rfl, hl⟩ := List.append_inj' heq rfl
    obtain rfl : last = last' := by simpa using hl
    exact ⟨cur, above, hleads, hlast⟩
  · rintro ⟨cur, above, hleads, hlast⟩
    exact ⟨_, _, cur, above, rfl, hleads, hlast⟩

/-- Dots lead nowhere from the root. -/
theorem leads_dots_iff {ps : List Text} (hps : ∀ s ∈ ps, passedOver s) {cur : Extent} {above : List Extent} :
    Leads iso root [] ps cur above ↔ cur = root ∧ above = [] := by
  induction ps with
  | nil =>
      constructor
      · intro h
        cases h
        exact ⟨rfl, rfl⟩
      · rintro ⟨rfl, rfl⟩
        exact Leads.done
  | cons s ps ih =>
      have hs := hps s (List.mem_cons_self ..)
      have ih := ih (fun q hq => hps q (List.mem_cons_of_mem _ hq))
      constructor
      · intro h
        cases h with
        | stay _ h => exact ih.mp h
        | up h => exact ih.mp h
        | down hno => exact absurd hs hno
      · intro h
        have hrest := ih.mpr h
        rcases hs with rfl | rfl | rfl
        · exact Leads.stay (Or.inl rfl) hrest
        · exact Leads.stay (Or.inr rfl) hrest
        · exact Leads.up hrest

theorem namesLast_name {cur : Extent} {above : List Extent} (hname : ¬ passedOver last) {st : Stat} :
    NamesLast iso cur above last st ↔ ∃ c, Finds iso cur last c ∧ c.stat = st := by
  constructor
  · intro h
    cases h with
    | stay => exact absurd (Or.inr (Or.inl rfl)) hname
    | up => exact absurd (Or.inr (Or.inr rfl)) hname
    | name _ hf => exact ⟨_, hf, rfl⟩
  · rintro ⟨c, hf, rfl⟩
    exact NamesLast.name hname hf

end Entry

end Guppy.Iso
