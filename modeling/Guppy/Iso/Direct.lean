import Guppy.Iso.Resolve

set_option autoImplicit false

/-! # The paths that both entry points resolve alike

The directory part of a path makes no difference to `iso_read_file_by_path`. So the two entry
points agree on every image only where there is nothing in the directory part, or nothing that
could be found at its end.

For every other path there is an image on which they disagree: its root directory has one record,
a file with the name of the last component. The record is taken from an image that has the name,
so only its flags are changed.
-/

namespace Guppy.Iso

open Vfs

/-! ## A record in another place -/

section Record

variable {r r' : List UInt8}

/-- The bytes of a record that its name depends on are the same. -/
structure SameName (r r' : List UInt8) : Prop where
  pos : 0 < recLen r
  whole : recLen r ≤ r.length
  whole' : recLen r ≤ r'.length
  same : ∀ i, i < recLen r → i = 0 ∨ 26 ≤ i → byteAt r' i = byteAt r i

theorem SameName.recLen_eq (h : SameName r r') : recLen r' = recLen r := h.same 0 h.pos (Or.inl rfl)

theorem SameName.take_drop (h : SameName r r') {a b : Nat} (ha : 26 ≤ a) (hb : a + b ≤ recLen r) :
    (r'.drop a).take b = (r.drop a).take b := by
  have hw := h.whole
  have hw' := h.whole'
  apply List.ext_getElem
  · simp only [List.length_take, List.length_drop]
    omega
  · intro i hi hi'
    simp only [List.length_take, List.length_drop] at hi hi'
    have hs := h.same (a + i) (by omega) (Or.inr (by omega))
    unfold byteAt at hs
    have hs := UInt8.toNat_inj.mp hs
    rw [List.getD_eq_getElem?_getD, List.getD_eq_getElem?_getD, List.getElem?_eq_getElem (by omega),
      List.getElem?_eq_getElem (by omega)] at hs
    simpa using hs

theorem SameName.rrName_eq (h : SameName r r') (fuel : Nat) : ∀ (pos : Nat) (acc : Option Text), 26 ≤ pos →
    rrName r' fuel pos acc = rrName r fuel pos acc := by
  have hlen := h.recLen_eq
  induction fuel with
  | zero => exact fun _ _ _ => rfl
  | succ fuel ih =>
      intro pos acc hpos
      unfold rrName
      rw [hlen]
      by_cases hend : recLen r < pos + 4
      · rw [if_pos hend, if_pos hend]
      · -- an entry that is read lies inside the record
        have hbyte : ∀ k, k ≤ 3 → byteAt r' (pos + k) = byteAt r (pos + k) :=
          fun k hk => h.same _ (by omega) (Or.inr (by omega))
        rw [if_neg hend, if_neg hend, hbyte 2 (by omega), hbyte 1 (by omega), show byteAt r' pos = byteAt r pos from
          hbyte 0 (by omega)]
        dsimp only []
        by_cases hbad : byteAt r (pos + 2) < 4 ∨ recLen r < pos + byteAt r (pos + 2)
        · rw [if_pos hbad, if_pos hbad]
        · rw [if_neg hbad, if_neg hbad]
          by_cases hnm : byteAt r pos = 78 ∧ byteAt r (pos + 1) = 77 ∧ 5 ≤ byteAt r (pos + 2)
          · have hflags : byteAt r' (pos + 4) = byteAt r (pos + 4) := h.same _ (by omega) (Or.inr (by omega))
            rw [if_pos hnm, if_pos hnm, hflags, h.take_drop (by omega) (by omega), ih _ _ (by omega)]
          · rw [if_neg hnm, if_neg hnm, ih _ _ (by omega)]

/-- The name of a record depends on nothing else. -/
theorem SameName.isoDirRecordName_eq {iso iso' : Image} (h : SameName r r')
    (hsusp : iso'.suspEnabled = iso.suspEnabled) (hskip : iso'.suspSkip = iso.suspSkip) :
    isoDirRecordName iso' r' = isoDirRecordName iso r := by
  have hlen := h.recLen_eq
  unfold isoDirRecordName
  rw [hlen]
  by_cases hshort : recLen r < 34
  · rw [if_pos (Or.inl hshort), if_pos (Or.inl hshort)]
  · have h32 : byteAt r' 32 = byteAt r 32 := h.same 32 (by omega) (Or.inr (by omega))
    have h33 : byteAt r' 33 = byteAt r 33 := h.same 33 (by omega) (Or.inr (by omega))
    rw [h32, h33]
    by_cases hid : recLen r < 34 ∨ recLen r < 33 + byteAt r 32
    · rw [if_pos hid, if_pos hid]
    · have hrr : rockRidgeName iso' r' = rockRidgeName iso r := by
        unfold rockRidgeName isoSuaOffset
        rw [hsusp, hskip, hlen, h32, h.rrName_eq _ _ _ (by omega)]
      rw [if_neg hid, if_neg hid, hrr, h.take_drop (by omega) (by omega)]

theorem SameName.isSpecial_eq (h : SameName r r') (hlong : 34 ≤ recLen r) : isSpecial r' = isSpecial r := by
  unfold isSpecial
  rw [h.same 32 (by omega) (Or.inr (by omega)), h.same 33 (by omega) (Or.inr (by omega))]

end Record

/-! ## An image with one file -/

/-- Every sector is the same. -/
def constImage (enabled : Bool) (skip : Nat) (s : List UInt8) (h : s.length = sectorSize) : Image where
  read := fun _ => some s
  suspEnabled := enabled
  suspSkip := skip
  size := fun hs => (Option.some.inj hs) ▸ h

section Const

variable {iso : Image} {base : UInt32} {name : Text}

theorem Later.place {pos : Nat} {pre : List (List UInt8)} {r : List UInt8} (h : Later iso base pos pre r) :
    ∃ (s : List UInt8) (off : Nat), s.length = sectorSize ∧ r = s.drop off ∧ off + recLen r ≤ sectorSize ∧ recLen r ≠ 0 := by
  induction h with
  | here hs hne hfit => exact ⟨_, _, iso.size hs, rfl, hfit, hne⟩
  | past _ _ _ _ ih => exact ih
  | padded _ _ _ ih => exact ih

/-- The record at a place, with no flags, at the start of a sector. -/
def firstRecord (s : List UInt8) (off : Nat) : List UInt8 := (s.drop off).set 25 0 ++ List.replicate off 0

theorem sameName_firstRecord {s : List UInt8} {off : Nat} (hs : s.length = sectorSize)
    (hfit : off + recLen (s.drop off) ≤ sectorSize) (hne : recLen (s.drop off) ≠ 0) :
    SameName (s.drop off) (firstRecord s off) := by
  have hlen : (s.drop off).length = sectorSize - off := by rw [List.length_drop, hs]
  refine ⟨Nat.pos_of_ne_zero hne, by omega, ?_, ?_⟩
  · unfold firstRecord
    rw [List.length_append, List.length_set, List.length_replicate]
    omega
  · intro i hi hcase
    unfold firstRecord byteAt
    rw [List.getD_eq_getElem?_getD, List.getD_eq_getElem?_getD,
      List.getElem?_append_left (by rw [List.length_set]; omega), List.getElem?_set_ne (by omega)]

theorem byteAt_firstRecord_flags {s : List UInt8} {off : Nat} (hlt : 25 < (s.drop off).length) :
    byteAt (firstRecord s off) 25 = 0 := by
  unfold firstRecord byteAt
  rw [List.getD_eq_getElem?_getD, List.getElem?_append_left (by rwa [List.length_set]),
    List.getElem?_set_self hlt]
  rfl

/-- A name that some directory has is the name of a file in some image with nothing else. -/
theorem Nameable.exists_image (h : Nameable name) : ∃ (iso : Image) (s : List UInt8),
    (∀ lba, iso.read lba = some s) ∧ Carries iso name s ∧ byteAt s 25 = 0 := by
  obtain ⟨iso, dir, c, hfinds⟩ := h
  obtain ⟨pre, r, hlater, -, -, hcar, -⟩ := walk_found_iff.mp hfinds
  obtain ⟨s, off, hs, rfl, hfit, hne⟩ := hlater.place
  have hlong := hcar.decodable.idLen_le.1
  have hsame := sameName_firstRecord hs hfit hne
  have hsector : (firstRecord s off).length = sectorSize := by
    unfold firstRecord
    rw [List.length_append, List.length_set, List.length_replicate, List.length_drop]
    omega
  refine ⟨constImage iso.suspEnabled iso.suspSkip _ hsector, firstRecord s off, fun _ => rfl, ?_, ?_⟩
  · obtain ⟨hspecial, n, hn, hmatch⟩ := hcar
    refine ⟨(hsame.isSpecial_eq hlong).trans hspecial, n, ?_, hmatch⟩
    exact (hsame.isoDirRecordName_eq rfl rfl).trans hn
  · exact byteAt_firstRecord_flags (by rw [List.length_drop]; omega)

/-- The root directory of such an image. -/
def firstRoot : Extent := ⟨20, 1⟩

variable {s : List UInt8} (hread : ∀ lba, iso.read lba = some s)

include hread in
theorem finds_firstRoot (hcar : Carries iso name s) : Finds iso firstRoot name (childOf s) := by
  have hlong := hcar.decodable.idLen_le.1
  have hbyte : recLen s < 256 := (s.getD 0 0).toNat_lt
  apply walk_found_iff.mpr
  refine ⟨[], s, ?_, by decide, fun q hq => absurd hq List.not_mem_nil, hcar, rfl⟩
  have hhere := @Later.here iso firstRoot.lba 0 s (hread _) (by rw [Nat.zero_mod, List.drop_zero]; omega)
    (by rw [Nat.zero_mod, List.drop_zero]; unfold sectorSize; omega)
  rwa [Nat.zero_mod, List.drop_zero] at hhere

include hread in
/-- Nothing else is found: the first record uses the directory up. -/
theorem eq_of_finds_firstRoot (hne : recLen s ≠ 0) {want : Text} {c : Child} (h : Finds iso firstRoot want c) :
    c = childOf s := by
  obtain ⟨pre, r, hlater, hsum, -, -, rfl⟩ := walk_found_iff.mp h
  have hfirst : ∀ s', sectorAt iso firstRoot.lba 0 = some s' → s'.drop (0 % sectorSize) = s := by
    intro s' hs'
    unfold sectorAt at hs'
    rw [hread] at hs'
    cases hs'
    rw [Nat.zero_mod, List.drop_zero]
  cases hlater with
  | here hs => rw [hfirst _ hs]
  | past hs _ _ _ =>
      rw [hfirst _ hs] at hsum
      unfold sumLen at hsum
      rw [List.map_cons, List.sum_cons] at hsum
      have : firstRoot.size.toNat = 1 := rfl
      omega
  | padded hs hz _ => exact absurd ((hfirst _ hs) ▸ hz) hne

include hread in
theorem sectorsFrom_isSome (n : Nat) : ∀ lba, (sectorsFrom iso n lba).isSome := by
  induction n with
  | zero => exact fun _ => rfl
  | succ n ih =>
      intro lba
      rw [sectorsFrom, hread, Option.bind_some, Option.isSome_map]
      exact ih _

end Const

/-! ## One answer -/

section Unique

variable {iso : Image} {want : Text}

theorem walkSectors_mono (k : Nat) {r : WalkResult} (hr : r ≠ .running) (n : Nat) :
    ∀ (lba : UInt32) (left : Nat), walkSectors iso want n lba left = r → walkSectors iso want (n + k) lba left = r := by
  induction n with
  | zero =>
      intro lba left h
      exact absurd h.symm hr
  | succ n ih =>
      intro lba left h
      rw [show n + 1 + k = (n + k) + 1 by omega]
      unfold walkSectors at h ⊢
      split at h
      · rename_i hz
        rw [if_pos hz]
        exact h
      · rename_i hz
        rw [if_neg hz]
        cases hread : iso.read lba with
        | none =>
            rw [hread] at h
            exact h
        | some s =>
            rw [hread] at h
            dsimp only [] at h ⊢
            cases hw : walkSector iso want s (sectorSize + 1) 0 left with
            | done r' =>
                rw [hw] at h
                exact h
            | next left' =>
                rw [hw] at h
                exact ih _ _ h

/-- A lookup that ends has one result. -/
theorem walk_unique {dir : Extent} {m n : Nat} {r r' : WalkResult} (hr : r ≠ .running) (hr' : r' ≠ .running)
    (h : isoWalkComponent iso m dir.lba dir.size want = r)
    (h' : isoWalkComponent iso n dir.lba dir.size want = r') : r = r' := by
  calc r = isoWalkComponent iso (m + n) dir.lba dir.size want := (walkSectors_mono n hr m _ _ h).symm
    _ = isoWalkComponent iso (n + m) dir.lba dir.size want := by rw [Nat.add_comm]
    _ = r' := walkSectors_mono m hr' n _ _ h'

theorem Finds.unique {dir : Extent} {c c' : Child} (h : Finds iso dir want c) (h' : Finds iso dir want c') :
    c = c' := by
  obtain ⟨m, hm⟩ := h
  obtain ⟨n, hn⟩ := h'
  have := walk_unique WalkResult.noConfusion WalkResult.noConfusion hm hn
  exact WalkResult.found.inj this

end Unique

/-! ## The two entry points -/

section Entry

variable {iso : Image} {root : Extent} {dir last : Text} {cap : Nat}

/-- Where a path names nothing and nothing is found, there is nothing to compare. -/
theorem meets_of_nothing {path : Text} (hstats : ∀ st, ¬ Stats iso root path st)
    (hnames : ∀ st, ¬ Names iso root path st) (hreads : ∀ bytes, ¬ Reads iso root path cap bytes) :
    Meets iso root path cap ↔ Readable iso root path cap := by
  constructor
  · exact fun _ st hst => absurd hst (hnames st)
  · intro _
    refine ⟨fun st => iff_of_false (hstats st) (hnames st), ?_, fun bytes _ hb => absurd hb (hreads bytes)⟩
    constructor
    · rintro ⟨bytes, hb⟩
      exact absurd hb (hreads bytes)
    · rintro ⟨st, hst, -⟩
      exact absurd hst (hstats st)

/-- A name of the root directory: both find the same file, and the bytes can be read or not. -/
theorem meets_iff_of_root (habs : dir = [] ∨ dir.head? = some slash) (h : slash ∉ last) (hname : ¬ passedOver last)
    (hshort : dir.length < 512) (hdots : OnlyDots dir) :
    Meets iso root (dir ++ slash :: last) cap ↔ Readable iso root (dir ++ slash :: last) cap := by
  have hne : last ≠ [] := fun hl => hname (Or.inl hl)
  have hstats : ∀ st, Stats iso root (dir ++ slash :: last) st ↔ ∃ c, Finds iso root last c ∧ c.stat = st := by
    intro st
    rw [stats_iff_of_dots habs h hdots hshort]
    exact and_iff_right hne
  have hnames : ∀ st, Names iso root (dir ++ slash :: last) st ↔ ∃ c, Finds iso root last c ∧ c.stat = st := by
    intro st
    rw [names_cut h]
    constructor
    · rintro ⟨cur, above, hleads, hlast⟩
      obtain ⟨rfl, rfl⟩ := (leads_dots_iff hdots).mp hleads
      exact (namesLast_name hname).mp hlast
    · intro hc
      exact ⟨root, [], (leads_dots_iff hdots).mpr ⟨rfl, rfl⟩, (namesLast_name hname).mpr hc⟩
  constructor
  · intro hm st hst hfile hfits
    obtain ⟨bytes, hb⟩ := hm.reads.mpr ⟨st, (hm.stats st).mpr hst, hfile, hfits⟩
    rw [hm.bytes bytes st hb ((hm.stats st).mpr hst)]
    rfl
  · intro hr
    refine ⟨fun st => (hstats st).trans (hnames st).symm, ?_, ?_⟩
    · constructor
      · rintro ⟨bytes, hb⟩
        obtain ⟨-, c, hc, hfile, hfits, -⟩ := (reads_iff habs h).mp hb
        exact ⟨c.stat, (hstats _).mpr ⟨c, hc, rfl⟩, hfile, hfits⟩
      · rintro ⟨st, hst, hfile, hfits⟩
        obtain ⟨c, hc, rfl⟩ := (hstats st).mp hst
        obtain ⟨bytes, hb⟩ := Option.isSome_iff_exists.mp (hr c.stat ((hnames _).mpr ⟨c, hc, rfl⟩) hfile hfits)
        exact ⟨bytes, (reads_iff habs h).mpr ⟨hne, c, hc, hfile, hfits, hb⟩⟩
    · intro bytes st hb hst
      obtain ⟨-, c, hc, -, -, hbytes⟩ := (reads_iff habs h).mp hb
      obtain ⟨c', hc', rfl⟩ := (hstats st).mp hst
      rw [← hc.unique hc']
      exact hbytes

/-- In a root directory without directories, only dots lead to the last component. -/
theorem Stats.onlyDots (habs : dir = [] ∨ dir.head? = some slash) (h : slash ∉ last)
    (hno : ∀ s c, Finds iso root s c → c.isDir = false) {st : Stat}
    (hst : Stats iso root (dir ++ slash :: last) st) : OnlyDots dir ∧ dir.length < 512 := by
  obtain ⟨fuel, hf⟩ := hst
  rw [isoStatPath_cut habs h] at hf
  obtain ⟨d, hd, -⟩ := Option.bind_eq_some_iff.mp hf
  unfold statDir at hd
  split at hd
  · rename_i hnil
    rw [hnil]
    exact ⟨onlyDots_nil, by decide⟩
  · rename_i hne
    split at hd
    · cases hd
    · rename_i hlt
      refine ⟨?_, by omega⟩
      by_contra hdots
      unfold isoLookupDir at hd
      rw [if_pos (habs.resolve_left hne)] at hd
      have hhead : (dir.dropWhile (· = slash)).head? ≠ some slash := by
        intro hh
        have := List.head?_dropWhile_not (fun c => decide (c = slash)) dir
        rw [hh] at this
        simp at this
      rw [lookupLoop_noDirs (fun s c hw => hno s c ⟨fuel, walkFound_eq_some.mp hw⟩) _ _ (le_refl _) hhead
        (fun hh => hdots ((onlyDots_dropWhile dir).mp hh))] at hd
      cases hd

/-- A record with the name in its identifier. -/
def idRecord (name : Text) : List UInt8 :=
  [UInt8.ofNat (33 + name.length)] ++ List.replicate 31 0 ++ [UInt8.ofNat name.length] ++ name ++
    List.replicate (sectorSize - 33 - name.length) 0

theorem nameable_dot : Nameable [dot] :=
  ⟨constImage false 0 (idRecord [dot]) (by decide +kernel), ⟨20, 1⟩, ⟨0, 0, 0⟩, 1, by decide +kernel⟩

theorem nameable_dotdot : Nameable dotdot :=
  ⟨constImage false 0 (idRecord dotdot) (by decide +kernel), ⟨20, 1⟩, ⟨0, 0, 0⟩, 1, by decide +kernel⟩

/-- The claim for a path that is cut at its last slash. -/
theorem cut_iff (habs : dir = [] ∨ dir.head? = some slash) (h : slash ∉ last) :
    (∀ iso root cap, Meets iso root (dir ++ slash :: last) cap ↔ Readable iso root (dir ++ slash :: last) cap) ↔
      last = [] ∨ (¬ passedOver last ∧ ¬ Nameable last) ∨
        (¬ passedOver last ∧ dir.length < 512 ∧ OnlyDots dir) := by
  constructor
  · intro hall
    by_contra hcon
    obtain ⟨hne, hrest⟩ := not_or.mp hcon
    obtain ⟨hnameless, hroot⟩ := not_or.mp hrest
    have hnameable : Nameable last := by
      by_cases hp : passedOver last
      · rcases hp with hp | hp | hp
        · exact absurd hp hne
        · exact hp ▸ nameable_dot
        · exact hp ▸ nameable_dotdot
      · by_contra hno
        exact hnameless ⟨hp, hno⟩
    -- the file is in the root directory, and everything can be read
    obtain ⟨iso, s, hread, hcar, hflags⟩ := hnameable.exists_image
    have hlong := hcar.decodable.idLen_le.1
    have hfile : (childOf s).isDir = false := by
      unfold Child.isDir childOf
      simp [hflags]
    have hsome : ∀ lba size, (extentBytes iso lba size).isSome := by
      intro lba size
      unfold extentBytes
      rw [Option.isSome_map]
      exact sectorsFrom_isSome hread _ _
    obtain ⟨bytes, hbytes⟩ := Option.isSome_iff_exists.mp (hsome (childOf s).extent.lba (childOf s).extent.size.toNat)
    have hm := (hall iso firstRoot (childOf s).extent.size.toNat).mpr (fun st _ _ _ => hsome _ _)
    obtain ⟨st, hst, hstfile, -⟩ := hm.reads.mp
      ⟨bytes, (reads_iff habs h).mpr ⟨hne, _, finds_firstRoot hread hcar, hfile, le_refl _, hbytes⟩⟩
    have hno : ∀ q c, Finds iso firstRoot q c → c.isDir = false := by
      intro q c hc
      rw [eq_of_finds_firstRoot hread (by omega) hc]
      exact hfile
    obtain ⟨hdots, hshort⟩ := Stats.onlyDots habs h hno hst
    by_cases hp : passedOver last
    · -- the path names a directory, and the file was found
      obtain ⟨cur, above, -, hlast⟩ := (names_cut h).mp ((hm.stats st).mp hst)
      cases hlast with
      | stay => cases hstfile
      | up => cases hstfile
      | name hnp => exact hnp hp
    · exact hroot ⟨hp, hshort, hdots⟩
  · rintro (hnil | ⟨hp, hnameless⟩ | ⟨hp, hshort, hdots⟩) iso root cap
    · apply meets_of_nothing
      · exact fun st hst => (hst.nameable habs h).1 hnil
      · intro st hst
        obtain ⟨cur, above, -, hlast⟩ := (names_cut h).mp hst
        cases hlast with
        | stay => cases hnil
        | up => cases hnil
        | name hnp => exact hnp (Or.inl hnil)
      · exact fun bytes hb => ((reads_iff habs h).mp hb).1 hnil
    · apply meets_of_nothing
      · exact fun st hst => hnameless (hst.nameable habs h).2
      · intro st hst
        obtain ⟨cur, above, -, hlast⟩ := (names_cut h).mp hst
        obtain ⟨c, hc, -⟩ := (namesLast_name hp).mp hlast
        exact hnameless ⟨iso, cur, c, hc⟩
      · intro bytes hb
        obtain ⟨-, c, hc, -⟩ := (reads_iff habs h).mp hb
        exact hnameless ⟨iso, root, c, hc⟩
    · exact meets_iff_of_root habs h hp hshort hdots

end Entry

/-- The two entry points agree with each other and with the meaning of the path on every image, as
far as the sectors of the file can be read, exactly if the directory part of the path makes no
difference. -/
theorem read_and_stat_agree_iff (rest : Text) :
    (∀ iso root cap, Meets iso root (slash :: rest) cap ↔ Readable iso root (slash :: rest) cap) ↔
      Direct (slash :: rest) := by
  obtain ⟨dir, last, hpath, h⟩ := exists_cut (List.mem_cons_self (a := slash) (l := rest))
  have habs : dir = [] ∨ dir.head? = some slash := by
    cases dir with
    | nil => exact Or.inl rfl
    | cons c dir =>
        obtain ⟨rfl, -⟩ := List.cons.inj hpath
        exact Or.inr rfl
  have hlast : lastPart (dir ++ slash :: last) = last := lastPart_append h
  have hfront : ((dir ++ slash :: last).splitOn slash).dropLast = dir.splitOn slash := by
    rw [splitOn_cut h, List.dropLast_concat]
  have hlen : (dir ++ slash :: last).length - last.length = dir.length + 1 := by
    rw [List.length_append, List.length_cons]
    omega
  rw [hpath, cut_iff habs h]
  constructor
  · rintro (hnil | ⟨hp, hnameless⟩ | ⟨hp, hshort, hdots⟩)
    · exact Direct.slash (hlast.trans hnil)
    · exact Direct.nameless (by rwa [hlast]) (by rwa [hlast])
    · refine Direct.root (by rwa [hlast]) ?_ (by rwa [hfront])
      rw [hlast, hlen]
      omega
  · intro hdirect
    cases hdirect with
    | slash hnil => exact Or.inl (hlast ▸ hnil)
    | nameless hp hnameless => exact Or.inr (Or.inl ⟨hlast ▸ hp, hlast ▸ hnameless⟩)
    | root hp hshort hdots =>
        rw [hlast] at hp hshort
        rw [hlen] at hshort
        rw [hfront] at hdots
        exact Or.inr (Or.inr ⟨hp, by omega, hdots⟩)

/-! ## A file in a directory -/

/-- A record with an identifier, an extent and flags. -/
def recordOf (id : Text) (lba : UInt8) (size : UInt8 × UInt8) (flags : UInt8) : List UInt8 :=
  [UInt8.ofNat (33 + id.length), 0, lba] ++ List.replicate 7 0 ++ [size.1, size.2] ++ List.replicate 13 0 ++
    [flags] ++ List.replicate 6 0 ++ [UInt8.ofNat id.length] ++ id

def sectorOf (bytes : List UInt8) : List UInt8 := bytes ++ List.replicate (sectorSize - bytes.length) 0

/-- The root directory, in sector 20, has a directory `D`, in sector 19, with a file `F` of three
bytes in sector 18. The image ends after sector 20. -/
def nestedImage : Image where
  read := fun lba =>
    if lba = 18 then some (sectorOf [72, 105, 10])
    else if lba = 19 then
      some (sectorOf (recordOf [0] 19 (0, 8) 2 ++ recordOf [1] 20 (0, 8) 2 ++ recordOf [70] 18 (3, 0) 0))
    else if lba = 20 then
      some (sectorOf (recordOf [0] 20 (0, 8) 2 ++ recordOf [1] 20 (0, 8) 2 ++ recordOf [68] 19 (0, 8) 2))
    else none
  suspEnabled := false
  suspSkip := 0
  size := by
    intro lba s hs
    split at hs
    · cases hs
      decide +kernel
    · split at hs
      · cases hs
        decide +kernel
      · split at hs
        · cases hs
          decide +kernel
        · cases hs

/-- `/D/F` is reported as a file of three bytes that fits the buffer, and it is not read. -/
theorem nested_file_not_read :
    Stats nestedImage ⟨20, 2048⟩ [47, 68, 47, 70] ⟨⟨18, 3⟩, false⟩ ∧
      extentBytes nestedImage 18 3 = some [72, 105, 10] ∧
      (¬ ∃ bytes, Reads nestedImage ⟨20, 2048⟩ [47, 68, 47, 70] 4096 bytes) ∧
      ¬ Meets nestedImage ⟨20, 2048⟩ [47, 68, 47, 70] 4096 := by
  have hstat : Stats nestedImage ⟨20, 2048⟩ [47, 68, 47, 70] ⟨⟨18, 3⟩, false⟩ := ⟨3, by decide +kernel⟩
  have hread : ¬ ∃ bytes, Reads nestedImage ⟨20, 2048⟩ [47, 68, 47, 70] 4096 bytes := by
    rintro ⟨bytes, hb⟩
    have hb : Reads nestedImage ⟨20, 2048⟩ ([47, 68] ++ slash :: [70]) 4096 bytes := hb
    obtain ⟨-, c, ⟨n, hc⟩, -⟩ := (reads_iff (Or.inr rfl) (by decide)).mp hb
    -- the root directory has no `F`
    have hroot : isoWalkComponent nestedImage 3 20 2048 [70] = .failed := by decide +kernel
    have := @walk_unique nestedImage [70] ⟨20, 2048⟩ 3 n _ _ WalkResult.noConfusion WalkResult.noConfusion hroot hc
    cases this
  refine ⟨hstat, by decide +kernel, hread, fun hm => hread (hm.reads.mpr ⟨_, hstat, rfl, ?_⟩)⟩
  decide

end Guppy.Iso
