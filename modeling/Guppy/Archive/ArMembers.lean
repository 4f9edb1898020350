import Guppy.Archive.ArWalk

set_option autoImplicit false

/-! # The members that are recorded

`deb_open_fp` records the last member whose name starts with `control.tar` and the last one whose
name starts with `data.tar`. It seeks over a member without reading it, and a seek behind the end of
the file succeeds: an archive that is cut inside its last member is accepted like a whole one.
-/

namespace Guppy.Archive.Ar

open Vfs Pkg

/-- The members from a position to the end of the file. -/
inductive Walk (file : List UInt8) : Nat → List DebMember → Prop
  | done {p : Nat} : file.length ≤ p → Walk file p []
  | member {p : Nat} {m : DebMember} {ms : List DebMember} : memberAt file p = some m → Readable file m →
      m.next ≤ longMax → Walk file m.next ms → Walk file p (m :: ms)

def isControl (m : DebMember) : Bool := controlTar <+: m.name

def isData (m : DebMember) : Bool := dataTar <+: m.name

/-- The last member of a kind. -/
def lastOf (kind : DebMember → Bool) (ms : List DebMember) : Option DebMember := (ms.filter kind).getLast?

/-- All bytes of a member are in the file. -/
def Whole (file : List UInt8) (m : DebMember) : Prop := m.offset + m.size ≤ file.length

/-- The last control member and the last data member are not cut. -/
def NotCut (file : List UInt8) : Prop :=
  ∀ ms, Walk file 8 ms → (∀ m, lastOf isControl ms = some m → Whole file m) ∧
    ∀ m, lastOf isData ms = some m → Whole file m

/-- A member that is directly behind its own header. -/
def HasHeader (file : List UInt8) (m : DebMember) : Prop := ∃ p, p + 60 = m.offset ∧ memberAt file p = some m

/-- What is wanted of the two members. -/
structure MembersInside (file : List UInt8) (pkg : DebPackage) : Prop where
  control_inside : Whole file pkg.control
  data_inside : Whole file pkg.data
  control_header : HasHeader file pkg.control
  data_header : HasHeader file pkg.data
  disjoint : ∀ i, ¬ ((pkg.control.offset ≤ i ∧ i < pkg.control.offset + pkg.control.size) ∧
    pkg.data.offset ≤ i ∧ i < pkg.data.offset + pkg.data.size)

/-! ## What the loop records -/

/-- The names of the three kinds exclude each other. -/
theorem kinds_apart {m : DebMember} : (m.name = debianBinary → isControl m = false ∧ isData m = false) ∧
    (isControl m = true → isData m = false) := by
  constructor
  · intro h
    unfold isControl isData
    rw [h]
    decide
  · intro hc
    unfold isControl at hc
    unfold isData
    rw [decide_eq_true_iff] at hc
    rw [decide_eq_false_iff_not]
    intro hd
    -- the first letters differ
    obtain ⟨s, hs⟩ := hc
    obtain ⟨t, ht⟩ := hd
    rw [← hs] at ht
    exact absurd (List.cons.inj ht).1 (by decide)

theorem lastOf_cons (kind : DebMember → Bool) (m : DebMember) (ms : List DebMember) :
    lastOf kind (m :: ms) = (lastOf kind ms).or (if kind m = true then some m else none) := by
  unfold lastOf
  by_cases hm : kind m = true
  · rw [List.filter_cons_of_pos hm, if_pos hm]
    cases hfilter : ms.filter kind with
    | nil => rfl
    | cons a l =>
        rw [List.getLast?_cons_cons]
        cases hlast : (a :: l).getLast? with
        | none => exact absurd (List.getLast?_eq_none_iff.mp hlast) (List.cons_ne_nil a l)
        | some b => rfl
  · rw [List.filter_cons_of_neg hm, if_neg hm, Option.or_none]

/-- A member is recorded by its kind, and only the version is read. -/
theorem note_eq (file : List UInt8) (pkg : DebPackage) (m : DebMember) :
    ∃ v, note file pkg m = ⟨v, if isControl m = true then m else pkg.control, if isData m = true then m else pkg.data⟩ := by
  unfold note noteMember
  by_cases hversion : m.name = debianBinary
  · rw [if_pos hversion, (kinds_apart.1 hversion).1, (kinds_apart.1 hversion).2, if_neg Bool.false_ne_true,
      if_neg Bool.false_ne_true]
    dsimp only []
    by_cases hzero : (if m.size < 31 then m.size else 31) = 0
    · rw [if_pos hzero]
      exact ⟨[], rfl⟩
    · rw [if_neg hzero]
      cases fread file m.offset (if m.size < 31 then m.size else 31) with
      | none => exact ⟨pkg.version, rfl⟩
      | some bytes => exact ⟨trim (cText bytes), rfl⟩
  · refine ⟨pkg.version, ?_⟩
    rw [if_neg hversion]
    by_cases hc : isControl m = true
    · rw [if_pos (of_decide_eq_true hc), if_pos hc, kinds_apart.2 hc, if_neg Bool.false_ne_true]
    · rw [if_neg (fun h => hc (decide_eq_true h)), if_neg hc]
      by_cases hd : isData m = true
      · rw [if_pos (of_decide_eq_true hd), if_pos hd]
      · rw [if_neg (fun h => hd (decide_eq_true h)), if_neg hd]

/-- The records at the end are the last members of the two kinds. -/
theorem foldl_note (file : List UInt8) (ms : List DebMember) : ∀ pkg : DebPackage,
    (ms.foldl (note file) pkg).control = (lastOf isControl ms).getD pkg.control ∧
      (ms.foldl (note file) pkg).data = (lastOf isData ms).getD pkg.data := by
  induction ms with
  | nil => exact fun _ => ⟨rfl, rfl⟩
  | cons m ms ih =>
      intro pkg
      obtain ⟨v, hnote⟩ := note_eq file pkg m
      obtain ⟨hcontrol, hdata⟩ := ih (note file pkg m)
      rw [List.foldl_cons, hcontrol, hdata, hnote, lastOf_cons, lastOf_cons]
      constructor
      · cases lastOf isControl ms <;> by_cases h : isControl m = true <;> simp [h]
      · cases lastOf isData ms <;> by_cases h : isData m = true <;> simp [h]

/-- When the loop ends well, it has walked to the end of the file. -/
theorem openLoop_ok {file : List UInt8} (fuel : Nat) : ∀ {p : Nat} {pkg pkg' : DebPackage},
    openLoop file fuel p pkg = some (.ok pkg') → ∃ ms, Walk file p ms ∧ accepted (ms.foldl (note file) pkg) = .ok pkg' := by
  induction fuel with
  | zero =>
      intro p pkg pkg' h
      cases h
  | succ fuel ih =>
      intro p pkg pkg' h
      by_cases hround : ∃ q, Round file p q
      · obtain ⟨q, m, hm, hr, hmax, rfl⟩ := hround
        rw [openLoop_of_round hm hr hmax] at h
        obtain ⟨ms, hwalk, hacc⟩ := ih h
        exact ⟨m :: ms, Walk.member hm hr hmax hwalk, hacc⟩
      · obtain ⟨r, hr, hok⟩ := @openLoop_of_stop file p pkg fuel (fun q hq => hround ⟨q, hq⟩)
        rw [h] at hr
        obtain ⟨hlast, hacc⟩ := hok pkg' (Option.some.inj hr).symm
        exact ⟨[], Walk.done hlast, hacc⟩

theorem walk_unique {file : List UInt8} {p : Nat} {ms : List DebMember} (h : Walk file p ms) :
    ∀ {ms' : List DebMember}, Walk file p ms' → ms' = ms := by
  induction h with
  | done hlast =>
      intro ms' h'
      cases h' with
      | done => rfl
      | member hm _ _ _ =>
          have := (memberAt_inside hm).2
          omega
  | member hm _ _ _ ih =>
      intro ms' h'
      cases h' with
      | done hlast =>
          have := (memberAt_inside hm).2
          omega
      | member hm' _ _ htail =>
          cases Option.some.inj (hm.symm.trans hm')
          rw [ih htail]

theorem lastOf_mem {kind : DebMember → Bool} {ms : List DebMember} {m : DebMember} (h : lastOf kind ms = some m) :
    m ∈ ms ∧ kind m = true := List.mem_filter.mp (List.mem_of_getLast? h)

theorem walk_header {file : List UInt8} {p : Nat} {ms : List DebMember} (h : Walk file p ms) :
    ∀ m ∈ ms, HasHeader file m := by
  induction h with
  | done => exact fun m hm => by cases hm
  | @member p m' ms hm _ _ _ ih =>
      intro m hmem
      rcases List.mem_cons.mp hmem with rfl | hmem
      · exact ⟨p, (memberAt_inside hm).1.symm, hm⟩
      · exact ih m hmem

/-- A package that is opened: its members, and which of them are recorded. -/
theorem debOpenFp_ok {fuel : Nat} {file : List UInt8} {pkg : DebPackage} (h : debOpenFp fuel file = some (.ok pkg)) :
    Visits file 8 ∧ ∃ ms, Walk file 8 ms ∧ lastOf isControl ms = some pkg.control ∧ lastOf isData ms = some pkg.data := by
  unfold debOpenFp at h
  cases hread : fread file 0 8 with
  | none =>
      rw [hread] at h
      cases h
  | some magic =>
      rw [hread] at h
      dsimp only [] at h
      by_cases hmagic : magic ≠ [33, 60, 97, 114, 99, 104, 62, 10]
      · rw [if_pos hmagic] at h
        cases h
      · rw [if_neg hmagic] at h
        rw [not_not.mp hmagic] at hread
        obtain ⟨ms, hwalk, hacc⟩ := openLoop_ok fuel h
        refine ⟨Visits.first hread, ms, hwalk, ?_⟩
        unfold accepted at hacc
        split at hacc
        · rename_i hnames
          cases hacc
          obtain ⟨hcontrol, hdata⟩ := foldl_note file ms ⟨[], ⟨[], 0, 0⟩, ⟨[], 0, 0⟩⟩
          -- a kind that was not met would have left its name empty
          constructor
          · cases hlast : lastOf isControl ms with
            | none =>
                rw [hlast] at hcontrol
                exact absurd (congrArg DebMember.name hcontrol) hnames.2.1
            | some m => rw [hcontrol, hlast, Option.getD_some]
          · cases hlast : lastOf isData ms with
            | none =>
                rw [hlast] at hdata
                exact absurd (congrArg DebMember.name hdata) hnames.2.2
            | some m => rw [hdata, hlast, Option.getD_some]
        · cases hacc

/-! ## Members that do not meet -/

section

variable {file : List UInt8} {p : Nat} {ms : List DebMember}

/-- Behind a member that is in the file the walk goes on at its end. -/
theorem next_of_whole {m : DebMember} (hfile : file.length ≤ longMax) (hw : Whole file m) :
    m.next = m.offset + m.size + m.size % 2 := by
  have hmax : longMax = 9223372036854775807 := rfl
  unfold Whole at hw
  unfold DebMember.next
  exact Nat.mod_eq_of_lt (by omega)

/-- When all rounds go forward, the members lie behind the position. -/
theorem walk_behind (hforward : ∀ p q, Visits file p → Round file p q → p < q) (h : Walk file p ms) :
    Visits file p → ∀ m ∈ ms, p + 60 ≤ m.offset := by
  induction h with
  | done => exact fun _ m hm => by cases hm
  | @member p m' ms hm hr hmax _ ih =>
      intro hp m hmem
      have hround : Round file p m'.next := ⟨m', hm, hr, hmax, rfl⟩
      rcases List.mem_cons.mp hmem with rfl | hmem
      · exact (memberAt_inside hm).1.ge
      · have hlt := hforward p m'.next hp hround
        have hle := ih (Visits.next hp hround) m hmem
        omega

/-- Two members that are in the file: one ends where the other has not begun. -/
theorem walk_apart (hfile : file.length ≤ longMax) (hforward : ∀ p q, Visits file p → Round file p q → p < q)
    (h : Walk file p ms) : Visits file p → ∀ a ∈ ms, ∀ b ∈ ms, a ≠ b → Whole file a → Whole file b →
      a.offset + a.size ≤ b.offset ∨ b.offset + b.size ≤ a.offset := by
  induction h with
  | done => exact fun _ a ha => by cases ha
  | @member p m ms hm hr hmax htail ih =>
      intro hp a ha b hb hne hwa hwb
      have hvisit : Visits file m.next := Visits.next hp ⟨m, hm, hr, hmax, rfl⟩
      rcases List.mem_cons.mp ha with rfl | hatail
      · rcases List.mem_cons.mp hb with rfl | hbtail
        · exact absurd rfl hne
        · -- `b` comes later, so that its header is behind `a`
          have hle := walk_behind hforward htail hvisit b hbtail
          rw [next_of_whole hfile hwa] at hle
          left
          omega
      · rcases List.mem_cons.mp hb with rfl | hbtail
        · have hle := walk_behind hforward htail hvisit a hatail
          rw [next_of_whole hfile hwb] at hle
          right
          omega
        · exact ih hvisit a hatail b hbtail hne hwa hwb

/-- Sizes without a sign never step back. -/
theorem not_stepsBack_of_walk (h : Walk file 8 ms) (hsmall : ∀ m ∈ ms, m.size < 10 ^ 10) :
    ∀ p, Visits file p → ¬ StepsBack file p := by
  have hsuffix : ∀ p, Visits file p → ∃ rest, Walk file p rest ∧ ∀ m ∈ rest, m.size < 10 ^ 10 := by
    intro p hp
    induction hp with
    | first => exact ⟨ms, h, hsmall⟩
    | next _ hround ih =>
        obtain ⟨rest, hrest, hall⟩ := ih
        obtain ⟨m, hm, -, -, rfl⟩ := hround
        cases hrest with
        | done hlast =>
            have := (memberAt_inside hm).2
            omega
        | member hm' _ _ htail =>
            cases Option.some.inj (hm.symm.trans hm')
            exact ⟨_, htail, fun m hmem => hall m (List.mem_cons_of_mem _ hmem)⟩
  rintro p hp ⟨m, k, hm, -, hk, h60, -⟩
  obtain ⟨rest, hrest, hall⟩ := hsuffix p hp
  obtain ⟨hklt, hdec⟩ := dec_minus (length_sizeField_le file p) hk
  have hsize : m.size = 18446744073709551616 - k := by
    rw [memberAt_size hm] at hdec
    rw [Option.some.inj hdec, Nat.mod_eq_of_lt (by omega)]
  cases hrest with
  | done hlast =>
      have := (memberAt_inside hm).2
      omega
  | member hm' _ _ _ =>
      cases Option.some.inj (hm.symm.trans hm')
      have hlt := hall m (List.mem_cons_self ..)
      norm_num at hlt hklt
      omega

end

/-- When a package is opened, its two members are as they should be only if the archive is not cut in
the last member of one of the two kinds; and they are if, besides, no size leads the loop back. -/
theorem debOpenFp_members {fuel : Nat} {file : List UInt8} {pkg : DebPackage} (hfile : file.length ≤ longMax)
    (h : debOpenFp fuel file = some (.ok pkg)) :
    (MembersInside file pkg → NotCut file) ∧
      (NotCut file → (∀ p, Visits file p → ¬ StepsBack file p) → MembersInside file pkg) := by
  obtain ⟨hstart, ms, hwalk, hcontrol, hdata⟩ := debOpenFp_ok h
  constructor
  · intro hin ms' hwalk'
    rw [walk_unique hwalk hwalk', hcontrol, hdata]
    constructor
    · rintro m ⟨⟩
      exact hin.control_inside
    · rintro m ⟨⟩
      exact hin.data_inside
  · intro hcut hback
    have hforward : ∀ p q, Visits file p → Round file p q → p < q :=
      fun p q hp hq => (forward_iff hp).mpr (hback p hp) q hq
    obtain ⟨hcmem, hckind⟩ := lastOf_mem hcontrol
    obtain ⟨hdmem, hdkind⟩ := lastOf_mem hdata
    have hcwhole := (hcut ms hwalk).1 pkg.control hcontrol
    have hdwhole := (hcut ms hwalk).2 pkg.data hdata
    have hne : pkg.control ≠ pkg.data := by
      intro heq
      rw [heq] at hckind
      rw [kinds_apart.2 hckind] at hdkind
      cases hdkind
    have hapart := walk_apart hfile hforward hwalk hstart _ hcmem _ hdmem hne hcwhole hdwhole
    exact ⟨hcwhole, hdwhole, walk_header hwalk _ hcmem, walk_header hwalk _ hdmem, fun i hi => by omega⟩

/-- A header for a member with a size of at most nine digits. -/
def plainHeader (name size : Text) : List UInt8 :=
  name ++ List.replicate (48 - name.length) space ++ size ++ List.replicate (10 - size.length) space ++ [96, newline]

/-- A package with an empty control member and a data member of two bytes, of which `data` is there. -/
def tinyPackage (data : List UInt8) : List UInt8 :=
  [33, 60, 97, 114, 99, 104, 62, 10] ++ plainHeader debianBinary [52] ++ [50, 46, 48, 10] ++
    plainHeader controlTar [48] ++ plainHeader dataTar [50] ++ data

theorem debOpenFp_members_tiny :
    MembersInside (tinyPackage [1, 2]) ⟨[50, 46, 48], ⟨controlTar, 132, 0⟩, ⟨dataTar, 192, 2⟩⟩ := by
  have hopen : debOpenFp 4 (tinyPackage [1, 2]) =
      some (.ok ⟨[50, 46, 48], ⟨controlTar, 132, 0⟩, ⟨dataTar, 192, 2⟩⟩) := by decide +kernel
  have hwalk : Walk (tinyPackage [1, 2]) 8 [⟨debianBinary, 68, 4⟩, ⟨controlTar, 132, 0⟩, ⟨dataTar, 192, 2⟩] := by
    refine Walk.member (by decide +kernel) (by decide +kernel) (by decide +kernel) ?_
    refine Walk.member (by decide +kernel) (by decide +kernel) (by decide +kernel) ?_
    refine Walk.member (by decide +kernel) (by decide +kernel) (by decide +kernel) (Walk.done (by decide +kernel))
  refine (debOpenFp_members (by decide +kernel) hopen).2 ?_ (not_stepsBack_of_walk hwalk (by decide +kernel))
  intro ms hms
  rw [walk_unique hwalk hms]
  constructor
  · intro m hm
    rw [show lastOf isControl [⟨debianBinary, 68, 4⟩, ⟨controlTar, 132, 0⟩, ⟨dataTar, 192, 2⟩] =
      some ⟨controlTar, 132, 0⟩ by decide +kernel] at hm
    cases hm
    exact Nat.le_of_ble_eq_true (by decide +kernel)
  · intro m hm
    rw [show lastOf isData [⟨debianBinary, 68, 4⟩, ⟨controlTar, 132, 0⟩, ⟨dataTar, 192, 2⟩] =
      some ⟨dataTar, 192, 2⟩ by decide +kernel] at hm
    cases hm
    exact Nat.le_of_ble_eq_true (by decide +kernel)

/-- Without its last bytes the package is opened all the same, with a data member that is not there. -/
theorem cut_package_opens : debOpenFp 4 (tinyPackage []) =
      some (.ok ⟨[50, 46, 48], ⟨controlTar, 132, 0⟩, ⟨dataTar, 192, 2⟩⟩) ∧ (tinyPackage []).length = 192 ∧
    ¬ MembersInside (tinyPackage []) ⟨[50, 46, 48], ⟨controlTar, 132, 0⟩, ⟨dataTar, 192, 2⟩⟩ := by
  have hlen : (tinyPackage []).length = 192 := by decide +kernel
  refine ⟨by decide +kernel, hlen, fun hin => ?_⟩
  have hdata : 192 + 2 ≤ (tinyPackage []).length := hin.data_inside
  rw [hlen] at hdata
  omega

end Guppy.Archive.Ar
