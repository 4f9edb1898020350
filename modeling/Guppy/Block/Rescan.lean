import Guppy.Block.Open

set_option autoImplicit false

/-! # What a rescan touches

The children of a disk are recognised by their names: the name of the disk followed by digits. So
`vblk_remove_children` also removes a disk whose name happens to be of that form, with nothing to
stop the user from attaching one. While no disk is named like a partition of another one, and the
names leave room for a digit, a rescan changes the partitions of its disk and nothing else
(`rescan_keeps_others`).
-/

namespace Guppy.Block

open Vfs

/-! ## The registry -/

/-- A partition of the disk `name`. -/
def Vblk.PartOf (e : Vblk) (name : Text) : Prop := 0 ≤ e.partIndex ∧ e.dev = name

/-- A whole disk. -/
def Vblk.Disk (e : Vblk) : Prop := e.name ≠ [] ∧ e.partIndex < 0

/-- Disks are registered under the name of their own device, partitions under the name of a disk
that is registered, followed by digits; and no disk is named like a partition of another one. -/
structure Separate (reg : Registry) : Prop where
  own : ∀ e ∈ reg, e.Disk → e.dev = e.name
  parts : ∀ e ∈ reg, e.name ≠ [] → 0 ≤ e.partIndex →
    isChildName e.dev e.name = true ∧ ∃ d ∈ reg, d.Disk ∧ d.name = e.dev
  apart : ∀ d ∈ reg, ∀ d' ∈ reg, d.Disk → d'.Disk → isChildName d.name d'.name = false

theorem separate_nil : Separate [] where
  own := by simp
  parts := by simp
  apart := by simp

section

variable {reg reg' : Registry} {d e c : Vblk} {i slot : Nat} {name kind : Text}

theorem not_child_nil {parent : Text} : isChildName parent [] = false := by
  rw [Bool.eq_false_iff, Ne, isChildName_iff]
  rintro ⟨ds, hds, hne, -⟩
  exact hne (List.append_eq_nil_iff.mp hds.symm).2

/-- A name is made from one disk only. -/
theorem Separate.partOf (h : Separate reg) (hd : d ∈ reg) (hdisk : d.Disk) (he : e ∈ reg)
    (hc : isChildName d.name e.name = true) : e.PartOf d.name := by
  have hne : e.name ≠ [] := by
    intro hnil
    rw [hnil, not_child_nil] at hc
    cases hc
  by_cases hpart : 0 ≤ e.partIndex
  · refine ⟨hpart, ?_⟩
    obtain ⟨hself, f, hf, hfdisk, hfn⟩ := h.parts e he hne hpart
    rw [← hfn] at hself ⊢
    obtain ⟨ds, hds, hds0, hdall⟩ := isChildName_iff.mp hc
    obtain ⟨es, hes, hes0, heall⟩ := isChildName_iff.mp hself
    rw [hds] at hes
    -- two disks that begin the same name: the shorter one would have the other for a child
    rcases List.append_eq_append_iff.mp hes with ⟨xs, hf', hx⟩ | ⟨xs, hd', hx⟩
    · by_cases hxs : xs = []
      · rw [hf', hxs, List.append_nil]
      · have hchild : isChildName d.name f.name = true := by
          refine isChildName_iff.mpr ⟨xs, hf', hxs, ?_⟩
          rw [hx, List.all_append, Bool.and_eq_true] at hdall
          exact hdall.1
        rw [h.apart d hd f hf hdisk hfdisk] at hchild
        cases hchild
    · by_cases hxs : xs = []
      · rw [hd', hxs, List.append_nil]
      · have hchild : isChildName f.name d.name = true := by
          refine isChildName_iff.mpr ⟨xs, hd', hxs, ?_⟩
          rw [hx, List.all_append, Bool.and_eq_true] at heall
          exact heall.1
        rw [h.apart f hf d hd hfdisk hdisk] at hchild
        cases hchild
  · have hdisk' : e.Disk := ⟨hne, by omega⟩
    rw [h.apart d hd e he hdisk hdisk'] at hc
    cases hc

/-- An entry with the name of a disk is a disk. -/
theorem Separate.disk_of_name (h : Separate reg) (he : e ∈ reg) (hne : e.name ≠ [])
    (hname : ∀ d ∈ reg, d.Disk → isChildName d.name e.name = false) : e.Disk := by
  refine ⟨hne, ?_⟩
  by_contra hpart
  obtain ⟨hchild, d, hd, hdisk, hdn⟩ := h.parts e he hne (by omega)
  rw [← hdn, hname d hd hdisk] at hchild
  cases hchild

theorem vblkByName_of_mem (he : e ∈ reg) (hne : e.name ≠ []) : ∃ q, vblkByName reg e.name = some q := by
  cases hfind : findByName reg e.name with
  | none =>
      obtain ⟨j, hj⟩ := List.mem_iff_getElem?.mp he
      exact absurd rfl ((findByName_none_iff hne).mp hfind j e hj)
  | some j =>
      obtain ⟨q, hq, -⟩ := findByName_some_iff.mp hfind
      refine ⟨q, ?_⟩
      unfold vblkByName
      rw [hfind, Option.bind_some, hq]

/-! ## One entry -/

/-- Where `vblk_register` puts an entry. -/
theorem vblkRegister_put (hr : vblkRegister reg e = some reg') : e.name ≠ [] ∧ ∃ i, i ≤ reg.length ∧
    (∀ f, reg[i]? = some f → f.name = [] ∨ f.name = e.name) ∧ reg' = put reg i e := by
  unfold vblkRegister at hr
  split at hr
  · cases hr
  · rename_i hne
    refine ⟨hne, ?_⟩
    split at hr
    · rename_i i hi
      cases hr
      obtain ⟨f, hf, -, hname, -⟩ := findByName_some_iff.mp hi
      have hil := (List.getElem?_eq_some_iff.mp hf).1
      refine ⟨i, by omega, fun g hg => ?_, (if_pos hil).symm⟩
      rw [hf] at hg
      cases hg
      exact Or.inr hname
    · split at hr
      · rename_i i hi
        cases hr
        obtain ⟨hil, hfree, -⟩ := List.findIdx?_eq_some_iff_getElem.mp hi
        refine ⟨i, by omega, fun g hg => ?_, (if_pos hil).symm⟩
        rw [List.getElem?_eq_getElem hil] at hg
        cases hg
        exact Or.inl (of_decide_eq_true hfree)
      · split at hr
        · cases hr
        · cases hr
          refine ⟨reg.length, le_rfl, fun g hg => ?_, (if_neg (by omega)).symm⟩
          rw [List.getElem?_eq_none (le_refl _)] at hg
          cases hg

theorem mem_put (hi : i ≤ reg.length) : c ∈ put reg i e → c = e ∨ c ∈ reg := by
  intro hc
  obtain ⟨j, hj⟩ := List.mem_iff_getElem?.mp hc
  rw [getElem?_put hi] at hj
  split at hj
  · cases hj
    exact Or.inl rfl
  · exact Or.inr (List.mem_of_getElem? hj)

/-- An entry that is not in the slot stays. -/
theorem mem_put_of (hi : i ≤ reg.length) (hc : c ∈ reg) (hnot : reg[i]? ≠ some c) : c ∈ put reg i e := by
  obtain ⟨j, hj⟩ := List.mem_iff_getElem?.mp hc
  have hji : j ≠ i := by
    rintro rfl
    exact hnot hj
  refine List.mem_of_getElem? (i := j) ?_
  rw [getElem?_put hi, if_neg hji]
  exact hj

/-- Registering a child of a disk. -/
theorem Separate.put_child (h : Separate reg) (hd : d ∈ reg) (hdisk : d.Disk) (hi : i ≤ reg.length)
    (hwas : ∀ f, reg[i]? = some f → f.name = [] ∨ f.name = e.name) (hpart : e.PartOf d.name)
    (hchild : isChildName d.name e.name = true) : Separate (put reg i e) := by
  -- the slot does not hold a disk
  have hkeep : ∀ f ∈ reg, f.Disk → f ∈ put reg i e := by
    intro f hf hfdisk
    refine mem_put_of hi hf (fun hfi => ?_)
    rcases hwas f hfi with hnil | hsame
    · exact hfdisk.1 hnil
    · rw [← hsame, h.apart d hd f hf hdisk hfdisk] at hchild
      cases hchild
  have hnew : ¬ e.Disk := fun hdisk' => absurd hpart.1 (by have := hdisk'.2; omega)
  constructor
  · intro f hf hfdisk
    rcases mem_put hi hf with rfl | hf
    · exact absurd hfdisk hnew
    · exact h.own f hf hfdisk
  · intro f hf hne hfpart
    rcases mem_put hi hf with rfl | hf
    · rw [hpart.2]
      exact ⟨hchild, d, hkeep d hd hdisk, hdisk, rfl⟩
    · obtain ⟨hself, g, hg, hgdisk, hgn⟩ := h.parts f hf hne hfpart
      exact ⟨hself, g, hkeep g hg hgdisk, hgdisk, hgn⟩
  · intro f hf g hg hfdisk hgdisk
    rcases mem_put hi hf with rfl | hf
    · exact absurd hfdisk hnew
    rcases mem_put hi hg with rfl | hg
    · exact absurd hgdisk hnew
    exact h.apart f hf g hg hfdisk hgdisk

/-- Registering a whole disk that has no name of a partition, and whose partitions have no name of a
disk. -/
theorem Separate.put_disk (h : Separate reg) (hi : i ≤ reg.length)
    (hwas : ∀ f, reg[i]? = some f → f.name = [] ∨ f.name = e.name) (hdisk : e.Disk) (hown : e.dev = e.name)
    (hfree : ∀ f ∈ reg, f.Disk → isChildName f.name e.name = false ∧ isChildName e.name f.name = false) :
    Separate (put reg i e) := by
  have hmem : e ∈ put reg i e := List.mem_of_getElem? (i := i) (by rw [getElem?_put hi, if_pos rfl])
  constructor
  · intro f hf hfdisk
    rcases mem_put hi hf with rfl | hf
    · exact hown
    · exact h.own f hf hfdisk
  · intro f hf hne hfpart
    rcases mem_put hi hf with rfl | hf
    · exact absurd hfpart (by have := hdisk.2; omega)
    · obtain ⟨hself, g, hg, hgdisk, hgn⟩ := h.parts f hf hne hfpart
      refine ⟨hself, ?_⟩
      by_cases hgi : reg[i]? = some g
      · -- the disk is registered anew
        refine ⟨e, hmem, hdisk, ?_⟩
        rcases hwas g hgi with hnil | hsame
        · exact absurd hnil hgdisk.1
        · rw [← hsame, hgn]
      · exact ⟨g, mem_put_of hi hg hgi, hgdisk, hgn⟩
  · intro f hf g hg hfdisk hgdisk
    rcases mem_put hi hf with rfl | hf'
    · rcases mem_put hi hg with rfl | hg
      · exact isChildName_self _
      · exact (hfree g hg hgdisk).2
    · rcases mem_put hi hg with rfl | hg'
      · exact (hfree f hf' hfdisk).1
      · exact h.apart f hf' g hg' hfdisk hgdisk

/-- Removing the children of a disk removes partitions only. -/
theorem Separate.removeChildren (h : Separate reg) (hd : d ∈ reg) (hdisk : d.Disk) :
    Separate (vblkRemoveChildren reg d.name) := by
  have hne := hdisk.1
  have hold : ∀ f ∈ vblkRemoveChildren reg d.name, f.name ≠ [] → f ∈ reg := by
    intro f hf hfn
    obtain ⟨j, hj⟩ := List.mem_iff_getElem?.mp hf
    rcases removeChildren_some hne hj with rfl | ⟨hj, -⟩
    · exact absurd rfl hfn
    · exact List.mem_of_getElem? hj
  have hkeep : ∀ f ∈ reg, f.Disk → f ∈ vblkRemoveChildren reg d.name := by
    intro f hf hfdisk
    obtain ⟨j, hj⟩ := List.mem_iff_getElem?.mp hf
    exact List.mem_of_getElem? (removeChildren_kept hne hj (h.apart d hd f hf hdisk hfdisk))
  constructor
  · exact fun f hf hfdisk => h.own f (hold f hf hfdisk.1) hfdisk
  · intro f hf hfn hfpart
    obtain ⟨hself, g, hg, hgdisk, hgn⟩ := h.parts f (hold f hf hfn) hfn hfpart
    exact ⟨hself, g, hkeep g hg hgdisk, hgdisk, hgn⟩
  · exact fun f hf g hg hfdisk hgdisk => h.apart f (hold f hf hfdisk.1) g (hold g hg hgdisk.1) hfdisk hgdisk

/-! ## A scan -/

/-- What holds while the children of a disk are registered: its entry stays in its slot. -/
structure Filling (name : Text) (slot : Nat) (reg : Registry) : Prop where
  separate : Separate reg
  parent : ∃ p, reg[slot]? = some p ∧ p.name = name ∧ p.Disk

/-- The entries whose names are not those of children are where they were. -/
def KeepsOthers (name : Text) (reg reg' : Registry) : Prop :=
  ∀ (i : Nat) (e : Vblk), reg[i]? = some e → e.name ≠ [] → isChildName name e.name = false →
    reg'[i]? = some e

theorem KeepsOthers.trans {reg'' : Registry} (h : KeepsOthers name reg reg') (h' : KeepsOthers name reg' reg'') :
    KeepsOthers name reg reg'' := fun i e he hne hno => h' i e (h i e he hne hno) hne hno

theorem Filling.registerChild (h : Filling name slot reg) (hlen : name.length ≤ 30) (nth : Nat) (span : Span) :
    Filling name slot (registerChild slot name kind nth span reg) ∧
      KeepsOthers name reg (registerChild slot name kind nth span reg) := by
  obtain ⟨p, hp, rfl, hdisk⟩ := h.parent
  have hmem := List.mem_of_getElem? hp
  unfold Block.registerChild
  split
  · exact ⟨h, fun i e he _ _ => he⟩
  · have hget : reg.getD slot Vblk.empty = p := by
      rw [List.getD_eq_getElem?_getD, hp, Option.getD_some]
    rw [hget]
    cases hr : vblkRegister reg (childOf p p.name nth span kind) with
    | none => exact ⟨h, fun i e he _ _ => he⟩
    | some reg' =>
        obtain ⟨-, i, hi, hwas, rfl⟩ := vblkRegister_put hr
        have hchild : isChildName p.name (childOf p p.name nth span kind).name = true := by
          rcases childName_cases (show p.name.length ≤ 31 by omega) nth with hc | ⟨h31, -⟩
          · exact hc
          · omega
        have hpart : (childOf p p.name nth span kind).PartOf p.name :=
          ⟨Int.natCast_nonneg nth, h.separate.own p hmem hdisk⟩
        -- the slot is free, or holds a partition of this disk
        have hkeeps : KeepsOthers p.name reg (put reg i (childOf p p.name nth span kind)) := by
          intro j e he hne hno
          have hji : j ≠ i := by
            rintro rfl
            rcases hwas e he with hnil | hsame
            · exact hne hnil
            · rw [hsame, hchild] at hno
              cases hno
          rw [getElem?_put hi, if_neg hji]
          exact he
        exact ⟨⟨h.separate.put_child hmem hdisk hi hwas hpart hchild,
          p, hkeeps slot p hp hdisk.1 (isChildName_self _), rfl, hdisk⟩, hkeeps⟩

theorem Filling.registerChildren (hlen : name.length ≤ 30) (spans : List Span) : ∀ {nth : Nat} {reg : Registry},
    Filling name slot reg → Filling name slot (registerChildren slot name kind nth spans reg) ∧
      KeepsOthers name reg (registerChildren slot name kind nth spans reg) := by
  induction spans with
  | nil =>
      intro nth reg h
      exact ⟨h, fun i e he _ _ => he⟩
  | cons span spans ih =>
      intro nth reg h
      obtain ⟨h₁, hkeeps₁⟩ := @Filling.registerChild reg slot name kind h hlen nth span
      obtain ⟨h₂, hkeeps₂⟩ := @ih (nth + 1) _ h₁
      exact ⟨h₂, hkeeps₁.trans hkeeps₂⟩

/-- The name of a disk leaves room for a digit, or the scan finds no partition. -/
def ScanFits (io : Diskio) (reg : Registry) (name : Text) (fuel : Nat) : Prop :=
  name.length ≤ 30 ∨ ∀ slot p spans kind, findByName reg name = some slot → reg[slot]? = some p →
    findPartitions io p fuel = some (spans, kind) → ∀ s ∈ spans, s.2 < s.1

/-- A scan of a disk. -/
theorem diskScan_keeps {io : Diskio} {fuel : Nat} (h : Separate reg)
    (hdisk : ∀ p, vblkByName reg name = some p → p.Disk) (hfits : ScanFits io reg name fuel)
    (hr : diskScanPartitions io reg name fuel = some reg') : Separate reg' ∧ KeepsOthers name reg reg' := by
  unfold diskScanPartitions at hr
  split at hr
  · cases hr
    exact ⟨h, fun i e he _ _ => he⟩
  · rename_i slot hslot
    obtain ⟨p, hp, hpne, rfl, -⟩ := findByName_some_iff.mp hslot
    have hpdisk : p.Disk := by
      refine hdisk p ?_
      unfold vblkByName
      rw [hslot, Option.bind_some, hp]
    have hmem := List.mem_of_getElem? hp
    have hkept := removeChildren_kept hpne hp (isChildName_self p.name)
    have hget : (vblkRemoveChildren reg p.name).getD slot Vblk.empty = p := by
      rw [List.getD_eq_getElem?_getD, hkept, Option.getD_some]
    simp only [hget, Option.bind_eq_bind, Option.bind_eq_some_iff] at hr
    obtain ⟨⟨spans, kind⟩, hfind, hreg⟩ := hr
    cases hreg
    have hremoved : KeepsOthers p.name reg (vblkRemoveChildren reg p.name) :=
      fun i e he _ hno => removeChildren_kept hpne he hno
    have hseparate := h.removeChildren hmem hpdisk
    rcases hfits with hlen | hnone
    · obtain ⟨hfill, hkeeps⟩ := @Filling.registerChildren slot p.name kind hlen (sortPairs spans.length spans) 1 _
        ⟨hseparate, p, hkept, rfl, hpdisk⟩
      exact ⟨hfill.separate, hremoved.trans hkeeps⟩
    · have hperm := sortPairs_perm spans.length spans
      rw [registerChildren_empty (fun s hs => hnone slot p spans kind hslot hp hfind s (hperm.mem_iff.mp hs))]
      exact ⟨hseparate, hremoved⟩

end

/-! ## Runs -/

/-- A disk is attached under a name that is not that of a partition of another disk, and whose
partitions do not have the name of one; what is rescanned is a disk; and there is room for the names
of partitions. -/
def Event.Separate (w : World) : Event → Prop
  | .use devname k fuel =>
      (∀ d ∈ w.reg, d.Disk → isChildName d.name (devname.take 31) = false ∧
        isChildName (devname.take 31) d.name = false) ∧
      ∀ io reg, diskioAttachImage w.io devname k = some io →
        vblkRegister w.reg (wholeDisk devname k.size) = some reg → ScanFits io reg (devname.take 31) fuel
  | .rescan devname fuel =>
      (∀ p, vblkByName w.reg (devname.take 31) = some p → p.Disk) ∧
        ScanFits w.io w.reg (devname.take 31) fuel
  | .media _ => True

theorem Event.run_separate {w w' : World} {e : Event} (h : Block.Separate w.reg) (hs : e.Separate w)
    (hr : e.run w = some w') : Block.Separate w'.reg := by
  cases e with
  | use devname k fuel =>
      simp only [Event.run, handleUseAttach] at hr
      split at hr
      · cases hr
        exact h
      · rename_i io hio
        split at hr
        · cases hr
          exact h
        · rename_i reg hreg
          obtain ⟨hfree, hfits⟩ := hs
          obtain ⟨hne, i, hi, hwas, rfl⟩ := vblkRegister_put hreg
          have hminus : (wholeDisk devname k.size).partIndex = -1 := rfl
          have hdisk : (wholeDisk devname k.size).Disk := ⟨hne, by omega⟩
          have hsep := h.put_disk hi hwas hdisk rfl hfree
          have hmem : wholeDisk devname k.size ∈ put w.reg i (wholeDisk devname k.size) :=
            List.mem_of_getElem? (i := i) (by rw [getElem?_put hi, if_pos rfl])
          -- whatever is found under the name is a disk
          have hfound : ∀ p, vblkByName (put w.reg i (wholeDisk devname k.size)) (devname.take 31) = some p →
              p.Disk := by
            intro p hp
            obtain ⟨j, hj, hpj⟩ := Option.bind_eq_some_iff.mp hp
            obtain ⟨q, hq, hqne, hqn, -⟩ := findByName_some_iff.mp hj
            obtain rfl : q = p := Option.some.inj (hq.symm.trans hpj)
            refine hsep.disk_of_name (List.mem_of_getElem? hq) hqne (fun d hd hddisk => ?_)
            rw [hqn]
            exact hsep.apart d hd _ hmem hddisk hdisk
          obtain ⟨reg', hscan, rfl⟩ := Option.map_eq_some_iff.mp hr
          unfold addDisk at hscan
          split at hscan
          · exact (diskScan_keeps hsep hfound (hfits io _ hio hreg) hscan).1
          · rename_i hnone
            obtain ⟨q, hq⟩ := vblkByName_of_mem hmem hne
            exact absurd (hq.symm.trans hnone) (by simp)
  | rescan devname fuel =>
      simp only [Event.run, blockRescan, Option.map_eq_some_iff] at hr
      obtain ⟨reg', hscan, rfl⟩ := hr
      exact (diskScan_keeps h hs.1 hs.2 hscan).1
  | media io =>
      cases hr
      exact h

theorem Reached.separate {w : World} (h : Reached (fun w e => e.Separate w) w) : Block.Separate w.reg := by
  induction h with
  | start => exact separate_nil
  | step _ hs hr ih => exact Event.run_separate ih hs hr

/-- In every run whose steps all meet the condition, a rescan of a disk that meets it leaves all
entries alone but the partitions of that disk. -/
theorem rescan_keeps_others {w w' : World} {devname : Text} {fuel : Nat}
    (h : Reached (fun w e => e.Separate w) w) (hs : (Event.rescan devname fuel).Separate w)
    (hr : blockRescan w devname fuel = some w') :
    ∀ (i : Nat) (e : Vblk), w.reg[i]? = some e → e.name ≠ [] → ¬ e.PartOf (devname.take 31) →
      w'.reg[i]? = some e := by
  intro i e he hne hnot
  obtain ⟨reg', hscan, rfl⟩ := Option.map_eq_some_iff.mp hr
  cases hfind : findByName w.reg (devname.take 31) with
  | none =>
      -- there is no such device, and nothing happens
      unfold diskScanPartitions at hscan
      rw [hfind] at hscan
      cases hscan
      exact he
  | some slot =>
      obtain ⟨p, hp, hpne, hpn, -⟩ := findByName_some_iff.mp hfind
      have hpdisk : p.Disk := by
        refine hs.1 p ?_
        unfold vblkByName
        rw [hfind, Option.bind_some, hp]
      refine (diskScan_keeps h.separate hs.1 hs.2 hscan).2 i e he hne ?_
      by_contra hchild
      rw [Bool.not_eq_false, ← hpn] at hchild
      refine hnot ?_
      rw [← hpn]
      exact h.separate.partOf (List.mem_of_getElem? hp) hpdisk (List.mem_of_getElem? he) hchild

/-- Two disks are attached, each with one partition, and the first is rescanned. -/
theorem rescan_keeps_others_two : ∃ w w', Event.runAll ⟨[], []⟩ [.use devA onePartition 1, .use devB onePartition 1] =
      some w ∧ blockRescan w devA 1 = some w' ∧ w.reg.length = 4 ∧
    ∀ (i : Nat) (e : Vblk), w.reg[i]? = some e → e.name ≠ [] → ¬ e.PartOf (devA.take 31) →
      w'.reg[i]? = some e := by
  have hfirst : (Event.run ⟨[], []⟩ (.use devA onePartition 1)).any (fun w =>
      w.reg.all (fun d => !isChildName d.name devB && !isChildName devB d.name)) = true := by
    decide +kernel
  have hsecond : (Event.runAll ⟨[], []⟩ [.use devA onePartition 1, .use devB onePartition 1]).any (fun w =>
      w.reg.length = 4 ∧ (vblkByName w.reg devA).all (fun p => p.name ≠ [] ∧ p.partIndex < 0) ∧
        (blockRescan w devA 1).isSome) = true := by
    decide +kernel
  obtain ⟨w, hw, hprop⟩ := (Option.any_eq_true _ _).mp hsecond
  obtain ⟨hlen, hdisk, hscan⟩ := of_decide_eq_true hprop
  obtain ⟨w', hw'⟩ := Option.isSome_iff_exists.mp hscan
  obtain ⟨w₁, hw₁, hfree⟩ := (Option.any_eq_true _ _).mp hfirst
  have hrun₂ : Event.run w₁ (.use devB onePartition 1) = some w := by
    unfold Event.runAll at hw
    rw [List.foldlM_cons, hw₁, Option.bind_eq_bind, Option.bind_some, List.foldlM_cons] at hw
    obtain ⟨w₂, hw₂, hnil⟩ := Option.bind_eq_some_iff.mp hw
    cases hnil
    exact hw₂
  have hshort : ∀ io reg name, name.length ≤ 30 → ScanFits io reg name 1 := fun _ _ _ hle => Or.inl hle
  have hreach : Reached (fun w e => e.Separate w) w := by
    refine Reached.step (Reached.step .start ?_ hw₁) ?_ hrun₂
    · exact ⟨fun d hd => absurd hd (by simp), fun _ _ _ _ => hshort _ _ _ (by decide)⟩
    · refine ⟨fun d hd _ => ?_, fun _ _ _ _ => hshort _ _ _ (by decide)⟩
      have hboth := List.all_eq_true.mp hfree d hd
      have htake : devB.take 31 = devB := rfl
      rw [htake]
      simpa using hboth
  refine ⟨w, w', hw, hw', hlen, rescan_keeps_others hreach ⟨fun p hp => ?_, hshort _ _ _ (by decide)⟩ hw'⟩
  have htake : devA.take 31 = devA := rfl
  rw [htake] at hp
  rw [hp] at hdisk
  have hprops : p.name ≠ [] ∧ p.partIndex < 0 := of_decide_eq_true hdisk
  exact hprops

/-- `"/dev/a1"` -/
def devA1 : Text := devA ++ [49]

/-- A disk that is named like a partition of another one is gone when that one is rescanned. -/
theorem rescan_removes_disk : ∃ w w', Event.runAll ⟨[], []⟩ [.use devA blankDisk 1, .use devA1 blankDisk 1] = some w ∧
    blockRescan w devA 1 = some w' ∧ ∃ e, w.reg[1]? = some e ∧ e.Disk ∧ e.name = devA1 ∧ w'.reg[1]? ≠ some e := by
  have hrun : (Event.runAll ⟨[], []⟩ [.use devA blankDisk 1, .use devA1 blankDisk 1]).any (fun w =>
      w.reg[1]? = some (wholeDisk devA1 4096) ∧ (blockRescan w devA 1).any (fun w' =>
        w'.reg[1]? = some Vblk.empty)) = true := by
    decide +kernel
  obtain ⟨w, hw, hprop⟩ := (Option.any_eq_true _ _).mp hrun
  obtain ⟨hentry, hscan⟩ := of_decide_eq_true hprop
  obtain ⟨w', hw', hgone⟩ := (Option.any_eq_true _ _).mp hscan
  have hempty := of_decide_eq_true hgone
  refine ⟨w, w', hw, hw', wholeDisk devA1 4096, hentry, ⟨by decide, by decide⟩, rfl, ?_⟩
  rw [hempty]
  decide

end Guppy.Block
