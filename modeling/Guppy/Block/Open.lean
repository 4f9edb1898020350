import Guppy.Block.Scan

set_option autoImplicit false

/-! # Opening a device by name

`use` registers a whole disk under its device name, with that name as its backing device, and
scans it; a rescan drops the children of a disk and registers the partitions found now. A
child keeps the backing device of its parent, and `vblk_open` takes the first slot whose name
or backing device is the key. So the order of the slots matters.

In an `Ordered` registry every entry stands behind the entry of its backing device; then
`vblk_open` finds each entry by its name. A scan keeps this order unless a slot before the
disk is free when the first child is registered.
-/

namespace Guppy.Block

open Vfs

/-! ## Attaching and rescanning -/

/-- The attached disks and the registry. -/
structure World where
  io : Diskio
  reg : Registry

/-- The entry that `handle_use_attach` registers. -/
def wholeDisk (devname : Text) (size : Nat) : Vblk :=
  { name := devname.take 31
    dev := devname.take 31
    partIndex := -1
    fstype := [45]
    lbaStart := 0
    lbaSize := size / 512
    blockBytes := 0
    ro := false }

/-- `add_disk`. -/
def addDisk (io : Diskio) (reg : Registry) (name : Text) (fuel : Nat) : Option Registry :=
  match vblkByName reg name with
  | some _ => diskScanPartitions io reg name fuel
  | none =>
      match vblkRegister reg { wholeDisk name 0 with lbaSize := 0 } with
      | none => some reg
      | some reg => diskScanPartitions io reg name fuel

/-- `handle_use_attach`, with the disk that the image holds. -/
def handleUseAttach (w : World) (devname : Text) (k : Disk) (fuel : Nat) : Option World :=
  match diskioAttachImage w.io devname k with
  | none => some w
  | some io =>
      match vblkRegister w.reg (wholeDisk devname k.size) with
      | none => some ⟨diskioDetach io devname, w.reg⟩
      | some reg => (addDisk io reg (devname.take 31) fuel).map (World.mk io)

/-- `block_rescan`. -/
def blockRescan (w : World) (devname : Text) (fuel : Nat) : Option World :=
  (diskScanPartitions w.io w.reg (devname.take 31) fuel).map (World.mk w.io)

/-- What can happen: a disk is attached, a device is rescanned, or the contents of the disks
change. -/
inductive Event
  | use (devname : Text) (k : Disk) (fuel : Nat)
  | rescan (devname : Text) (fuel : Nat)
  | media (io : Diskio)

def Event.run (w : World) : Event → Option World
  | .use devname k fuel => handleUseAttach w devname k fuel
  | .rescan devname fuel => blockRescan w devname fuel
  | .media io => some ⟨io, w.reg⟩

/-- The worlds that a run reaches in which every event meets a condition on the world before
it. -/
inductive Reached (cond : World → Event → Prop) : World → Prop
  | start : Reached cond ⟨[], []⟩
  | step {w w' : World} {e : Event} : Reached cond w → cond w e → e.run w = some w' →
      Reached cond w'

/-- `vblk_open` finds every registered entry of nonzero size by its name, and never opens a
partition by the key of the disk behind it. -/
def OpensByName (reg : Registry) : Prop :=
  (∀ e ∈ reg, e.name ≠ [] → e.lbaSize ≠ 0 → vblkOpen reg e.name = some e) ∧
  ∀ k e, vblkOpen reg k = some e → ¬ (0 ≤ e.partIndex ∧ e.dev = k)

/-- A scan of `name` that finds partitions finds no slot before that of the backing device
free, its own children gone; and the name of the backing device leaves room for a digit. -/
def ScanTidy (io : Diskio) (reg : Registry) (name : Text) (fuel : Nat) : Prop :=
  ∀ slot p spans kind, findByName reg name = some slot → reg[slot]? = some p →
    findPartitions io p fuel = some (spans, kind) → (∃ s ∈ spans, s.1 ≤ s.2) →
    p.dev.length ≤ 30 ∧ ∀ d, findByName reg p.dev = some d → ∀ j e, j < d → reg[j]? = some e →
      e.name ≠ [] ∧ isChildName name e.name = false

/-- The scan that an event makes, if any, is tidy. -/
def Event.Tidy (w : World) : Event → Prop
  | .use devname k fuel => ∀ io reg, diskioAttachImage w.io devname k = some io →
      vblkRegister w.reg (wholeDisk devname k.size) = some reg →
      ScanTidy io reg (devname.take 31) fuel
  | .rescan devname fuel => ScanTidy w.io w.reg (devname.take 31) fuel
  | .media _ => True

/-! ## The order of the slots -/

/-- Names are unique, every entry is named after its backing device, whose entry stands
before it, and free slots are empty. -/
structure Ordered (reg : Registry) : Prop where
  unique : ∀ {i j : Nat} {e f : Vblk}, reg[i]? = some e → reg[j]? = some f → e.name ≠ [] →
    e.name = f.name → i = j
  named : ∀ {i : Nat} {e : Vblk}, reg[i]? = some e → e.name ≠ [] → e.dev ≠ [] ∧
    ∃ ds, e.name = e.dev ++ ds ∧ ds.all isDigit = true ∧ (0 ≤ e.partIndex → ds ≠ [])
  backed : ∀ {i : Nat} {e : Vblk}, reg[i]? = some e → e.name ≠ [] →
    ∃ j f, j ≤ i ∧ reg[j]? = some f ∧ f.name = e.dev
  free : ∀ {i : Nat} {e : Vblk}, reg[i]? = some e → e.name = [] → e = Vblk.empty

theorem ordered_nil : Ordered [] where
  unique := by simp
  named := by simp
  backed := by simp
  free := by simp

/-- `f` answers to `key`. -/
def answers (key : Text) (f : Vblk) : Bool :=
  f.name ≠ [] ∧ (f.name = key ∨ (f.dev ≠ [] ∧ f.dev = key))

/-- In an ordered registry the first slot that answers to the name of an entry is that of the
entry. -/
theorem Ordered.find_name {reg : Registry} (h : Ordered reg) {i : Nat} {e : Vblk}
    (he : reg[i]? = some e) (hne : e.name ≠ []) : reg.find? (answers e.name) = some e := by
  obtain ⟨hi, rfl⟩ := List.getElem?_eq_some_iff.mp he
  rw [List.find?_eq_some_iff_getElem]
  refine ⟨by simp [answers, hne], i, hi, rfl, ?_⟩
  intro j hj
  have hjl : j < reg.length := by omega
  have hfj : reg[j]? = some reg[j] := List.getElem?_eq_getElem hjl
  rw [Bool.not_eq_true', answers, decide_eq_false_iff_not]
  rintro ⟨hfn, hname | ⟨_, hdev⟩⟩
  · have := h.unique hfj he hfn hname
    omega
  · -- the entry of the backing device is at or before `j`, but it is the one at `i`
    obtain ⟨k, f, hk, hf, hfd⟩ := h.backed hfj hfn
    have := h.unique hf he (by rw [hfd, hdev]; exact hne) (hfd.trans hdev)
    omega

/-- The first slot that answers to the backing device of an entry is not that of a partition
of it. -/
theorem Ordered.find_dev {reg : Registry} (h : Ordered reg) {i : Nat} {e : Vblk}
    (he : reg[i]? = some e) (hne : e.name ≠ []) :
    ∃ f, reg.find? (answers e.dev) = some f ∧ f.name = e.dev := by
  obtain ⟨hdev, _⟩ := h.named he hne
  obtain ⟨j, f, _, hf, hname⟩ := h.backed he hne
  have hfind := h.find_name hf (by rw [hname]; exact hdev)
  rw [hname] at hfind
  exact ⟨f, hfind, hname⟩

theorem Ordered.opensByName {reg : Registry} (h : Ordered reg) : OpensByName reg := by
  constructor
  · intro e he hne hsize
    obtain ⟨i, hi⟩ := List.mem_iff_getElem?.mp he
    have hfind := h.find_name hi hne
    unfold answers at hfind
    unfold vblkOpen
    rw [if_neg hne, hfind]
    exact if_neg hsize
  · rintro k e hopen ⟨hpart, rfl⟩
    unfold vblkOpen at hopen
    split at hopen
    · cases hopen
    · split at hopen
      · rename_i f hf
        split at hopen
        · cases hopen
        · cases hopen
          -- the slot found is that of the backing device, so the entry has no digits
          have hmem := List.mem_of_find?_eq_some hf
          have hne : e.name ≠ [] := by
            have := List.find?_some hf
            simp only [decide_eq_true_eq] at this
            exact this.1
          obtain ⟨i, hi⟩ := List.mem_iff_getElem?.mp hmem
          obtain ⟨g, hg, hname⟩ := h.find_dev hi hne
          have hge : e = g := Option.some.inj (hf.symm.trans hg)
          obtain ⟨_, ds, hds, _, hds0⟩ := h.named hi hne
          rw [← hge, hds] at hname
          exact hds0 hpart (List.append_right_eq_self.mp hname)
      · rename_i hnone
        split at hopen
        · cases hopen
        · split at hopen
          · rename_i f hf
            split at hopen
            · cases hopen
            · cases hopen
              obtain ⟨i, hi⟩ := List.mem_iff_getElem?.mp (List.mem_of_find?_eq_some hf)
              by_cases hne : e.name = []
              · have := h.free hi hne
                subst this
                rename_i hk _ _
                exact hk rfl
              · obtain ⟨g, hg, _⟩ := h.find_dev hi hne
                unfold answers at hg
                rw [hnone] at hg
                cases hg
          · cases hopen

/-! ## Registering and removing -/

theorem findByName_some_iff {reg : Registry} {name : Text} {i : Nat} :
    findByName reg name = some i ↔
      ∃ e, reg[i]? = some e ∧ e.name ≠ [] ∧ e.name = name ∧
        ∀ j f, j < i → reg[j]? = some f → ¬ (f.name ≠ [] ∧ f.name = name) := by
  unfold findByName
  rw [List.findIdx?_eq_some_iff_getElem]
  constructor
  · rintro ⟨hi, he, hbefore⟩
    simp only [decide_eq_true_eq] at he
    refine ⟨reg[i], List.getElem?_eq_getElem hi, he.1, he.2, ?_⟩
    intro j f hj hf
    obtain ⟨hjl, rfl⟩ := List.getElem?_eq_some_iff.mp hf
    simpa only [decide_eq_true_eq] using hbefore j hj
  · rintro ⟨e, he, hne, hname, hbefore⟩
    obtain ⟨hi, rfl⟩ := List.getElem?_eq_some_iff.mp he
    refine ⟨hi, by simp only [decide_eq_true_eq]; exact ⟨hne, hname⟩, ?_⟩
    intro j hj
    simpa only [decide_eq_true_eq] using
      hbefore j _ hj (List.getElem?_eq_getElem (by omega))

theorem findByName_none_iff {reg : Registry} {name : Text} (hname : name ≠ []) :
    findByName reg name = none ↔ ∀ (i : Nat) (e : Vblk), reg[i]? = some e → e.name ≠ name := by
  unfold findByName
  rw [List.findIdx?_eq_none_iff]
  constructor
  · intro h i e he heq
    have := h e (List.mem_of_getElem? he)
    simp only [decide_eq_false_iff_not] at this
    exact this ⟨by rw [heq]; exact hname, heq⟩
  · intro h e he
    obtain ⟨i, hi⟩ := List.mem_iff_getElem?.mp he
    simp only [decide_eq_false_iff_not]
    rintro ⟨_, heq⟩
    exact h i e hi heq

/-- The registry with an entry in a slot, which may be the next one. -/
def put (reg : Registry) (i : Nat) (e : Vblk) : Registry :=
  if i < reg.length then reg.set i e else reg ++ [e]

theorem getElem?_put {reg : Registry} {i j : Nat} {e : Vblk} (hi : i ≤ reg.length) :
    (put reg i e)[j]? = if j = i then some e else reg[j]? := by
  unfold put
  by_cases hlt : i < reg.length
  · rw [if_pos hlt, List.getElem?_set]
    by_cases hji : j = i
    · rw [if_pos hji.symm, if_pos hji, if_pos hlt]
    · rw [if_neg (Ne.symm hji), if_neg hji]
  · rw [if_neg hlt]
    have hi : i = reg.length := by omega
    subst hi
    by_cases hji : j = reg.length
    · rw [if_pos hji, hji, List.getElem?_concat_length]
    · rw [if_neg hji]
      by_cases hj : j < reg.length
      · rw [List.getElem?_append_left hj]
      · rw [List.getElem?_eq_none (by simp; omega), List.getElem?_eq_none (by omega)]

/-- Where `vblk_register` puts an entry: over the one of its name, or, when there is none, in
the first slot that is free or new. -/
structure Placed (reg : Registry) (e : Vblk) (i : Nat) : Prop where
  le : i ≤ reg.length
  was : ∀ f, reg[i]? = some f → f.name = [] ∨ f.name = e.name
  only : ∀ j f, j ≠ i → reg[j]? = some f → f.name ≠ e.name
  first : (∀ f, reg[i]? = some f → f.name = []) → ∀ j f, j < i → reg[j]? = some f → f.name ≠ []

theorem vblkRegister_placed {reg reg' : Registry} {e : Vblk} (h : Ordered reg)
    (hr : vblkRegister reg e = some reg') : e.name ≠ [] ∧ ∃ i, Placed reg e i ∧ reg' = put reg i e := by
  unfold vblkRegister at hr
  split at hr
  · cases hr
  · rename_i hne
    refine ⟨hne, ?_⟩
    split at hr
    · rename_i i hi
      cases hr
      obtain ⟨f, hf, hfn, hname, _⟩ := findByName_some_iff.mp hi
      have hil := (List.getElem?_eq_some_iff.mp hf).1
      refine ⟨i, ⟨by omega, ?_, ?_, ?_⟩, (if_pos hil).symm⟩
      · intro g hg
        rw [hf] at hg
        cases hg
        exact Or.inr hname
      · intro j g hj hg heq
        exact hj (h.unique hg hf (by rw [heq]; exact hne) (heq.trans hname.symm))
      · intro hfree
        exact absurd (hfree f hf) hfn
    · rename_i hnone
      rw [findByName_none_iff hne] at hnone
      split at hr
      · rename_i i hi
        cases hr
        rw [List.findIdx?_eq_some_iff_getElem] at hi
        obtain ⟨hil, hfree, hbefore⟩ := hi
        simp only [decide_eq_true_eq] at hfree hbefore
        refine ⟨i, ⟨by omega, ?_, fun j f _ => hnone j f, ?_⟩, (if_pos hil).symm⟩
        · intro g hg
          rw [List.getElem?_eq_getElem hil] at hg
          cases hg
          exact Or.inl hfree
        · intro _ j f hj hf
          obtain ⟨hjl, rfl⟩ := List.getElem?_eq_some_iff.mp hf
          exact hbefore j hj
      · rename_i hfull
        split at hr
        · cases hr
        · cases hr
          rw [List.findIdx?_eq_none_iff] at hfull
          refine ⟨reg.length, ⟨le_refl _, ?_, fun j f _ => hnone j f, ?_⟩,
            (if_neg (by omega)).symm⟩
          · intro g hg
            rw [List.getElem?_eq_none (le_refl _)] at hg
            cases hg
          · intro _ j f _ hf
            have := hfull f (List.mem_of_getElem? hf)
            simpa only [decide_eq_false_iff_not] using this

/-- Registering an entry keeps the order when its backing device is the entry itself or stands
before its slot. -/
theorem Ordered.put {reg : Registry} (h : Ordered reg) {e : Vblk} {i : Nat} (hp : Placed reg e i)
    (hname : e.name ≠ []) (hdev : e.dev ≠ [] ∧
      ∃ ds, e.name = e.dev ++ ds ∧ ds.all isDigit = true ∧ (0 ≤ e.partIndex → ds ≠ []))
    (hback : e.dev = e.name ∨ ∃ j f, j < i ∧ reg[j]? = some f ∧ f.name = e.dev) :
    Ordered (put reg i e) where
  unique := by
    intro j k f g hf hg hne heq
    rw [getElem?_put hp.le] at hf hg
    by_cases hj : j = i
    · by_cases hk : k = i
      · omega
      · rw [if_pos hj] at hf
        rw [if_neg hk] at hg
        cases hf
        exact absurd heq.symm (hp.only k g hk hg)
    · rw [if_neg hj] at hf
      by_cases hk : k = i
      · rw [if_pos hk] at hg
        cases hg
        exact absurd heq (hp.only j f hj hf)
      · rw [if_neg hk] at hg
        exact h.unique hf hg hne heq
  named := by
    intro j f hf hne
    rw [getElem?_put hp.le] at hf
    split at hf
    · cases hf
      exact hdev
    · exact h.named hf hne
  backed := by
    intro j f hf hne
    rw [getElem?_put hp.le] at hf
    split at hf
    · rename_i hj
      cases hf
      rcases hback with hself | ⟨k, g, hk, hg, hgn⟩
      · exact ⟨i, e, by omega, by rw [getElem?_put hp.le, if_pos rfl], hself.symm⟩
      · exact ⟨k, g, by omega, by rw [getElem?_put hp.le, if_neg (by omega)]; exact hg, hgn⟩
    · obtain ⟨k, g, hk, hg, hgn⟩ := h.backed hf hne
      by_cases hki : k = i
      · -- the backing device was in this slot, and so its name is that of the new entry
        subst hki
        refine ⟨k, e, hk, by rw [getElem?_put hp.le, if_pos rfl], ?_⟩
        rcases hp.was g hg with hnil | hsame
        · rw [hnil] at hgn
          exact absurd hgn.symm (h.named hf hne).1
        · rw [← hsame, hgn]
      · exact ⟨k, g, hk, by rw [getElem?_put hp.le, if_neg hki]; exact hg, hgn⟩
  free := by
    intro j f hf hnil
    rw [getElem?_put hp.le] at hf
    split at hf
    · cases hf
      exact absurd hnil hname
    · exact h.free hf hnil

theorem isChildName_iff {parent name : Text} :
    isChildName parent name = true ↔ ∃ ds, name = parent ++ ds ∧ ds ≠ [] ∧ ds.all isDigit = true := by
  unfold isChildName
  simp only [decide_eq_true_eq]
  constructor
  · rintro ⟨⟨ds, rfl⟩, hne, hall⟩
    rw [List.drop_left] at hne hall
    exact ⟨ds, rfl, hne, hall⟩
  · rintro ⟨ds, rfl, hne, hall⟩
    rw [List.drop_left]
    exact ⟨List.prefix_append _ _, hne, hall⟩

theorem getElem?_removeChildren {reg : Registry} {parent : Text} (hp : parent ≠ []) (i : Nat) :
    (vblkRemoveChildren reg parent)[i]? =
      reg[i]?.map (fun e => if isChildName parent e.name then Vblk.empty else e) := by
  unfold vblkRemoveChildren
  rw [if_neg hp, List.getElem?_map]

/-- What is left after a removal: the entries that are not children, and free slots. -/
theorem removeChildren_some {reg : Registry} {parent : Text} (hp : parent ≠ []) {i : Nat}
    {e : Vblk} (he : (vblkRemoveChildren reg parent)[i]? = some e) :
    e = Vblk.empty ∨ (reg[i]? = some e ∧ isChildName parent e.name = false) := by
  rw [getElem?_removeChildren hp, Option.map_eq_some_iff] at he
  obtain ⟨f, hf, rfl⟩ := he
  by_cases hc : isChildName parent f.name = true
  · rw [if_pos hc]
    exact Or.inl rfl
  · rw [if_neg hc]
    exact Or.inr ⟨hf, by simpa using hc⟩

theorem removeChildren_kept {reg : Registry} {parent : Text} (hp : parent ≠ []) {i : Nat}
    {e : Vblk} (he : reg[i]? = some e) (hc : isChildName parent e.name = false) :
    (vblkRemoveChildren reg parent)[i]? = some e := by
  rw [getElem?_removeChildren hp, he, Option.map_some, if_neg (by simp [hc])]

/-- Whatever is named after a child is itself a child, so removing the children of a device
removes every entry that they back. -/
theorem Ordered.removeChildren {reg : Registry} (h : Ordered reg) {parent : Text} (hp : parent ≠ []) :
    Ordered (vblkRemoveChildren reg parent) where
  unique := by
    intro i j e f he hf hne heq
    rcases removeChildren_some hp he with rfl | ⟨he, _⟩
    · exact absurd rfl hne
    · rcases removeChildren_some hp hf with rfl | ⟨hf, _⟩
      · exact absurd heq hne
      · exact h.unique he hf hne heq
  named := by
    intro i e he hne
    rcases removeChildren_some hp he with rfl | ⟨he, _⟩
    · exact absurd rfl hne
    · exact h.named he hne
  backed := by
    intro i e he hne
    rcases removeChildren_some hp he with rfl | ⟨he, hchild⟩
    · exact absurd rfl hne
    · obtain ⟨j, f, hj, hf, hfn⟩ := h.backed he hne
      refine ⟨j, f, hj, removeChildren_kept hp hf ?_, hfn⟩
      by_contra hcon
      rw [Bool.not_eq_false, isChildName_iff] at hcon
      obtain ⟨ds, hds, hds0, hall⟩ := hcon
      obtain ⟨_, es, hes, hall', _⟩ := h.named he hne
      have : isChildName parent e.name = true := by
        rw [isChildName_iff]
        refine ⟨ds ++ es, ?_, by simp [hds0], by simp [hall, hall']⟩
        rw [hes, ← hfn, hds, List.append_assoc]
      rw [hchild] at this
      cases this
  free := by
    intro i e he hnil
    rcases removeChildren_some hp he with rfl | ⟨he, _⟩
    · rfl
    · exact h.free he hnil

/-! ## A scan -/

theorem decimal_ne_nil (n : Nat) : decimal n ≠ [] := by
  unfold decimal
  simp [Nat.toDigits_ne_nil]

theorem decimal_digits (n : Nat) : (decimal n).all isDigit = true := by
  unfold decimal
  rw [List.all_map, List.all_eq_true]
  intro c hc
  have hdigit := Nat.isDigit_of_mem_toDigits (by omega) (by omega) hc
  simp only [Char.isDigit, Bool.and_eq_true, decide_eq_true_eq, ge_iff_le] at hdigit
  have h₁ : 48 ≤ c.toNat := hdigit.1
  have h₂ : c.toNat ≤ 57 := hdigit.2
  simp only [Function.comp_apply, isDigit, decide_eq_true_eq, UInt8.le_iff_toNat_le,
    UInt8.toNat_ofNat']
  have h48 : (48 : UInt8).toNat = 48 := rfl
  have h57 : (57 : UInt8).toNat = 57 := rfl
  omega

/-- The name of a child: that of its parent followed by digits, when there is room for one,
else that of its parent. -/
theorem childName_cases {name : Text} (h : name.length ≤ 31) (nth : Nat) :
    isChildName name ((name ++ decimal nth).take 31) = true ∨
      (name.length = 31 ∧ (name ++ decimal nth).take 31 = name) := by
  by_cases h30 : name.length ≤ 30
  · left
    rw [isChildName_iff]
    refine ⟨(decimal nth).take (31 - name.length), ?_, ?_, ?_⟩
    · rw [List.take_append, List.take_of_length_le (by omega)]
    · intro hnil
      rcases List.take_eq_nil_iff.mp hnil with h0 | hnil
      · omega
      · exact decimal_ne_nil nth hnil
    · rw [List.all_eq_true]
      intro c hc
      exact List.all_eq_true.mp (decimal_digits nth) c (List.mem_of_mem_take hc)
  · right
    have h31 : name.length = 31 := by omega
    exact ⟨h31, by rw [← h31, List.take_left]⟩

/-- What holds while the children of the device in `slot`, named `name`, are registered: its
entry keeps its name and its backing device, in slot `d`, up to which no slot is free; and all
children of that name have this backing device. -/
structure Scanning (name dev : Text) (slot d : Nat) (reg : Registry) : Prop where
  ordered : Ordered reg
  nonempty : name ≠ []
  parent : ∃ p : Vblk, reg[slot]? = some p ∧ p.name = name ∧ p.dev = dev
  back : ∃ f : Vblk, reg[d]? = some f ∧ f.name = dev
  full : ∀ (j : Nat) (e : Vblk), j < d → reg[j]? = some e → e.name ≠ []
  children : ∀ (i : Nat) (e : Vblk), reg[i]? = some e → isChildName name e.name = true → e.dev = dev

section Scanning

variable {name dev : Text} {slot d : Nat} {reg : Registry}

theorem Scanning.name_eq (h : Scanning name dev slot d reg) :
    dev ≠ [] ∧ ∃ ds, name = dev ++ ds ∧ ds.all isDigit = true := by
  obtain ⟨p, hp, hpn, hpd⟩ := h.parent
  obtain ⟨hdev, ds, hds, hall, _⟩ := h.ordered.named hp (by rw [hpn]; exact h.nonempty)
  rw [hpn, hpd] at hds
  rw [hpd] at hdev
  exact ⟨hdev, ds, hds, hall⟩

/-- An entry with the backing device of the scan that is not the backing device itself is
behind it. -/
theorem Scanning.behind (h : Scanning name dev slot d reg) {i : Nat} {e : Vblk}
    (he : reg[i]? = some e) (hne : e.name ≠ []) (hdev : e.dev = dev) (hnot : e.name ≠ dev) :
    d < i := by
  obtain ⟨f, hf, hfn⟩ := h.back
  obtain ⟨j, g, hj, hg, hgn⟩ := h.ordered.backed he hne
  have hjd : j = d := h.ordered.unique hg hf
    (by rw [hgn]; exact (h.ordered.named he hne).1) (by rw [hgn, hdev, hfn])
  have hid : i ≠ d := by
    rintro rfl
    rw [hf] at he
    cases he
    exact hnot hfn
  omega

/-- The name of a child is that of the backing device followed by digits. -/
theorem Scanning.childName (h : Scanning name dev slot d reg) (hlen : dev.length ≤ 30)
    (hname : name.length ≤ 31) (nth : Nat) :
    ∃ ds, (name ++ decimal nth).take 31 = dev ++ ds ∧ ds.all isDigit = true ∧ ds ≠ [] := by
  obtain ⟨_, ds, hds, hall⟩ := h.name_eq
  rcases childName_cases hname nth with hc | ⟨h31, hc⟩
  · rw [isChildName_iff] at hc
    obtain ⟨es, hes, hes0, hall'⟩ := hc
    refine ⟨ds ++ es, ?_, by simp [hall, hall'], by simp [hes0]⟩
    rw [hes, hds, List.append_assoc]
  · refine ⟨ds, hc.trans hds, hall, ?_⟩
    rintro rfl
    rw [hds, List.append_nil] at h31
    omega

/-- A child goes into a slot behind its backing device. -/
theorem Scanning.slot_behind (h : Scanning name dev slot d reg) (hlen : dev.length ≤ 30)
    (hname : name.length ≤ 31) {e : Vblk} {nth i : Nat}
    (hen : e.name = (name ++ decimal nth).take 31) (hp : Placed reg e i) : d < i := by
  obtain ⟨es, hes, _, hes0⟩ := h.childName hlen hname nth
  have hnot : e.name ≠ dev := by
    rw [hen, hes]
    exact fun heq => hes0 (List.append_right_eq_self.mp heq)
  obtain ⟨f, hf, hfn⟩ := h.back
  by_cases hfree : ∀ g, reg[i]? = some g → g.name = []
  · -- the slot is free or new, and no slot up to `d` is
    have hdl := (List.getElem?_eq_some_iff.mp hf).1
    by_contra hle
    have hil : i < reg.length := by omega
    have hi := List.getElem?_eq_getElem hil
    rcases Nat.lt_or_ge i d with hlt | hge
    · exact h.full i _ hlt hi (hfree _ hi)
    · have hid : i = d := by omega
      subst hid
      exact h.name_eq.1 (by rw [← hfn, hfree f hf])
  · -- the slot holds an entry of the same name, from this scan or the parent itself
    push Not at hfree
    obtain ⟨g, hg, hgne⟩ := hfree
    have hge : g.name = e.name := (hp.was g hg).resolve_left hgne
    refine h.behind hg hgne ?_ (by rw [hge]; exact hnot)
    rcases childName_cases hname nth with hc | ⟨_, hc⟩
    · exact h.children i g hg (by rw [hge, hen]; exact hc)
    · obtain ⟨p, hps, hpn, hpd⟩ := h.parent
      have hip := h.ordered.unique hg hps hgne (by rw [hge, hen, hc, hpn])
      subst hip
      rw [hps] at hg
      cases hg
      exact hpd

theorem Scanning.registerChild (h : Scanning name dev slot d reg) (hlen : dev.length ≤ 30)
    (hname : name.length ≤ 31) (kind : Text) (nth : Nat) (span : Span) :
    Scanning name dev slot d (registerChild slot name kind nth span reg) := by
  unfold Block.registerChild
  split
  · exact h
  · obtain ⟨p, hp, hpn, hpd⟩ := h.parent
    have hget : reg.getD slot Vblk.empty = p := by
      rw [List.getD_eq_getElem?_getD, hp, Option.getD_some]
    rw [hget]
    cases hr : vblkRegister reg (childOf p name nth span kind) with
    | none => exact h
    | some reg' =>
        obtain ⟨hne, i, hplace, rfl⟩ := vblkRegister_placed h.ordered hr
        have hdi := h.slot_behind hlen hname rfl hplace
        obtain ⟨es, hes, hall, hes0⟩ := h.childName hlen hname nth
        obtain ⟨f, hf, hfn⟩ := h.back
        have hdev : (childOf p name nth span kind).dev = dev := hpd
        refine ⟨h.ordered.put hplace hne ⟨?_, es, ?_, hall, fun _ => hes0⟩
          (Or.inr ⟨d, f, hdi, hf, ?_⟩), h.nonempty, ?_, ⟨f, ?_, hfn⟩, ?_, ?_⟩
        · rw [hdev]
          exact h.name_eq.1
        · rw [hdev]
          exact hes
        · rw [hdev]
          exact hfn
        · by_cases hsi : slot = i
          · -- the child has taken the slot of its parent, under the same name
            subst hsi
            refine ⟨_, by rw [Option.getD_some, getElem?_put hplace.le, if_pos rfl], ?_, hdev⟩
            rcases hplace.was p hp with hnil | hsame
            · exact absurd (hpn.symm.trans hnil) h.nonempty
            · rw [← hsame, hpn]
          · exact ⟨p, by rw [Option.getD_some, getElem?_put hplace.le, if_neg hsi]; exact hp, hpn, hpd⟩
        · rw [Option.getD_some, getElem?_put hplace.le, if_neg (by omega)]
          exact hf
        · intro j e hj he
          rw [Option.getD_some, getElem?_put hplace.le, if_neg (by omega)] at he
          exact h.full j e hj he
        · intro j e he hc
          rw [Option.getD_some, getElem?_put hplace.le] at he
          split at he
          · cases he
            exact hdev
          · exact h.children j e he hc

theorem Scanning.registerChildren (hlen : dev.length ≤ 30) (hname : name.length ≤ 31) (kind : Text)
    (spans : List Span) : ∀ {nth : Nat} {reg : Registry}, Scanning name dev slot d reg →
      Scanning name dev slot d (registerChildren slot name kind nth spans reg) := by
  induction spans with
  | nil =>
      intro nth reg h
      exact h
  | cons span spans ih =>
      intro nth reg h
      exact ih (h.registerChild hlen hname kind nth span)

end Scanning

/-- Nothing is registered when no span has an end at or after its start. -/
theorem registerChildren_empty {slot : Nat} {name kind : Text} {reg : Registry} :
    ∀ {spans : List Span} {nth : Nat}, (∀ s ∈ spans, s.2 < s.1) →
      registerChildren slot name kind nth spans reg = reg := by
  intro spans
  induction spans with
  | nil =>
      intro nth _
      rfl
  | cons span spans ih =>
      intro nth h
      have hspan : registerChild slot name kind nth span reg = reg :=
        if_pos (h span (List.mem_cons_self ..))
      show registerChildren slot name kind (nth + 1) spans (registerChild slot name kind nth span reg) = reg
      rw [hspan]
      exact ih (fun s hs => h s (List.mem_cons_of_mem _ hs))

theorem sortInner_perm (l : List Span) : ∀ x : Span, ((sortInner x l).1 :: (sortInner x l).2).Perm (x :: l) := by
  induction l with
  | nil =>
      intro x
      exact List.Perm.refl _
  | cons y ys ih =>
      intro x
      unfold sortInner
      split
      · exact ((List.Perm.swap _ _ _).trans ((ih y).cons x))
      · exact ((List.Perm.swap _ _ _).trans ((ih x).cons y)).trans (List.Perm.swap _ _ _)

theorem sortPairs_perm (fuel : Nat) : ∀ l : List Span, (sortPairs fuel l).Perm l := by
  induction fuel with
  | zero =>
      intro l
      exact List.Perm.refl _
  | succ fuel ih =>
      intro l
      cases l with
      | nil => exact List.Perm.refl _
      | cons x xs => exact ((ih _).cons _).trans (sortInner_perm xs x)

theorem isChildName_self (name : Text) : isChildName name name = false := by
  rw [Bool.eq_false_iff, Ne, isChildName_iff]
  rintro ⟨ds, hds, hds0, _⟩
  exact hds0 (List.append_right_eq_self.mp hds.symm)

/-- A tidy scan keeps the order. -/
theorem diskScanPartitions_ordered {io : Diskio} {reg reg' : Registry} {name : Text} {fuel : Nat}
    (h : Ordered reg) (hname : name.length ≤ 31) (htidy : ScanTidy io reg name fuel)
    (hr : diskScanPartitions io reg name fuel = some reg') : Ordered reg' := by
  unfold diskScanPartitions at hr
  split at hr
  · cases hr
    exact h
  · rename_i slot hslot
    obtain ⟨p, hp, hpne, rfl, _⟩ := findByName_some_iff.mp hslot
    have hkept := removeChildren_kept hpne hp (isChildName_self p.name)
    have hget : (vblkRemoveChildren reg p.name).getD slot Vblk.empty = p := by
      rw [List.getD_eq_getElem?_getD, hkept, Option.getD_some]
    simp only [hget, Option.bind_eq_bind, Option.bind_eq_some_iff] at hr
    obtain ⟨⟨spans, kind⟩, hfind, hreg⟩ := hr
    cases hreg
    have hord := h.removeChildren hpne
    have hperm := sortPairs_perm spans.length spans
    by_cases hsome : ∃ s ∈ spans, s.1 ≤ s.2
    · obtain ⟨hlen, hfull⟩ := htidy slot p spans kind hslot hp hfind hsome
      obtain ⟨d, f, _, hf, hfn⟩ := hord.backed hkept hpne
      have hdne := (h.named hp hpne).1
      have hfreg : reg[d]? = some f := by
        rcases removeChildren_some hpne hf with rfl | ⟨hf, _⟩
        · exact absurd hfn.symm hdne
        · exact hf
      have hd : findByName reg p.dev = some d := by
        rw [findByName_some_iff]
        refine ⟨f, hfreg, by rw [hfn]; exact hdne, hfn, ?_⟩
        rintro j g hj hg ⟨hgne, hgn⟩
        have := h.unique hg hfreg hgne (hgn.trans hfn.symm)
        omega
      refine (Scanning.registerChildren hlen hname kind _ (d := d)
        ⟨hord, hpne, ⟨p, hkept, rfl, rfl⟩, ⟨f, hf, hfn⟩, ?_, ?_⟩).ordered
      · intro j e hj he
        rw [getElem?_removeChildren hpne, Option.map_eq_some_iff] at he
        obtain ⟨g, hg, rfl⟩ := he
        obtain ⟨hgne, hgc⟩ := hfull d hd j g hj hg
        rw [if_neg (by simp [hgc])]
        exact hgne
      · intro j e he hc
        rcases removeChildren_some hpne he with rfl | ⟨_, hno⟩
        · rw [isChildName_iff] at hc
          obtain ⟨ds, hds, hds0, _⟩ := hc
          exact absurd (List.append_eq_nil_iff.mp hds.symm).2 hds0
        · rw [hno] at hc
          cases hc
    · push Not at hsome
      rw [registerChildren_empty (fun s hs => hsome s (hperm.mem_iff.mp hs))]
      exact hord

/-! ## Runs -/

theorem take_31_length (t : Text) : (t.take 31).length ≤ 31 := by
  rw [List.length_take]
  omega

/-- Registering a whole disk keeps the order, and the disk is there afterwards. -/
theorem register_wholeDisk {reg reg' : Registry} {devname : Text} {size : Nat} (h : Ordered reg)
    (hr : vblkRegister reg (wholeDisk devname size) = some reg') :
    Ordered reg' ∧ ∃ e, vblkByName reg' (devname.take 31) = some e := by
  obtain ⟨hne, i, hplace, rfl⟩ := vblkRegister_placed h hr
  have hnil : (wholeDisk devname size).name = (wholeDisk devname size).dev ++ [] := by
    rw [List.append_nil]
    rfl
  refine ⟨h.put hplace hne ⟨hne, [], hnil, rfl, fun hpart => ?_⟩ (Or.inl rfl), ?_⟩
  · have hminus : (wholeDisk devname size).partIndex = -1 := rfl
    omega
  · cases hfind : findByName (put reg i (wholeDisk devname size)) (devname.take 31) with
    | none =>
        exact absurd rfl ((findByName_none_iff hne).mp hfind i _
          (by rw [getElem?_put hplace.le, if_pos rfl]))
    | some j =>
        obtain ⟨e, he, _⟩ := findByName_some_iff.mp hfind
        refine ⟨e, ?_⟩
        unfold vblkByName
        rw [hfind, Option.bind_some, he]

theorem Event.run_ordered {w w' : World} {e : Event} (h : Ordered w.reg) (ht : e.Tidy w)
    (hr : e.run w = some w') : Ordered w'.reg := by
  cases e with
  | use devname k fuel =>
      simp only [Event.run, handleUseAttach] at hr
      split at hr
      · cases hr
        exact h
      · rename_i io hio
        split at hr
        · cases hr
          exact h
        · rename_i reg hreg
          obtain ⟨hord, e, he⟩ := register_wholeDisk h hreg
          rw [Option.map_eq_some_iff] at hr
          obtain ⟨reg', hscan, rfl⟩ := hr
          unfold addDisk at hscan
          rw [he] at hscan
          exact diskScanPartitions_ordered hord (take_31_length _) (ht io reg hio hreg) hscan
  | rescan devname fuel =>
      simp only [Event.run, blockRescan, Option.map_eq_some_iff] at hr
      obtain ⟨reg', hscan, rfl⟩ := hr
      exact diskScanPartitions_ordered h (take_31_length _) ht hscan
  | media io =>
      cases hr
      exact h

theorem Reached.ordered {w : World} (h : Reached (fun w e => e.Tidy w) w) : Ordered w.reg := by
  induction h with
  | start => exact ordered_nil
  | step _ ht hr ih => exact Event.run_ordered ih ht hr

/-- In every run in which each scan that finds partitions finds no free slot before the disk,
every registered device opens by its name. -/
theorem tidy_runs_open_by_name {w : World} (h : Reached (fun w e => e.Tidy w) w) :
    OpensByName w.reg := h.ordered.opensByName

theorem onePartition_size_lt : 4096 < uint64 := by decide

/-- A disk of eight sectors with an MBR that has one partition, sector 1. -/
def onePartition : Disk :=
  { size := 4096
    writable := true
    bytes := (((Mem.zero.wr8 450 0x83).wr32 454 1).wr32 458 1).wr16 510 0xAA55
    size_lt := onePartition_size_lt }

def blankDisk : Disk := { onePartition with bytes := Mem.zero }

/-- `"/dev/a"` and `"/dev/b"` -/
def devA : Text := [47, 100, 101, 118, 47, 97]
def devB : Text := [47, 100, 101, 118, 47, 98]

theorem tidy_runs_open_by_name_one_disk :
    ∃ w, handleUseAttach ⟨[], []⟩ devA onePartition 1 = some w ∧ w.reg.length = 2 ∧
      OpensByName w.reg := by
  have hsome : ((handleUseAttach ⟨[], []⟩ devA onePartition 1).map (fun w => w.reg.length)) = some 2 := by
    decide +kernel
  obtain ⟨w, hw, hlen⟩ := Option.map_eq_some_iff.mp hsome
  refine ⟨w, hw, hlen, tidy_runs_open_by_name
    (Reached.step (e := .use devA onePartition 1) .start ?_ hw)⟩
  intro io reg _ hreg slot p spans kind hslot hp _ _
  have hreg' : reg = [wholeDisk devA 4096] := by
    have : vblkRegister [] (wholeDisk devA 4096) = some [wholeDisk devA 4096] := by decide +kernel
    exact Option.some.inj (hreg.symm.trans this)
  subst hreg'
  have h0 : slot = 0 := by
    have := (List.getElem?_eq_some_iff.mp hp).1
    simp only [List.length_singleton] at this
    omega
  subst h0
  cases hp
  refine ⟨by decide, ?_⟩
  intro d hd j e hj
  have hd0 : findByName [wholeDisk devA 4096] (wholeDisk devA 4096).dev = some 0 := by decide +kernel
  rw [hd0] at hd
  cases hd
  omega

def Event.runAll (w : World) (es : List Event) : Option World := es.foldlM Event.run w

theorem Reached.runAll {es : List Event} : ∀ {w w' : World}, Reached (fun _ _ => True) w →
    Event.runAll w es = some w' → Reached (fun _ _ => True) w' := by
  induction es with
  | nil =>
      intro w w' h hr
      cases hr
      exact h
  | cons e es ih =>
      intro w w' h hr
      simp only [Event.runAll, List.foldlM_cons, Option.bind_eq_bind, Option.bind_eq_some_iff] at hr
      obtain ⟨w₁, h₁, h₂⟩ := hr
      exact ih (h.step trivial h₁) h₂

/-- Two disks, the first with one partition. Then the first is blank and the second has a
partition, and both are rescanned: the child of the second takes the slot that the first has
freed, which is before the disk. -/
def reuseSlot : List Event :=
  [.use devA onePartition 1, .use devB blankDisk 1,
    .media [(devA, blankDisk), (devB, onePartition)], .rescan devA 1, .rescan devB 1]

/-- After these events opening the second disk by its name opens its partition. -/
theorem disk_name_opens_partition :
    ∃ w, Reached (fun _ _ => True) w ∧ ¬ OpensByName w.reg := by
  have hrun : (Event.runAll ⟨[], []⟩ reuseSlot).map (fun w =>
      (vblkOpen w.reg devB).map (fun e => (e.partIndex, e.dev))) = some (some (1, devB)) := by
    decide +kernel
  obtain ⟨w, hw, hopen⟩ := Option.map_eq_some_iff.mp hrun
  refine ⟨w, Reached.runAll .start hw, ?_⟩
  intro h
  obtain ⟨e, he, heq⟩ := Option.map_eq_some_iff.mp hopen
  obtain ⟨h₁, h₂⟩ := Prod.mk.inj heq
  exact h.2 devB e he ⟨by omega, h₂⟩

end Guppy.Block
