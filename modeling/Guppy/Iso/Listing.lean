import Guppy.Iso.Walk

set_option autoImplicit false

/-! # What the listing of a directory has

Calling `iso_dir_getdents64` again and again lists every record of a well-formed directory whose
name can be decoded, once and in order, as long as the buffer has room for the longest entry.
Against this list the lookup is compared: a name is found exactly when it is listed, except where
a record with no name stops the lookup or padding makes it go on past the end of the directory.
-/

namespace Guppy.Iso

open Vfs

/-- The longest entry: a name of 255 bytes. -/
def maxReclen : Nat := 280

/-! ## The length of a name -/

theorem length_cText (t : Text) : (cText t).length ≤ t.length :=
  (List.takeWhile_prefix _).length_le

theorem length_rrName {r : List UInt8} (fuel : Nat) : ∀ {pos : Nat} {acc : Option Text},
    (∀ t ∈ acc, t.length ≤ 255) → ∀ t ∈ rrName r fuel pos acc, t.length ≤ 255 := by
  induction fuel with
  | zero => exact fun h => h
  | succ fuel ih =>
      intro pos acc h
      have htake : ∀ u : Text, ((acc.getD [] ++ u).take 255).length ≤ 255 := fun u => List.length_take_le ..
      unfold rrName
      dsimp only []
      split
      · exact h
      · split
        · exact h
        · split
          · split
            · rintro t ht
              cases ht
              decide
            · split
              · rintro t ht
                cases ht
                decide
              · split
                · refine ih (fun t ht => ?_)
                  cases ht
                  exact htake _
                · rintro t ht
                  cases ht
                  exact htake _
          · exact ih h

theorem length_isoNormalizeName (raw : Text) : (isoNormalizeName raw).length ≤ 255 := by
  unfold isoNormalizeName
  rw [List.length_map]
  exact List.length_take_le ..

variable {iso : Image}

theorem length_isoDirRecordName {r : List UInt8} {name : Text × Bool}
    (h : isoDirRecordName iso r = some name) : name.1.length ≤ 255 := by
  unfold isoDirRecordName at h
  split at h
  · cases h
  · split at h
    · cases h
      decide
    · split at h
      · cases h
        decide
      · cases hrr : rockRidgeName iso r with
        | some t =>
            rw [hrr] at h
            cases h
            refine (length_cText t).trans ?_
            unfold rockRidgeName at hrr
            split at hrr
            · exact length_rrName _ (fun u hu => by cases hu) t hrr
            · cases hrr
        | none =>
            rw [hrr] at h
            dsimp only [] at h
            split at h
            · cases h
            · cases h
              exact (length_cText _).trans (length_isoNormalizeName _)

theorem reclen_direntOf {pos : Nat} {r : List UInt8} {de : Dirent} (h : direntOf iso pos r = some de) :
    0 < de.reclen ∧ de.reclen ≤ maxReclen := by
  obtain ⟨name, hname, rfl⟩ := Option.map_eq_some_iff.mp h
  have hlen := length_isoDirRecordName hname
  have htext : (if name.2 = false ∧ isSpecial r = false then name.1.map toUpperAscii else name.1).length ≤ 255 := by
    split
    · rwa [List.length_map]
    · exact hlen
  unfold maxReclen
  dsimp only []
  omega

/-! ## Repeated calls -/

variable {base : UInt32} {size : Nat} {rs : List (Nat × List UInt8)}

/-- The entries of some records. -/
def direntsOf (iso : Image) (rs : List (Nat × List UInt8)) : List Dirent :=
  rs.filterMap (fun p => direntOf iso p.1 p.2)

/-- One call: it lists the entries that fit, and leaves the file at the first that does not. -/
theorem getdentsLoop_spec {bytes start : Nat} (fuel : Nat) :
    ∀ {pos written : Nat} {out : List Dirent} {rs : List (Nat × List UInt8)},
      Records iso base size pos rs → size < pos + fuel →
      ∃ des rs' pos', getdentsLoop iso base size bytes start fuel pos written out =
          ⟨written + (des.map Dirent.reclen).sum, out ++ des, pos'⟩ ∧
        Records iso base size pos' rs' ∧ direntsOf iso rs = des ++ direntsOf iso rs' ∧
        ∀ de ∈ (direntsOf iso rs').head?, bytes < written + (des.map Dirent.reclen).sum + de.reclen := by
  induction fuel with
  | zero =>
      intro pos written out rs h hfuel
      refine ⟨[], rs, pos, by simp [getdentsLoop], h, rfl, ?_⟩
      cases h with
      | done _ =>
          intro de hde
          cases hde
      | record _ _ _ hin => omega
      | padding hpos => omega
  | succ fuel ih =>
      intro pos written out rs h hfuel
      unfold getdentsLoop
      cases h with
      | done hle =>
          rw [if_neg (by omega)]
          exact ⟨[], [], pos, by simp, Records.done hle, rfl, fun de hde => by cases hde⟩
      | @record _ s rs hs hlen hfit hin hrest =>
          rw [if_pos (by omega)]
          unfold sectorAt at hs
          rw [hs]
          dsimp only []
          rw [if_neg (by omega)]
          cases hde : direntOf iso pos (s.drop (pos % sectorSize)) with
          | none =>
              dsimp only []
              obtain ⟨des, rs', pos', heq, hrs', hsplit, hhead⟩ := @ih _ written out _ hrest (by omega)
              refine ⟨des, rs', pos', heq, hrs', ?_, hhead⟩
              rw [← hsplit]
              exact List.filterMap_cons_none (show direntOf iso (pos, s.drop (pos % sectorSize)).1 _ = none from hde)
          | some de =>
              dsimp only []
              have hcons : direntsOf iso ((pos, s.drop (pos % sectorSize)) :: rs) = de :: direntsOf iso rs :=
                List.filterMap_cons_some hde
              split
              · -- no room: the next call starts here
                rename_i hroom
                refine ⟨[], _, pos, by simp, Records.record hs hlen hfit hin hrest, rfl, ?_⟩
                rw [hcons]
                intro e he
                obtain rfl : de = e := Option.some.inj he
                simpa using hroom
              · obtain ⟨des, rs', pos', heq, hrs', hsplit, hhead⟩ :=
                  @ih _ (written + de.reclen) (out ++ [de]) _ hrest (by omega)
                refine ⟨de :: des, rs', pos', ?_, hrs', ?_, ?_⟩
                · rw [heq, List.map_cons, List.sum_cons, Nat.cast_add, Nat.cast_add]
                  simp [add_assoc]
                · rw [hcons, hsplit]
                  rfl
                · intro e he
                  have := hhead e he
                  rw [List.map_cons, List.sum_cons]
                  omega
      | @padding _ s _ hpos hs hz hrest =>
          rw [if_pos hpos]
          have hzero := recLen_padding hpos hz
          unfold sectorAt at hs
          rw [hs]
          dsimp only []
          rw [if_pos (Or.inl hzero)]
          have hlt := lt_nextSector pos
          exact ih hrest (show size < nextSector pos + fuel by omega)

theorem isoDirGetdents64_spec {dsz : UInt32} {bytes pos : Nat} (hbytes : maxReclen ≤ bytes)
    (h : Records iso base dsz.toNat pos rs) :
    ∃ des rs', (isoDirGetdents64 iso base dsz bytes pos).entries = des ∧
      (isoDirGetdents64 iso base dsz bytes pos).result = (des.map Dirent.reclen).sum ∧
      Records iso base dsz.toNat (isoDirGetdents64 iso base dsz bytes pos).pos rs' ∧
      direntsOf iso rs = des ++ direntsOf iso rs' ∧ (des = [] → direntsOf iso rs = []) := by
  obtain ⟨des, rs', pos', heq, hrs', hsplit, hhead⟩ :=
    @getdentsLoop_spec iso base dsz.toNat bytes pos (dsz.toNat + 1) pos 0 [] rs h (by omega)
  have hcall : isoDirGetdents64 iso base dsz bytes pos = ⟨(des.map Dirent.reclen).sum, des, pos'⟩ := by
    unfold isoDirGetdents64
    unfold maxReclen at hbytes
    rw [if_neg (by omega), heq]
    simp
  rw [hcall]
  refine ⟨des, rs', rfl, rfl, hrs', hsplit, ?_⟩
  -- the buffer has room for any first entry
  rintro rfl
  rw [hsplit, List.nil_append]
  cases hd : direntsOf iso rs' with
  | nil => rfl
  | cons de ds =>
      have hroom := hhead de (by rw [hd]; rfl)
      have hmem : de ∈ direntsOf iso rs' := by
        rw [hd]
        exact List.mem_cons_self ..
      obtain ⟨p, -, hp⟩ := List.mem_filterMap.mp hmem
      have := (reclen_direntOf hp).2
      simp at hroom
      omega

/-- Calling `iso_dir_getdents64` until it returns nothing lists the records of the directory. -/
theorem listDir_eq {dsz : UInt32} {bytes : Nat} (hbytes : maxReclen ≤ bytes) (fuel : Nat) :
    ∀ {pos : Nat} {rs : List (Nat × List UInt8)}, Records iso base dsz.toNat pos rs →
      (direntsOf iso rs).length < fuel → listDir iso base dsz bytes fuel pos = direntsOf iso rs := by
  induction fuel with
  | zero =>
      intro pos rs _ hlt
      omega
  | succ fuel ih =>
      intro pos rs h hlt
      obtain ⟨des, rs', hentries, hresult, hrs', hsplit, hempty⟩ := isoDirGetdents64_spec hbytes h
      unfold listDir
      dsimp only []
      cases des with
      | nil =>
          rw [hresult, if_pos (by simp), hempty rfl]
      | cons de des =>
          have hmem : de ∈ direntsOf iso rs := by
            rw [hsplit]
            exact List.mem_append_left _ (List.mem_cons_self ..)
          obtain ⟨p, -, hp⟩ := List.mem_filterMap.mp hmem
          have hpos := (reclen_direntOf hp).1
          rw [hresult, if_neg (by rw [List.map_cons, List.sum_cons]; omega), hentries, hsplit, ih hrs' ?_]
          rw [hsplit, List.length_append, List.length_cons] at hlt
          omega

/-! ## The lookup and the listing -/

theorem toLower_toUpperAscii (c : UInt8) : toLower (toUpperAscii c) = toLower c := by
  have h : ∀ n : Fin 256, toLower (toUpperAscii (UInt8.ofNat n)) = toLower (UInt8.ofNat n) := by decide +kernel
  have := h ⟨c.toNat, c.toNat_lt⟩
  rwa [UInt8.ofNat_toNat] at this

theorem namesEqualCi_map_toUpperAscii (a b : Text) :
    namesEqualCi (a.map toUpperAscii) b = namesEqualCi a b := by
  have : (a.map toUpperAscii).map toLower = a.map toLower := by
    rw [List.map_map]
    exact List.map_congr_left (fun c _ => toLower_toUpperAscii c)
  unfold namesEqualCi
  rw [this]

/-- The listing has the name, for a record other than the two special ones: exactly when it is a
Rock Ridge name, and up to ASCII case otherwise. -/
def ListsName (iso : Image) (want : Text) (p : Nat × List UInt8) : Prop :=
  isSpecial p.2 = false ∧ ∃ name de, isoDirRecordName iso p.2 = some name ∧ direntOf iso p.1 p.2 = some de ∧
    (if name.2 = true then de.name = want else namesEqualCi de.name want = true)

theorem carries_iff_listsName {want : Text} {p : Nat × List UInt8} :
    Carries iso want p.2 ↔ ListsName iso want p := by
  have hde : ∀ {name : Text × Bool}, isSpecial p.2 = false → isoDirRecordName iso p.2 = some name →
      ∃ de, direntOf iso p.1 p.2 = some de ∧
        ((if name.2 = true then de.name = want else namesEqualCi de.name want = true) ↔
          nameMatch want name = true) := by
    intro name hsp hname
    unfold direntOf
    rw [hname]
    refine ⟨_, rfl, ?_⟩
    obtain ⟨t, rr⟩ := name
    unfold nameMatch
    cases rr with
    | true => simp
    | false => simp [hsp, namesEqualCi_map_toUpperAscii]
  constructor
  · rintro ⟨hsp, name, hname, hmatch⟩
    obtain ⟨de, hd, hiff⟩ := hde hsp hname
    exact ⟨hsp, name, de, hname, hd, hiff.mpr hmatch⟩
  · rintro ⟨hsp, name, de, hname, hd, hmatch⟩
    obtain ⟨de', hd', hiff⟩ := hde hsp hname
    obtain rfl : de = de' := Option.some.inj (hd.symm.trans hd')
    exact ⟨hsp, name, hname, hiff.mp hmatch⟩

/-- On a well-formed directory, repeated calls of `iso_dir_getdents64` list its records, and the
lookup agrees with the list exactly when nothing leads it astray. -/
theorem lookup_agrees_iff {size : UInt32} (h : Records iso base size.toNat 0 rs) (want : Text) :
    (∀ bytes fuel, maxReclen ≤ bytes → rs.length < fuel →
      listDir iso base size bytes fuel 0 = direntsOf iso rs) ∧
    (∀ p ∈ rs, Carries iso want p.2 ↔ ListsName iso want p) ∧
    (WalkRight iso base want rs size ↔ Unmistakable iso base want rs size) := by
  refine ⟨fun bytes fuel hbytes hfuel => ?_, fun p _ => carries_iff_listsName, walkRight_iff h⟩
  refine listDir_eq hbytes fuel h (lt_of_le_of_lt ?_ hfuel)
  exact List.length_filterMap_le ..

/-- A sector with one record, of a file in one sector. -/
def oneRecord (name extent : UInt8) : List UInt8 :=
  [34, 0, extent] ++ List.replicate 29 0 ++ [1, name] ++ List.replicate 2014 0

/-- The rest of the sector is zero. -/
theorem byteAt_oneRecord_rest {name extent : UInt8} {i : Nat} (h : 34 ≤ i) :
    byteAt (oneRecord name extent) i = 0 := by
  unfold byteAt oneRecord
  rw [List.getD_eq_getElem?_getD, List.getElem?_append_right (by simpa using h), List.getElem?_replicate]
  split <;> rfl

/-- Sector 20 has a record `a`, and sector 21 a record `b`. -/
def twoDirs : Image where
  read := fun lba => if lba = 20 then some (oneRecord 97 30) else if lba = 21 then some (oneRecord 98 31) else none
  suspEnabled := false
  suspSkip := 0
  size := by
    intro lba s hs
    split at hs
    · cases hs
      decide +kernel
    · split at hs
      · cases hs
        decide +kernel
      · cases hs

theorem twoDirs_records : Records twoDirs 20 (2048 : UInt32).toNat 0 [(0, oneRecord 97 30)] := by
  have hlen : recLen ((oneRecord 97 30).drop (0 % sectorSize)) = 34 := by decide +kernel
  have hsector : ∀ pos, pos < 2048 → sectorAt twoDirs 20 pos = some (oneRecord 97 30) := by
    intro pos hpos
    unfold sectorAt
    rw [Nat.div_eq_of_lt (show pos < sectorSize from hpos)]
    rfl
  refine @Records.record twoDirs 20 _ 0 (oneRecord 97 30) [] (hsector 0 (by omega)) ?_ ?_ ?_ ?_
  · rw [hlen]
  · rw [hlen]
    decide
  · rw [hlen]
    decide
  · rw [hlen]
    refine Records.padding (by decide) (hsector 34 (by omega)) ?_ (Records.done (by decide))
    intro i hi _ hlt
    rw [Nat.mod_eq_of_lt (show i < sectorSize from hlt)]
    exact byteAt_oneRecord_rest hi

/-- The directory in sector 20, and the name `a` that it has. -/
theorem lookup_agrees_iff_twoDirs : Records twoDirs 20 (2048 : UInt32).toNat 0 [(0, oneRecord 97 30)] ∧
    WalkRight twoDirs 20 [97] [(0, oneRecord 97 30)] 2048 := by
  refine ⟨twoDirs_records, (lookup_agrees_iff twoDirs_records [97]).2.2.mpr ⟨?_, ?_⟩⟩
  · intro pre r post heq _ _ q hq
    cases pre with
    | nil => cases hq
    | cons b pre =>
        have := congrArg List.length heq
        simp at this
  · intro hnone
    have hcar : Carries twoDirs [97] (oneRecord 97 30) :=
      ⟨by decide +kernel, ([97], false), by decide +kernel, by decide +kernel⟩
    exact absurd hcar (hnone _ (List.mem_cons_self ..))

/-- The name `b` is not in the directory, and it is found in the sector after it. -/
theorem lookup_past_end : Records twoDirs 20 (2048 : UInt32).toNat 0 [(0, oneRecord 97 30)] ∧
    isoWalkComponent twoDirs 2 20 2048 [98] = .found ⟨31, 0, 0⟩ ∧
    ¬ WalkRight twoDirs 20 [98] [(0, oneRecord 97 30)] 2048 := by
  have hfound : isoWalkComponent twoDirs 2 20 2048 [98] = .found ⟨31, 0, 0⟩ := by decide +kernel
  refine ⟨twoDirs_records, hfound, fun hright => ?_⟩
  obtain ⟨pre, r, post, heq, -, ⟨-, name, hname, hmatch⟩, -⟩ := hright.found 2 _ hfound
  have hr : r = oneRecord 97 30 := by
    have hmem : r ∈ [oneRecord 97 30] := by
      rw [show [oneRecord 97 30] = pre ++ r :: post from heq]
      exact List.mem_append_right _ (List.mem_cons_self ..)
    simpa using hmem
  rw [hr, show isoDirRecordName twoDirs (oneRecord 97 30) = some ([97], false) by decide +kernel] at hname
  cases hname
  exact absurd hmatch (by decide +kernel)

end Guppy.Iso
