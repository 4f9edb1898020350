import Guppy.Iso.Dir
import Mathlib.Tactic

set_option autoImplicit false

/-! # The lookup and the listing of a directory

`Records` says that a directory is well formed and which records it has. `Later` says which
record comes after which ones when an image is read on from a position, inside a directory or
past its end. The lookup finds the first record with the name among those that it comes to
before it has counted the size of the directory down (`walk_found_iff`). It counts the records
and not the padding, so it goes on past the end of a directory with padding. The listing goes by
positions and has exactly the records of the directory (`listDir_eq`).
-/

namespace Guppy.Iso

open Vfs

section

variable (iso : Image) (base : UInt32)

/-- The sector of a position in a directory. -/
def sectorAt (pos : Nat) : Option (List UInt8) := iso.read (base + UInt32.ofNat (pos / sectorSize))

/-- Where the next sector starts. -/
def nextSector (pos : Nat) : Nat := sectorSize * (pos / sectorSize + 1)

/-- A directory of `size` bytes is well formed from a position on, with these records: each is at
least 34 bytes long and inside its sector and the directory, and the rest of a sector is zero. -/
inductive Records (size : Nat) : Nat → List (Nat × List UInt8) → Prop
  | done {pos : Nat} : size ≤ pos → Records size pos []
  | record {pos : Nat} {s : List UInt8} {rs : List (Nat × List UInt8)} :
      sectorAt iso base pos = some s → 34 ≤ recLen (s.drop (pos % sectorSize)) →
      pos % sectorSize + recLen (s.drop (pos % sectorSize)) ≤ sectorSize →
      pos + recLen (s.drop (pos % sectorSize)) ≤ size →
      Records size (pos + recLen (s.drop (pos % sectorSize))) rs →
      Records size pos ((pos, s.drop (pos % sectorSize)) :: rs)
  | padding {pos : Nat} {s : List UInt8} {rs : List (Nat × List UInt8)} :
      pos < size → sectorAt iso base pos = some s →
      (∀ i, pos ≤ i → i < nextSector pos → i < size → byteAt s (i % sectorSize) = 0) →
      Records size (nextSector pos) rs → Records size pos rs

/-- Reading on from a position, the record `r` comes after the records `pre`. -/
inductive Later : Nat → List (List UInt8) → List UInt8 → Prop
  | here {pos : Nat} {s : List UInt8} :
      sectorAt iso base pos = some s → recLen (s.drop (pos % sectorSize)) ≠ 0 →
      pos % sectorSize + recLen (s.drop (pos % sectorSize)) ≤ sectorSize →
      Later pos [] (s.drop (pos % sectorSize))
  | past {pos : Nat} {s : List UInt8} {pre : List (List UInt8)} {r : List UInt8} :
      sectorAt iso base pos = some s → recLen (s.drop (pos % sectorSize)) ≠ 0 →
      pos % sectorSize + recLen (s.drop (pos % sectorSize)) ≤ sectorSize →
      Later (pos + recLen (s.drop (pos % sectorSize))) pre r →
      Later pos (s.drop (pos % sectorSize) :: pre) r
  | padded {pos : Nat} {s : List UInt8} {pre : List (List UInt8)} {r : List UInt8} :
      sectorAt iso base pos = some s → recLen (s.drop (pos % sectorSize)) = 0 →
      Later (nextSector pos) pre r → Later pos pre r

/-- The name of a record can be decoded. -/
def Decodable (r : List UInt8) : Prop := isoDirRecordName iso r ≠ none

/-- A record carries a name: it is not one of the two special ones, and its name is the same, up
to ASCII case unless it is a Rock Ridge name. -/
def Carries (want : Text) (r : List UInt8) : Prop :=
  isSpecial r = false ∧ ∃ name, isoDirRecordName iso r = some name ∧ nameMatch want name = true

end

/-- The bytes of some records. -/
def sumLen (rs : List (List UInt8)) : Nat := (rs.map recLen).sum

/-- The lookup comes to a record with the name before `left` bytes of records are counted. -/
def Found (iso : Image) (base : UInt32) (want : Text) (pos left : Nat) (c : Child) : Prop :=
  ∃ pre r, Later iso base pos pre r ∧ sumLen pre < left ∧
    (∀ q ∈ pre, Decodable iso q ∧ ¬ Carries iso want q) ∧ Carries iso want r ∧ c = childOf r

section

variable {iso : Image} {base : UInt32} {want : Text}

theorem Later.readable {pos : Nat} {pre : List (List UInt8)} {r : List UInt8}
    (h : Later iso base pos pre r) : ∃ s, sectorAt iso base pos = some s := by
  cases h with
  | here hs => exact ⟨_, hs⟩
  | past hs => exact ⟨_, hs⟩
  | padded hs => exact ⟨_, hs⟩

theorem Carries.decodable {r : List UInt8} (h : Carries iso want r) : Decodable iso r := by
  obtain ⟨-, name, hname, -⟩ := h
  unfold Decodable
  rw [hname]
  exact Option.some_ne_none name

/-- A record whose name can be decoded passes the checks of the lookup. -/
theorem Decodable.idLen_le {r : List UInt8} (h : Decodable iso r) : 34 ≤ recLen r ∧ 33 + byteAt r 32 ≤ recLen r := by
  unfold Decodable isoDirRecordName at h
  split at h
  · exact absurd rfl h
  · omega

theorem sector_add (base : UInt32) (q : Nat) :
    base + UInt32.ofNat q + 1 = base + UInt32.ofNat (q + 1) := by
  rw [UInt32.ofNat_add, ← UInt32.add_assoc]
  rfl

/-! ## The lookup -/

/-- The next record is not the one: what is found after it is found. -/
theorem Found.past {pos left : Nat} {s : List UInt8} {c : Child} (hs : sectorAt iso base pos = some s)
    (hne : recLen (s.drop (pos % sectorSize)) ≠ 0)
    (hfit : pos % sectorSize + recLen (s.drop (pos % sectorSize)) ≤ sectorSize)
    (hdec : Decodable iso (s.drop (pos % sectorSize))) (hno : ¬ Carries iso want (s.drop (pos % sectorSize)))
    (h : Found iso base want (pos + recLen (s.drop (pos % sectorSize)))
      (left - recLen (s.drop (pos % sectorSize))) c) : Found iso base want pos left c := by
  obtain ⟨pre, r, hlater, hsum, hpre, hr, hc⟩ := h
  refine ⟨_ :: pre, r, Later.past hs hne hfit hlater, ?_, ?_, hr, hc⟩
  · unfold sumLen at hsum ⊢
    rw [List.map_cons, List.sum_cons]
    omega
  · intro q hq
    rcases List.mem_cons.mp hq with rfl | hq
    · exact ⟨hdec, hno⟩
    · exact hpre q hq

theorem Found.padded {pos left : Nat} {s : List UInt8} {c : Child} (hs : sectorAt iso base pos = some s)
    (hz : recLen (s.drop (pos % sectorSize)) = 0) (h : Found iso base want (nextSector pos) left c) :
    Found iso base want pos left c := by
  obtain ⟨pre, r, hlater, hrest⟩ := h
  exact ⟨pre, r, Later.padded hs hz hlater, hrest⟩

theorem sectorAt_eq {q off : Nat} (h : off < sectorSize) :
    sectorAt iso base (sectorSize * q + off) = iso.read (base + UInt32.ofNat q) := by
  unfold sectorAt
  rw [Nat.mul_add_div (by decide), Nat.div_eq_of_lt h, Nat.add_zero]

theorem nextSector_eq {q off : Nat} (h : off < sectorSize) :
    nextSector (sectorSize * q + off) = sectorSize * (q + 1) := by
  unfold nextSector
  rw [Nat.mul_add_div (by decide), Nat.div_eq_of_lt h, Nat.add_zero]

theorem mod_eq {q off : Nat} (h : off < sectorSize) : (sectorSize * q + off) % sectorSize = off := by
  rw [Nat.mul_add_mod, Nat.mod_eq_of_lt h]

/-! One step of the inner loop, for each thing that can be at an offset. -/

section

variable {s : List UInt8} {off left : Nat} (k : Nat)

theorem walkSector_end (h : ¬ (off < sectorSize ∧ 0 < left)) :
    walkSector iso want s k off left = .next left := by
  cases k with
  | zero => rfl
  | succ k =>
      unfold walkSector
      rw [if_neg h]

theorem walkSector_zero (hoff : off < sectorSize) (hleft : 0 < left) (hz : recLen (s.drop off) = 0) :
    walkSector iso want s (k + 1) off left = .next left := by
  unfold walkSector
  rw [if_pos ⟨hoff, hleft⟩]
  dsimp only []
  rw [if_pos hz]

theorem walkSector_carries (hoff : off < sectorSize) (hleft : 0 < left) (hne : recLen (s.drop off) ≠ 0)
    (hfit : off + recLen (s.drop off) ≤ sectorSize) (h : Carries iso want (s.drop off)) :
    walkSector iso want s (k + 1) off left = .done (.found (childOf (s.drop off))) := by
  obtain ⟨-, hid⟩ := h.decodable.idLen_le
  obtain ⟨hsp, name, hname, hmatch⟩ := h
  unfold walkSector
  rw [if_pos ⟨hoff, hleft⟩]
  dsimp only []
  rw [if_neg hne, if_neg (by omega), if_neg (by omega), hname]
  dsimp only []
  rw [if_pos ⟨hsp, hmatch⟩]

theorem walkSector_passed (hoff : off < sectorSize) (hleft : 0 < left) (hne : recLen (s.drop off) ≠ 0)
    (hfit : off + recLen (s.drop off) ≤ sectorSize) (hdec : Decodable iso (s.drop off))
    (hno : ¬ Carries iso want (s.drop off)) : walkSector iso want s (k + 1) off left =
      walkSector iso want s k (off + recLen (s.drop off)) (left - recLen (s.drop off)) := by
  obtain ⟨-, hid⟩ := hdec.idLen_le
  obtain ⟨name, hname⟩ := Option.ne_none_iff_exists'.mp hdec
  conv_lhs => unfold walkSector
  rw [if_pos ⟨hoff, hleft⟩]
  dsimp only []
  rw [if_neg hne, if_neg (by omega), if_neg (by omega), hname]
  dsimp only []
  rw [if_neg (fun hm => hno ⟨hm.1, name, hname, hm.2⟩)]

theorem walkSector_failed (hoff : off < sectorSize) (hleft : 0 < left) (hne : recLen (s.drop off) ≠ 0)
    (h : off + recLen (s.drop off) ≤ sectorSize → ¬ Decodable iso (s.drop off)) :
    walkSector iso want s (k + 1) off left = .done .failed := by
  unfold walkSector
  rw [if_pos ⟨hoff, hleft⟩]
  dsimp only []
  rw [if_neg hne]
  by_cases hfit : off + recLen (s.drop off) ≤ sectorSize
  · rw [if_neg (by omega)]
    split
    · rfl
    · rw [not_not.mp (h hfit)]
  · rw [if_pos (by omega)]

end

/-- What the inner loop finds is found; when it comes to the end of the sector, so is what is
found from the next sector on with the bytes that are left. -/
theorem walkSector_found {s : List UInt8} {q : Nat} (hs : iso.read (base + UInt32.ofNat q) = some s) (k : Nat) :
    ∀ {off left : Nat}, sectorSize < k + off → off ≤ sectorSize →
      (∀ c, walkSector iso want s k off left = .done (.found c) →
        Found iso base want (sectorSize * q + off) left c) ∧
      ∀ left', walkSector iso want s k off left = .next left' → 0 < left' →
        ∀ c, Found iso base want (sectorSize * (q + 1)) left' c →
          Found iso base want (sectorSize * q + off) left c := by
  induction k with
  | zero =>
      intro off left hk hoff
      omega
  | succ k ih =>
      intro off left hk hoff
      by_cases hin : off < sectorSize ∧ 0 < left
      · obtain ⟨hlt, hleft⟩ := hin
        have hs' := (sectorAt_eq hlt).trans hs
        by_cases hz : recLen (s.drop off) = 0
        · rw [walkSector_zero k hlt hleft hz]
          refine ⟨fun c hc => (by cases hc), fun left' hl _ c hc => ?_⟩
          cases hl
          refine Found.padded hs' (by rwa [mod_eq hlt]) ?_
          rwa [nextSector_eq hlt]
        · by_cases hfit : off + recLen (s.drop off) ≤ sectorSize
          · by_cases hdec : Decodable iso (s.drop off)
            · by_cases hcar : Carries iso want (s.drop off)
              · rw [walkSector_carries k hlt hleft hz hfit hcar]
                refine ⟨fun c hc => ?_, fun left' hl => (by cases hl)⟩
                cases hc
                have hhere := Later.here hs' (by rwa [mod_eq hlt]) (by rwa [mod_eq hlt])
                rw [mod_eq hlt] at hhere
                exact ⟨[], _, hhere, hleft, fun p hp => (by cases hp), hcar, rfl⟩
              · rw [walkSector_passed k hlt hleft hz hfit hdec hcar]
                obtain ⟨hfound, hnext⟩ := @ih (off + recLen (s.drop off)) (left - recLen (s.drop off))
                  (by omega) hfit
                have hpast : ∀ c, Found iso base want (sectorSize * q + (off + recLen (s.drop off)))
                    (left - recLen (s.drop off)) c → Found iso base want (sectorSize * q + off) left c := by
                  intro c hc
                  refine Found.past hs' (by rwa [mod_eq hlt]) (by rwa [mod_eq hlt]) (by rwa [mod_eq hlt])
                    (by rwa [mod_eq hlt]) ?_
                  rwa [mod_eq hlt, Nat.add_assoc]
                exact ⟨fun c hc => hpast c (hfound c hc), fun l hl hpos c hc => hpast c (hnext l hl hpos c hc)⟩
            · rw [walkSector_failed k hlt hleft hz (fun _ => hdec)]
              exact ⟨fun c hc => (by cases hc), fun l hl => (by cases hl)⟩
          · rw [walkSector_failed k hlt hleft hz (fun h => absurd h hfit)]
            exact ⟨fun c hc => (by cases hc), fun l hl => (by cases hl)⟩
      · rw [walkSector_end _ hin]
        refine ⟨fun c hc => (by cases hc), fun l hl hpos c hc => ?_⟩
        cases hl
        obtain rfl : off = sectorSize := by omega
        exact hc

theorem walkSectors_found (fuel : Nat) : ∀ {q left : Nat} {c : Child},
    walkSectors iso want fuel (base + UInt32.ofNat q) left = .found c →
      Found iso base want (sectorSize * q) left c := by
  induction fuel with
  | zero =>
      intro q left c h
      cases h
  | succ fuel ih =>
      intro q left c h
      unfold walkSectors at h
      split at h
      · cases h
      · rename_i hleft
        cases hs : iso.read (base + UInt32.ofNat q) with
        | none =>
            rw [hs] at h
            cases h
        | some s =>
            rw [hs] at h
            dsimp only [] at h
            obtain ⟨hfound, hnext⟩ := @walkSector_found iso base want s q hs (sectorSize + 1) 0 left
              (by omega) (Nat.zero_le _)
            cases hw : walkSector iso want s (sectorSize + 1) 0 left with
            | done r =>
                rw [hw] at h
                obtain rfl : r = .found c := h
                exact hfound c hw
            | next left' =>
                rw [hw] at h
                dsimp only [] at h
                rw [sector_add] at h
                have hpos : 0 < left' := by
                  by_contra hzero
                  obtain rfl : left' = 0 := by omega
                  cases fuel with
                  | zero => cases h
                  | succ fuel =>
                      unfold walkSectors at h
                      rw [if_pos rfl] at h
                      cases h
                exact hnext left' hw hpos c (ih h)

/-- The rest of a run that is inside a sector. -/
def resume (iso : Image) (want : Text) (fuel : Nat) (lba : UInt32) (s : List UInt8) (k off left : Nat) : WalkResult :=
  match walkSector iso want s k off left with
  | .done r => r
  | .next left => walkSectors iso want fuel (lba + 1) left

theorem walkSectors_succ {fuel : Nat} {lba : UInt32} {left : Nat} {s : List UInt8} (hleft : 0 < left)
    (hs : iso.read lba = some s) :
    walkSectors iso want (fuel + 1) lba left = resume iso want fuel lba s (sectorSize + 1) 0 left := by
  conv_lhs => unfold walkSectors
  rw [if_neg (by omega), hs]
  rfl

/-- A record with the name is found when none before it stops the lookup and the count does not
run out. -/
theorem resume_of_later {pos : Nat} {pre : List (List UInt8)} {r : List UInt8} (h : Later iso base pos pre r) :
    ∀ {left k : Nat} {s : List UInt8}, sectorAt iso base pos = some s → sectorSize < k + pos % sectorSize →
      sumLen pre < left → (∀ q ∈ pre, Decodable iso q ∧ ¬ Carries iso want q) → Carries iso want r →
      ∃ fuel, resume iso want fuel (base + UInt32.ofNat (pos / sectorSize)) s k (pos % sectorSize) left =
        .found (childOf r) := by
  -- the start of the next sector, from the loop over the sectors
  have hsector : ∀ {q left : Nat} {s : List UInt8} {c : Child}, 0 < left →
      sectorAt iso base (sectorSize * q) = some s →
      (∃ fuel, resume iso want fuel (base + UInt32.ofNat (sectorSize * q / sectorSize)) s (sectorSize + 1)
        (sectorSize * q % sectorSize) left = .found c) →
      ∃ fuel, walkSectors iso want fuel (base + UInt32.ofNat q) left = .found c := by
    rintro q left s c hleft hs ⟨fuel, hf⟩
    rw [Nat.mul_div_cancel_left q (by decide), Nat.mul_mod_right] at hf
    rw [show sectorSize * q = sectorSize * q + 0 from rfl, sectorAt_eq (by decide)] at hs
    exact ⟨fuel + 1, (walkSectors_succ hleft hs).trans hf⟩
  induction h with
  | here hs hne hfit =>
      intro left k s hs' hk hsum _ hr
      obtain rfl := Option.some.inj (hs.symm.trans hs')
      obtain ⟨k, rfl⟩ : ∃ j, k = j + 1 := ⟨k - 1, by have := Nat.mod_lt ‹Nat› (show 0 < sectorSize by decide); omega⟩
      refine ⟨0, ?_⟩
      unfold resume
      rw [walkSector_carries k (Nat.mod_lt _ (by decide)) (by omega) hne hfit hr]
  | @past pos s pre r hs hne hfit hlater ih =>
      intro left k s' hs' hk hsum hpre hr
      obtain rfl := Option.some.inj (hs.symm.trans hs')
      have hlt := Nat.mod_lt pos (show 0 < sectorSize by decide)
      obtain ⟨k, rfl⟩ : ∃ j, k = j + 1 := ⟨k - 1, by omega⟩
      obtain ⟨hdec, hno⟩ := hpre _ (List.mem_cons_self ..)
      have hsum' : recLen (s.drop (pos % sectorSize)) + sumLen pre < left := hsum
      have hpre' : ∀ q ∈ pre, Decodable iso q ∧ ¬ Carries iso want q :=
        fun q hq => hpre q (List.mem_cons_of_mem _ hq)
      unfold resume
      rw [walkSector_passed k hlt (by omega) hne hfit hdec hno]
      have hdm := Nat.div_add_mod pos sectorSize
      generalize recLen (s.drop (pos % sectorSize)) = len at *
      by_cases hend : pos % sectorSize + len < sectorSize
      · -- still the same sector
        have hpos : pos + len = sectorSize * (pos / sectorSize) + (pos % sectorSize + len) := by omega
        rw [hpos] at ih
        have hdiv : (sectorSize * (pos / sectorSize) + (pos % sectorSize + len)) / sectorSize = pos / sectorSize := by
          rw [Nat.mul_add_div (by decide), Nat.div_eq_of_lt hend, Nat.add_zero]
        obtain ⟨fuel, hf⟩ := @ih (left - len) k s
          ((sectorAt_eq hend).trans hs) (by rw [mod_eq hend]; omega) (by omega) hpre' hr
        rw [hdiv, mod_eq hend] at hf
        exact ⟨fuel, hf⟩
      · -- the record ends with its sector
        have hfull : pos % sectorSize + len = sectorSize := by omega
        have hpos : pos + len = sectorSize * (pos / sectorSize + 1) := by
          rw [Nat.mul_add, Nat.mul_one]
          omega
        rw [hfull, walkSector_end k (by omega)]
        dsimp only []
        rw [sector_add]
        rw [hpos] at ih hlater
        obtain ⟨s', hs'⟩ := hlater.readable
        refine hsector (by omega) hs' (ih hs' ?_ (by omega) hpre' hr)
        omega
  | @padded pos s pre r hs hz hlater ih =>
      intro left k s' hs' hk hsum hpre hr
      obtain rfl := Option.some.inj (hs.symm.trans hs')
      have hlt := Nat.mod_lt pos (show 0 < sectorSize by decide)
      obtain ⟨k, rfl⟩ : ∃ j, k = j + 1 := ⟨k - 1, by omega⟩
      unfold resume
      rw [walkSector_zero k hlt (by omega) hz]
      dsimp only []
      rw [sector_add]
      obtain ⟨s', hs'⟩ := hlater.readable
      exact hsector (by omega) hs' (ih hs' (by omega) hsum hpre hr)

/-- The lookup finds exactly what `Found` says. -/
theorem walk_found_iff {size : UInt32} {c : Child} :
    (∃ fuel, isoWalkComponent iso fuel base size want = .found c) ↔ Found iso base want 0 size.toNat c := by
  have hbase : base + UInt32.ofNat 0 = base := UInt32.add_zero base
  constructor
  · rintro ⟨fuel, hf⟩
    have := @walkSectors_found iso base want fuel 0 size.toNat c (by rwa [hbase])
    simpa using this
  · rintro ⟨pre, r, hlater, hsum, hpre, hr, rfl⟩
    obtain ⟨s, hs⟩ := hlater.readable
    obtain ⟨fuel, hf⟩ := resume_of_later hlater hs (show sectorSize < sectorSize + 1 + 0 % sectorSize by omega) hsum hpre hr
    rw [Nat.zero_div, Nat.zero_mod, hbase] at hf
    refine ⟨fuel + 1, (walkSectors_succ (by omega) ?_).trans hf⟩
    unfold sectorAt at hs
    rwa [Nat.zero_div, hbase] at hs

/-! ## The records of a directory -/

theorem byteAt_drop (s : List UInt8) (off i : Nat) : byteAt (s.drop off) i = byteAt s (off + i) := by
  unfold byteAt
  rw [List.getD_eq_getElem?_getD, List.getD_eq_getElem?_getD, List.getElem?_drop]

theorem lt_nextSector (pos : Nat) : pos < nextSector pos := by
  have hdm := Nat.div_add_mod pos sectorSize
  have hlt := Nat.mod_lt pos (show 0 < sectorSize by decide)
  unfold nextSector
  rw [Nat.mul_add, Nat.mul_one]
  omega

/-- Padding starts with a zero. -/
theorem recLen_padding {size pos : Nat} {s : List UInt8} (hpos : pos < size)
    (hz : ∀ i, pos ≤ i → i < nextSector pos → i < size → byteAt s (i % sectorSize) = 0) :
    recLen (s.drop (pos % sectorSize)) = 0 := by
  unfold recLen
  rw [byteAt_drop]
  exact hz pos (le_refl pos) (lt_nextSector pos) hpos

variable {size : Nat} {rs : List (Nat × List UInt8)}

/-- What is read on from a position is one of the records, or comes after all of them. -/
theorem Records.later_cases {pos : Nat} (h : Records iso base size pos rs) :
    ∀ {pre : List (List UInt8)} {r : List UInt8}, Later iso base pos pre r →
      (∃ post, rs.map Prod.snd = pre ++ r :: post) ∨ ∃ more, pre = rs.map Prod.snd ++ more := by
  induction h with
  | done _ =>
      intro pre r _
      exact Or.inr ⟨pre, rfl⟩
  | @record pos s rs hs hlen hfit hin hrest ih =>
      intro pre r hl
      cases hl with
      | here hs' =>
          obtain rfl := Option.some.inj (hs.symm.trans hs')
          exact Or.inl ⟨rs.map Prod.snd, rfl⟩
      | past hs' hne hfit' hl =>
          obtain rfl := Option.some.inj (hs.symm.trans hs')
          rcases ih hl with ⟨post, hpost⟩ | ⟨more, rfl⟩
          · exact Or.inl ⟨post, by rw [List.map_cons, hpost]; rfl⟩
          · exact Or.inr ⟨more, rfl⟩
      | padded hs' hz =>
          obtain rfl := Option.some.inj (hs.symm.trans hs')
          omega
  | @padding pos s rs hpos hs hz hrest ih =>
      intro pre r hl
      have hz' := recLen_padding hpos hz
      cases hl with
      | here hs' hne =>
          obtain rfl := Option.some.inj (hs.symm.trans hs')
          exact absurd hz' hne
      | past hs' hne =>
          obtain rfl := Option.some.inj (hs.symm.trans hs')
          exact absurd hz' hne
      | padded hs' _ hl => exact ih hl

/-- A record of the directory is read on to, and the records before it are shorter than the
directory. -/
theorem Records.later {pos : Nat} (h : Records iso base size pos rs) :
    ∀ {pre post : List (List UInt8)} {r : List UInt8}, rs.map Prod.snd = pre ++ r :: post →
      Later iso base pos pre r ∧ pos + sumLen pre < size := by
  induction h with
  | done _ =>
      intro pre post r heq
      simp at heq
  | @record pos s rs hs hlen hfit hin hrest ih =>
      intro pre post r heq
      cases pre with
      | nil =>
          obtain ⟨rfl, -⟩ := List.cons.inj heq
          refine ⟨Later.here hs (by omega) hfit, ?_⟩
          show pos + 0 < size
          omega
      | cons q pre =>
          obtain ⟨rfl, heq'⟩ := List.cons.inj heq
          obtain ⟨hl, hsum⟩ := ih heq'
          refine ⟨Later.past hs (by omega) hfit hl, ?_⟩
          show pos + (recLen (s.drop (pos % sectorSize)) + sumLen pre) < size
          omega
  | @padding pos s rs hpos hs hz hrest ih =>
      intro pre post r heq
      obtain ⟨hl, hsum⟩ := ih heq
      have := lt_nextSector pos
      exact ⟨Later.padded hs (recLen_padding hpos hz) hl, by omega⟩

variable (iso base want size rs) in
/-- The lookup does what it should on a directory with the records `rs`: it finds the name if and
only if a record carries it, and then the first one that does. -/
structure WalkRight (size : UInt32) : Prop where
  found : ∀ fuel c, isoWalkComponent iso fuel base size want = .found c → ∃ pre r post,
    rs.map Prod.snd = pre ++ r :: post ∧ (∀ q ∈ pre, ¬ Carries iso want q) ∧ Carries iso want r ∧ c = childOf r
  finds : ∀ p ∈ rs, Carries iso want p.2 → ∃ fuel c, isoWalkComponent iso fuel base size want = .found c

variable (iso base want size rs) in
/-- Nothing leads the lookup astray:
* `before`: a record before the first one with the name has a name that can be decoded;
* `beyond`: when no record has the name, none that comes after the directory has it, as far as
  the lookup goes: until the records and those that follow have the size of the directory. -/
structure Unmistakable (size : UInt32) : Prop where
  before : ∀ pre r post, rs.map Prod.snd = pre ++ r :: post → (∀ q ∈ pre, ¬ Carries iso want q) →
    Carries iso want r → ∀ q ∈ pre, Decodable iso q
  beyond : (∀ p ∈ rs, ¬ Carries iso want p.2) → (∀ p ∈ rs, Decodable iso p.2) →
    ∀ pre r, Later iso base 0 (rs.map Prod.snd ++ pre) r →
      (∀ q ∈ pre, Decodable iso q ∧ ¬ Carries iso want q) →
      sumLen (rs.map Prod.snd ++ pre) < size.toNat → ¬ Carries iso want r

/-- The first element with a property. -/
theorem exists_first {α : Type} {P : α → Prop} : ∀ {l : List α}, (∃ a ∈ l, P a) →
    ∃ pre a post, l = pre ++ a :: post ∧ (∀ b ∈ pre, ¬ P b) ∧ P a := by
  intro l
  induction l with
  | nil =>
      rintro ⟨a, ha, -⟩
      cases ha
  | cons b l ih =>
      rintro ⟨a, ha, hp⟩
      by_cases hb : P b
      · exact ⟨[], b, l, rfl, fun c hc => (by cases hc), hb⟩
      · obtain ⟨pre, c, post, rfl, hpre, hc⟩ := ih ⟨a, (List.mem_cons.mp ha).resolve_left
          (fun hab => hb (hab ▸ hp)), hp⟩
        refine ⟨b :: pre, c, post, rfl, fun d hd => ?_, hc⟩
        rcases List.mem_cons.mp hd with rfl | hd
        · exact hb
        · exact hpre d hd

theorem first_unique {α : Type} {P : α → Prop} {pre pre' post post' : List α} {a a' : α}
    (heq : pre ++ a :: post = pre' ++ a' :: post') (hpre : ∀ b ∈ pre, ¬ P b) (ha : P a)
    (hpre' : ∀ b ∈ pre', ¬ P b) (ha' : P a') : pre = pre' ∧ a = a' := by
  induction pre generalizing pre' with
  | nil =>
      cases pre' with
      | nil =>
          obtain ⟨rfl, -⟩ := List.cons.inj heq
          exact ⟨rfl, rfl⟩
      | cons b pre' =>
          obtain ⟨rfl, -⟩ := List.cons.inj heq
          exact absurd ha (hpre' a (List.mem_cons_self ..))
  | cons b pre ih =>
      cases pre' with
      | nil =>
          obtain ⟨rfl, -⟩ := List.cons.inj heq
          exact absurd ha' (hpre b (List.mem_cons_self ..))
      | cons b' pre' =>
          obtain ⟨rfl, heq'⟩ := List.cons.inj heq
          obtain ⟨rfl, rfl⟩ := ih heq' (fun c hc => hpre c (List.mem_cons_of_mem _ hc))
            (fun c hc => hpre' c (List.mem_cons_of_mem _ hc))
          exact ⟨rfl, rfl⟩

theorem walkRight_iff {size : UInt32} (h : Records iso base size.toNat 0 rs) :
    WalkRight iso base want rs size ↔ Unmistakable iso base want rs size := by
  have hcarried : ∀ {r : List UInt8}, r ∈ rs.map Prod.snd → Carries iso want r →
      ∃ p ∈ rs, Carries iso want p.2 := by
    intro r hr hcar
    obtain ⟨p, hp, rfl⟩ := List.mem_map.mp hr
    exact ⟨p, hp, hcar⟩
  constructor
  · intro hright
    refine ⟨?_, ?_⟩
    · intro pre r post heq hpre hcar q hq
      obtain ⟨p, hp, hpc⟩ := hcarried (by rw [heq]; exact List.mem_append_right _ (List.mem_cons_self ..)) hcar
      obtain ⟨fuel, c, hw⟩ := hright.finds p hp hpc
      obtain ⟨pre', r', hl, hsum, hpre', hcar', -⟩ := walk_found_iff.mp ⟨fuel, hw⟩
      -- what the lookup found is the first record with the name
      rcases h.later_cases hl with ⟨post', heq'⟩ | ⟨more, rfl⟩
      · obtain ⟨rfl, rfl⟩ := first_unique (heq.symm.trans heq') hpre hcar (fun b hb => (hpre' b hb).2) hcar'
        exact (hpre' q hq).1
      · refine (hpre' q (List.mem_append_left _ ?_)).1
        rw [heq]
        exact List.mem_append_left _ hq
    · intro hnone hdec pre r hl hpre hsum hcar
      have hall : ∀ q ∈ rs.map Prod.snd ++ pre, Decodable iso q ∧ ¬ Carries iso want q := by
        intro q hq
        rcases List.mem_append.mp hq with hq | hq
        · obtain ⟨p, hp, rfl⟩ := List.mem_map.mp hq
          exact ⟨hdec p hp, hnone p hp⟩
        · exact hpre q hq
      obtain ⟨fuel, hw⟩ := (@walk_found_iff iso base want size _).mpr ⟨_, r, hl, hsum, hall, hcar, rfl⟩
      obtain ⟨pre', r', post', heq, -, hcar', -⟩ := hright.found fuel _ hw
      obtain ⟨p, hp, hpc⟩ := hcarried (by rw [heq]; exact List.mem_append_right _ (List.mem_cons_self ..)) hcar'
      exact hnone p hp hpc
  · intro hun
    refine ⟨?_, ?_⟩
    · intro fuel c hw
      obtain ⟨pre, r, hl, hsum, hpre, hcar, hc⟩ := walk_found_iff.mp ⟨fuel, hw⟩
      rcases h.later_cases hl with ⟨post, heq⟩ | ⟨more, rfl⟩
      · exact ⟨pre, r, post, heq, fun q hq => (hpre q hq).2, hcar, hc⟩
      · refine absurd hcar (hun.beyond ?_ ?_ more r hl (fun q hq => hpre q (List.mem_append_right _ hq)) hsum)
        · exact fun p hp => (hpre p.2 (List.mem_append_left _ (List.mem_map_of_mem hp))).2
        · exact fun p hp => (hpre p.2 (List.mem_append_left _ (List.mem_map_of_mem hp))).1
    · intro p hp hpc
      obtain ⟨pre, r, post, heq, hpre, hcar⟩ := exists_first ⟨p.2, List.mem_map_of_mem hp, hpc⟩
      obtain ⟨hl, hsum⟩ := h.later heq
      obtain ⟨fuel, hw⟩ := (@walk_found_iff iso base want size _).mpr ⟨pre, r, hl, by omega,
        fun q hq => ⟨hun.before pre r post heq hpre hcar q hq, hpre q hq⟩, hcar, rfl⟩
      exact ⟨fuel, _, hw⟩

end

end Guppy.Iso
