import Guppy.Iso.Areas
import Mathlib.Data.List.Flatten
import Mathlib.Data.List.Perm.Subperm
import Mathlib.Data.List.TakeWhile

set_option autoImplicit false

/-! # Rock Ridge names

A Rock Ridge name is put together from the `NM` entries of a record and of its continuation areas.
`iso_dir_record_name`, which the lookup and the listing use, reads the entries of the record alone, and
`iso_dir_record_name_ce` follows the `CE` entries. `names_complete_iff` says when both find the whole name.
-/

namespace Guppy.Iso

open Vfs

/-! ## The code -/

/-- An `NM` entry. -/
def isNm (su : List UInt8) : Bool := byteAt su 0 = 78 ∧ byteAt su 1 = 77

/-- `rr_nm_visit` with a buffer of 256 bytes; the context is the name so far, if there is one. -/
def rrNmVisit : Visit (Option Text) := fun acc su =>
  if isNm su = false ∨ byteAt su 3 ≠ 1 ∨ su.length < 5 then (true, acc)
  else
    let flags := byteAt su 4
    if flags.testBit 1 = true then (false, some [46])
    else if flags.testBit 2 = true then (false, some [46, 46])
    else (flags.testBit 0, some ((acc.getD [] ++ su.drop 5).take 255))

/-- `iso_dir_record_name_ce` with a buffer of 256 bytes. -/
def isoDirRecordNameCe (iso : Image) (r : List UInt8) : Option (Text × Bool) :=
  match (walkRecordSu iso r rrNmVisit none).ctx with
  | some name => some (cText name, true)
  | none => isoDirRecordName iso r

/-! ## The fragments of a name -/

/-- `RR_NM_CONTINUE` -/
def goesOn (su : List UInt8) : Bool := (byteAt su 4).testBit 0

/-- `RR_NM_CURRENT` and `RR_NM_PARENT` -/
def isDots (su : List UInt8) : Bool := (byteAt su 4).testBit 1 || (byteAt su 4).testBit 2

/-- What an `NM` entry adds to the name. -/
def fragment (su : List UInt8) : Text :=
  if (byteAt su 4).testBit 1 = true then [46]
  else if (byteAt su 4).testBit 2 = true then [46, 46]
  else su.drop 5

def fragments (es : List (List UInt8)) : List Text := (es.filter isNm).map fragment

/-- An `NM` entry as the format has it. -/
structure Formed (su : List UInt8) : Prop where
  long : 5 ≤ su.length
  version : byteAt su 3 = 1
  noZero : 0 ∉ su.drop 5

/-- A record with a Rock Ridge name of at most 255 bytes. All `NM` entries but the last one say that the
name goes on, and one for a directory itself or its parent is the only one. -/
structure NamedRecord (iso : Image) extends SuRecord iso where
  named : fragments area.inOrder ≠ []
  formed : ∀ su ∈ area.inOrder, isNm su = true → Formed su
  flags : ∀ pre su post, area.inOrder = pre ++ su :: post → isNm su = true → (goesOn su = false ↔ fragments post = [])
  alone : ∀ su ∈ area.inOrder, isNm su = true → isDots su = true → fragments area.inOrder = [fragment su]
  special : isSpecial bytes = true → fragments area.inOrder = [if byteAt bytes 33 = 0 then [46] else [46, 46]]
  short : (fragments area.inOrder).flatten.length ≤ 255

/-- The concatenation of the fragments. -/
def NamedRecord.name {iso : Image} (R : NamedRecord iso) : Text := (fragments R.area.inOrder).flatten

/-! ## Reading fragments -/

theorem fragments_append (a b : List (List UInt8)) : fragments (a ++ b) = fragments a ++ fragments b := by
  unfold fragments
  rw [List.filter_append, List.map_append]

theorem fragments_cons_nm {su : List UInt8} {es : List (List UInt8)} (h : isNm su = true) :
    fragments (su :: es) = fragment su :: fragments es := by
  unfold fragments
  rw [List.filter_cons_of_pos h, List.map_cons]

theorem fragments_cons_other {su : List UInt8} {es : List (List UInt8)} (h : isNm su = false) :
    fragments (su :: es) = fragments es := by
  unfold fragments
  rw [List.filter_cons_of_neg (by simp [h])]

theorem fragments_eq_nil_iff {es : List (List UInt8)} : fragments es = [] ↔ ∀ su ∈ es, isNm su = false := by
  simp [fragments]

theorem rrNmVisit_other {su : List UInt8} {acc : Option Text} (h : isNm su = false) : rrNmVisit acc su = (true, acc) := by
  unfold rrNmVisit
  rw [if_pos (Or.inl h)]

/-- The name with more fragments. -/
def joined (acc : Option Text) (fs : List Text) : Option Text := if fs = [] then acc else some (acc.getD [] ++ fs.flatten)

@[simp] theorem joined_nil (acc : Option Text) : joined acc [] = acc := if_pos rfl

theorem joined_cons (acc : Option Text) (f : Text) (fs : List Text) :
    joined (some (acc.getD [] ++ f)) fs = joined acc (f :: fs) := by
  unfold joined
  cases fs with
  | nil => simp
  | cons g fs => simp

theorem joined_append (acc : Option Text) (a b : List Text) : joined (joined acc a) b = joined acc (a ++ b) := by
  induction a generalizing acc with
  | nil => simp
  | cons f fs ih => rw [← joined_cons acc f fs, ih, joined_cons, List.cons_append]

theorem joined_length (acc : Option Text) (fs : List Text) :
    ((joined acc fs).getD []).length = (acc.getD []).length + fs.flatten.length := by
  unfold joined
  split
  · rename_i h
    simp [h]
  · simp

/-- Entries from which the visitor can take all fragments, with this name in front. -/
structure Joinable (acc : Option Text) (es : List (List UInt8)) : Prop where
  formed : ∀ su ∈ es, isNm su = true → Formed su
  ends : ∀ pre su post, es = pre ++ su :: post → isNm su = true → goesOn su = false → fragments post = []
  alone : ∀ su ∈ es, isNm su = true → isDots su = true → goesOn su = false ∧ acc = none ∧ fragments es = [fragment su]
  short : (acc.getD []).length + (fragments es).flatten.length ≤ 255

theorem rrNmVisit_nm {su : List UInt8} {acc : Option Text} (hnm : isNm su = true) (hf : Formed su)
    (hdots : isDots su = true → goesOn su = false ∧ acc = none) (hlen : (acc.getD []).length + (fragment su).length ≤ 255) :
    rrNmVisit acc su = (goesOn su, some (acc.getD [] ++ fragment su)) := by
  have hlong := hf.long
  have hversion := hf.version
  unfold rrNmVisit
  rw [if_neg (by simp only [hnm]; rintro (h | h | h) <;> first | exact Bool.noConfusion h | omega)]
  dsimp only []
  by_cases hdot : (byteAt su 4).testBit 1 = true
  · obtain ⟨hend, rfl⟩ := hdots (by unfold isDots; rw [hdot]; rfl)
    rw [if_pos hdot, hend]
    unfold fragment
    rw [if_pos hdot]
    rfl
  · by_cases hdotdot : (byteAt su 4).testBit 2 = true
    · obtain ⟨hend, rfl⟩ := hdots (by unfold isDots; rw [hdotdot, Bool.or_true])
      rw [if_neg hdot, if_pos hdotdot, hend]
      unfold fragment
      rw [if_neg hdot, if_pos hdotdot]
      rfl
    · have hfrag : fragment su = su.drop 5 := by
        unfold fragment
        rw [if_neg hdot, if_neg hdotdot]
      rw [if_neg hdot, if_neg hdotdot, ← hfrag, List.take_of_length_le (by rw [List.length_append]; exact hlen)]
      rfl

theorem Joinable.left {acc : Option Text} {a b : List (List UInt8)} (h : Joinable acc (a ++ b)) : Joinable acc a where
  formed := fun su hsu => h.formed su (List.mem_append_left b hsu)
  ends := by
    intro pre su post heq hnm hend
    have := h.ends pre su (post ++ b) (by rw [heq]; simp) hnm hend
    rw [fragments_append] at this
    exact (List.append_eq_nil_iff.mp this).1
  alone := by
    intro su hsu hnm hdots
    obtain ⟨hend, hacc, hone⟩ := h.alone su (List.mem_append_left b hsu) hnm hdots
    refine ⟨hend, hacc, ?_⟩
    rw [fragments_append] at hone
    rcases List.append_eq_singleton_iff.mp hone with ⟨hnil, -⟩ | ⟨hone, -⟩
    · have := fragments_eq_nil_iff.mp hnil su hsu
      rw [hnm] at this
      cases this
    · exact hone
  short := by
    have := h.short
    rw [fragments_append, List.flatten_append, List.length_append] at this
    omega

/-- The first entries have been read. -/
theorem Joinable.behind {acc : Option Text} {a b : List (List UInt8)} (h : Joinable acc (a ++ b)) :
    Joinable (joined acc (fragments a)) b where
  formed := fun su hsu => h.formed su (List.mem_append_right a hsu)
  ends := fun pre su post heq => h.ends (a ++ pre) su post (by rw [heq, List.append_assoc])
  alone := by
    intro su hsu hnm hdots
    obtain ⟨hend, hacc, hone⟩ := h.alone su (List.mem_append_right a hsu) hnm hdots
    rw [fragments_append] at hone
    rcases List.append_eq_singleton_iff.mp hone with ⟨hnil, hone⟩ | ⟨-, hnil⟩
    · rw [hnil]
      exact ⟨hend, hacc, hone⟩
    · have := fragments_eq_nil_iff.mp hnil su hsu
      rw [hnm] at this
      cases this
  short := by
    have := h.short
    rw [fragments_append, List.flatten_append, List.length_append] at this
    rw [joined_length]
    omega

/-- The first entries are left out. -/
theorem Joinable.right {acc : Option Text} {a b : List (List UInt8)} (h : Joinable acc (a ++ b)) : Joinable acc b where
  formed := h.behind.formed
  ends := h.behind.ends
  alone := by
    intro su hsu hnm hdots
    obtain ⟨hend, -, hone⟩ := h.behind.alone su hsu hnm hdots
    exact ⟨hend, (h.alone su (List.mem_append_right a hsu) hnm hdots).2.1, hone⟩
  short := by
    have := h.short
    rw [fragments_append, List.flatten_append, List.length_append] at this
    omega

theorem runEntries_fragments {es : List (List UInt8)} {acc : Option Text} (h : Joinable acc es) :
    (runEntries rrNmVisit acc es).2 = joined acc (fragments es) ∧
      ((runEntries rrNmVisit acc es).1 = false →
        ∃ pre su post, es = pre ++ su :: post ∧ isNm su = true ∧ goesOn su = false) := by
  induction es generalizing acc with
  | nil => exact ⟨(joined_nil acc).symm, fun h => absurd h Bool.noConfusion⟩
  | cons su es ih =>
      unfold runEntries
      dsimp only []
      cases hnm : isNm su with
      | false =>
          obtain ⟨hrun, hstop⟩ := ih (@Joinable.right acc [su] es h)
          rw [rrNmVisit_other hnm, fragments_cons_other hnm, if_neg Bool.noConfusion]
          refine ⟨hrun, fun hfalse => ?_⟩
          obtain ⟨pre, last, post, rfl, hlast⟩ := hstop hfalse
          exact ⟨su :: pre, last, post, rfl, hlast⟩
      | true =>
          have hshort := h.short
          rw [fragments_cons_nm hnm, List.flatten_cons, List.length_append] at hshort
          have hvisit : rrNmVisit acc su = (goesOn su, some (acc.getD [] ++ fragment su)) := by
            apply rrNmVisit_nm hnm (h.formed su (List.mem_cons_self ..) hnm)
            · intro hdots
              obtain ⟨hend, hacc, -⟩ := h.alone su (List.mem_cons_self ..) hnm hdots
              exact ⟨hend, hacc⟩
            · omega
          rw [hvisit, fragments_cons_nm hnm, ← joined_cons]
          cases hend : goesOn su with
          | false =>
              rw [if_pos rfl, h.ends [] su es rfl hnm hend, joined_nil]
              exact ⟨rfl, fun _ => ⟨[], su, es, rfl, hnm, hend⟩⟩
          | true =>
              have hbehind := @Joinable.behind acc [su] es h
              rw [fragments_cons_nm hnm, ← joined_cons, show fragments [] = [] from rfl, joined_nil] at hbehind
              obtain ⟨hrun, hstop⟩ := ih hbehind
              rw [if_neg Bool.noConfusion]
              refine ⟨hrun, fun hfalse => ?_⟩
              obtain ⟨pre, last, post, rfl, hlast⟩ := hstop hfalse
              exact ⟨su :: pre, last, post, rfl, hlast⟩

/-! ## Following the continuations -/

/-- The walk leaves out entries and changes their order. -/
theorem reached_subperm (a : SuArea) : ∀ {depth budget : Nat}, List.Subperm (a.reached depth budget) a.inOrder := by
  induction a with
  | last es => exact fun {_ _} => List.Subperm.refl es
  | more pre ce next post ih =>
      intro depth budget
      rw [SuArea.reached, SuArea.inOrder, List.append_assoc, List.cons_append, List.subperm_append_left, List.subperm_cons,
        List.perm_append_comm.subperm_right, List.subperm_append_left]
      split
      · exact ih
      · exact List.nil_subperm

theorem reached_fragments (a : SuArea) {depth budget : Nat} :
    List.Subperm (fragments (a.reached depth budget)) (fragments a.inOrder) := by
  obtain ⟨l, hperm, hsub⟩ := (@reached_subperm a depth budget).filter isNm
  exact ⟨l.map fragment, hperm.map fragment, hsub.map fragment⟩

theorem reached_fragments_nil {a : SuArea} {depth budget : Nat} (h : fragments a.inOrder = []) :
    fragments (a.reached depth budget) = [] := by
  have := (@reached_fragments a depth budget).length_le
  rw [h] at this
  exact List.length_eq_zero_iff.mp (Nat.le_zero.mp this)

theorem reached_length (a : SuArea) {depth budget : Nat} :
    (fragments (a.reached depth budget)).flatten.length ≤ (fragments a.inOrder).flatten.length := by
  obtain ⟨l, hperm, hsub⟩ := @reached_fragments a depth budget
  calc (fragments (a.reached depth budget)).flatten.length
      = l.flatten.length := hperm.symm.flatten.length_eq
    _ ≤ (fragments a.inOrder).flatten.length := hsub.flatten.length_le

theorem not_isNm_of_isCe {su : List UInt8} (h : isCe su = true) : isNm su = false := by
  unfold isCe at h
  unfold isNm
  rw [decide_eq_true_iff] at h
  rw [decide_eq_false_iff_not]
  omega

/-- The walk joins the fragments in its order. -/
theorem run_fragments {iso : Image} {a : SuArea} (ha : Stored iso a) : ∀ {depth budget : Nat} {acc : Option Text},
    Joinable acc a.inOrder → a.run rrNmVisit depth budget acc = joined acc (fragments (a.reached depth budget)) := by
  induction ha with
  | last h => exact fun {_ _ _} hread => (runEntries_fragments hread).1
  | @more pre post ce buf next hpre hce hpost hread hbuf hnext ih =>
      intro depth budget acc h
      have hinOrder : (SuArea.more pre ce next post).inOrder = pre ++ ([ce] ++ (post ++ next.inOrder)) := by
        simp [SuArea.inOrder]
      have hreached : fragments ((SuArea.more pre ce next post).reached depth budget) = fragments pre ++
          (fragments (if SuArea.Followed depth budget ce then next.reached (depth + 1) (budget - u32At ce 20) else []) ++
            fragments post) := by
        rw [SuArea.reached, fragments_append, fragments_cons_other (not_isNm_of_isCe hce), fragments_append]
      rw [hinOrder] at h
      obtain ⟨hrun, hstop⟩ := runEntries_fragments h.left
      have hbehind : Joinable (joined acc (fragments pre)) (post ++ next.inOrder) := h.behind.right
      rw [hreached]
      rw [SuArea.run]
      dsimp only []
      cases hp : (runEntries rrNmVisit acc pre).1 with
      | false =>
          -- the last fragment has been read
          obtain ⟨before, su, after, heq, hnm, hend⟩ := hstop hp
          have hnil := h.ends before su (after ++ ([ce] ++ (post ++ next.inOrder))) (by rw [heq]; simp) hnm hend
          simp only [fragments_append, List.append_eq_nil_iff] at hnil
          have hnext : fragments (if SuArea.Followed depth budget ce then next.reached (depth + 1) (budget - u32At ce 20)
              else []) = [] := by
            split
            · exact reached_fragments_nil hnil.2.2.2
            · rfl
          rw [if_pos rfl, hrun, hnext, hnil.2.2.1]
          simp
      | true =>
          rw [if_neg Bool.noConfusion, hrun, rrNmVisit_other (not_isNm_of_isCe hce), if_neg Bool.noConfusion]
          have hctx : (if SuArea.Followed depth budget ce then
                next.run rrNmVisit (depth + 1) (budget - u32At ce 20) (joined acc (fragments pre))
              else joined acc (fragments pre)) = joined (joined acc (fragments pre)) (fragments
                (if SuArea.Followed depth budget ce then next.reached (depth + 1) (budget - u32At ce 20) else [])) := by
            split
            · exact ih hbehind.right
            · rfl
          have hpost : Joinable (joined (joined acc (fragments pre)) (fragments
              (if SuArea.Followed depth budget ce then next.reached (depth + 1) (budget - u32At ce 20) else []))) post := by
            refine ⟨hbehind.left.formed, hbehind.left.ends, fun su hsu hnm hdots => ?_, ?_⟩
            · obtain ⟨hend, hacc, hone⟩ := hbehind.alone su (List.mem_append_left _ hsu) hnm hdots
              have hnext : fragments next.inOrder = [] := by
                rw [fragments_append, (hbehind.left.alone su hsu hnm hdots).2.2] at hone
                simpa using hone
              have hnone : fragments (if SuArea.Followed depth budget ce then
                  next.reached (depth + 1) (budget - u32At ce 20) else []) = [] := by
                split
                · exact reached_fragments_nil hnext
                · rfl
              rw [hnone, joined_nil]
              exact hbehind.left.alone su hsu hnm hdots
            · have hshort := hbehind.short
              have hlen := @reached_length next (depth + 1) (budget - u32At ce 20)
              rw [fragments_append, List.flatten_append, List.length_append] at hshort
              rw [joined_length]
              split
              · omega
              · simp [fragments] at hshort ⊢
                omega
          rw [hctx, (runEntries_fragments hpost).1, joined_append, joined_append]

/-! ## The record alone -/

theorem Area.length_le {bytes : List UInt8} {es : List (List UInt8)} (h : Area bytes es) : 4 * es.length ≤ bytes.length := by
  induction h with
  | blank h => exact Nat.zero_le _
  | entry hsu hst h ih =>
      have := hsu.1
      rw [List.length_cons, List.length_append]
      omega

/-- The loop of `iso_dir_record_name` does what the visitor does on the entries of the record. -/
theorem rrName_entries {r : List UInt8} (hr : recLen r ≤ r.length) {bytes : List UInt8} {es : List (List UInt8)}
    (h : Area bytes es) : ∀ {fuel pos : Nat} {acc : Option Text}, (r.take (recLen r)).drop pos = bytes → pos ≤ recLen r →
    es.length < fuel → (∀ su ∈ es, isNm su = true → byteAt su 3 = 1) →
    rrName r fuel pos acc = (runEntries rrNmVisit acc es).2 := by
  induction h with
  | @blank pad h =>
      intro fuel pos acc hbytes hpos hfuel _
      cases fuel with
      | zero => cases hfuel
      | succ fuel =>
          have hlen := congrArg List.length hbytes
          rw [List.length_drop, List.length_take, Nat.min_eq_left hr] at hlen
          unfold rrName
          split
          · rfl
          · rename_i hfits
            have hslen : byteAt r (pos + 2) = byteAt pad 2 := by
              rw [← hbytes]
              unfold byteAt
              simp [List.getD_eq_getElem?_getD]
              rw [List.getElem?_take_of_lt (by omega)]
            dsimp only []
            unfold nextEntry at h
            rw [if_neg (by omega)] at h
            dsimp only [] at h
            rw [hslen, if_pos]
            · rfl
            · split at h
              · rename_i hbad
                omega
              · cases h
  | @entry su rest es hsu hst h ih =>
      intro fuel pos acc hbytes hpos hfuel hversion
      cases fuel with
      | zero => cases hfuel
      | succ fuel =>
          have hlong := hsu.1
          have hlen := congrArg List.length hbytes
          rw [List.length_drop, List.length_take, Nat.min_eq_left hr, List.length_append] at hlen
          have hbyte : ∀ i, i < su.length → byteAt r (pos + i) = byteAt su i := by
            intro i hi
            rw [← @byteAt_append su rest i hi, ← hbytes]
            unfold byteAt
            simp [List.getD_eq_getElem?_getD]
            rw [List.getElem?_take_of_lt (by omega)]
          have hslen : byteAt r (pos + 2) = su.length := (hbyte 2 (by omega)).trans hsu.2
          have hcontent : (r.drop (pos + 5)).take (su.length - 5) = su.drop 5 := by
            have htake : su = (r.drop pos).take su.length := by
              have : ((r.take (recLen r)).drop pos).take su.length = su := by rw [hbytes, List.take_left]
              rw [List.drop_take, List.take_take, Nat.min_eq_left (by omega)] at this
              exact this.symm
            conv_rhs => rw [htake]
            rw [List.drop_take, List.drop_drop]
          have hgo : ∀ acc, rrName r fuel (pos + su.length) acc = (runEntries rrNmVisit acc es).2 := by
            intro acc
            apply ih _ (by omega) (by rw [List.length_cons] at hfuel; omega)
              (fun e he => hversion e (List.mem_cons_of_mem _ he))
            rw [← List.drop_drop, hbytes, List.drop_left]
          unfold rrName
          rw [if_neg (by omega)]
          dsimp only []
          rw [hslen, if_neg (by omega)]
          have h0 := hbyte 0 (by omega)
          have h1 := hbyte 1 (by omega)
          rw [Nat.add_zero] at h0
          rw [h0, h1]
          unfold runEntries
          dsimp only []
          by_cases hnm : isNm su = true ∧ 5 ≤ su.length
          · have hsig : byteAt su 0 = 78 ∧ byteAt su 1 = 77 := of_decide_eq_true hnm.1
            have hvisit : rrNmVisit acc su = (let flags := byteAt su 4
                if flags.testBit 1 = true then (false, some [46])
                else if flags.testBit 2 = true then (false, some [46, 46])
                else (flags.testBit 0, some ((acc.getD [] ++ su.drop 5).take 255))) := by
              have hv := hversion su (List.mem_cons_self ..) hnm.1
              unfold rrNmVisit
              rw [if_neg (by rw [hnm.1]; rintro (h | h | h) <;> first | exact Bool.noConfusion h | omega)]
            rw [if_pos ⟨hsig.1, hsig.2, hnm.2⟩, hbyte 4 (by omega), hcontent, hvisit]
            dsimp only []
            by_cases hdot : (byteAt su 4).testBit 1 = true
            · rw [if_pos hdot, if_pos hdot, if_pos rfl]
            · rw [if_neg hdot, if_neg hdot]
              by_cases hdotdot : (byteAt su 4).testBit 2 = true
              · rw [if_pos hdotdot, if_pos hdotdot, if_pos rfl]
              · rw [if_neg hdotdot, if_neg hdotdot]
                by_cases hmore : (byteAt su 4).testBit 0 = true
                · rw [if_pos hmore, if_neg (by rw [hmore]; exact Bool.noConfusion)]
                  exact hgo _
                · rw [if_neg hmore, if_pos (by simpa using hmore)]
          · have hvisit : rrNmVisit acc su = (true, acc) := by
              unfold rrNmVisit
              rw [if_pos]
              by_cases h : isNm su = true
              · exact Or.inr (Or.inr (by by_contra hc; exact hnm ⟨h, by omega⟩))
              · exact Or.inl (by simpa using h)
            rw [if_neg (by rintro ⟨ha, hb, hc⟩; exact hnm ⟨decide_eq_true ⟨ha, hb⟩, hc⟩), hvisit, if_neg Bool.noConfusion]
            exact hgo acc

/-! ## Complete names -/

/-- The name that the identifier of a record stands for. -/
def isoName (r : List UInt8) : Text := cText (isoNormalizeName ((r.drop 33).take (byteAt r 32)))

theorem cText_of_noZero {t : Text} (h : 0 ∉ t) : cText t = t := by
  unfold cText
  rw [List.takeWhile_eq_self_iff]
  intro c hc
  exact decide_eq_true fun hzero => h (hzero ▸ hc)

theorem fragments_noZero {es : List (List UInt8)} (h : ∀ su ∈ es, isNm su = true → Formed su) : 0 ∉ (fragments es).flatten := by
  intro hzero
  obtain ⟨f, hf, hzero⟩ := List.mem_flatten.mp hzero
  obtain ⟨su, hsu, rfl⟩ := List.mem_map.mp hf
  obtain ⟨hmem, hnm⟩ := List.mem_filter.mp hsu
  unfold fragment at hzero
  split at hzero
  · exact absurd hzero (by decide)
  · split at hzero
    · exact absurd hzero (by decide)
    · exact (h su hmem hnm).noZero hzero

namespace NamedRecord

variable {iso : Image} (R : NamedRecord iso)

/-- The fragments that the walk comes to, in its order. -/
def met : List Text := fragments (R.area.reached 0 ceMaxBytes)

/-- The record is that of a directory itself or its parent, or its own `NM` entries have the whole name, or
it has none, the identifier is the name in lower case, and so are the fragments that the walk comes to, if
there are any. -/
def Complete : Prop :=
  isSpecial R.bytes = true ∨
  (fragments R.area.own ≠ [] ∧ (fragments R.area.continued).flatten = []) ∨
  (fragments R.area.own = [] ∧ R.name ≠ [] ∧ isoName R.bytes = R.name ∧ (R.met = [] ∨ R.met.flatten = R.name))

theorem joinable : Joinable none R.area.inOrder where
  formed := R.formed
  ends := fun pre su post heq hnm hend => (R.flags pre su post heq hnm).mp hend
  alone := by
    intro su hsu hnm hdots
    have hone := R.alone su hsu hnm hdots
    refine ⟨?_, rfl, hone⟩
    obtain ⟨pre, post, heq⟩ := List.append_of_mem hsu
    rw [R.flags pre su post heq hnm]
    rw [heq, fragments_append, fragments_cons_nm hnm] at hone
    have hlen := congrArg List.length hone
    rw [List.length_append, List.length_cons, List.length_singleton] at hlen
    exact List.length_eq_zero_iff.mp (by omega)
  short := by simpa using R.short

theorem name_eq : R.name = (fragments R.area.own).flatten ++ (fragments R.area.continued).flatten := by
  unfold name
  rw [SuArea.inOrder_eq, fragments_append, List.flatten_append]

theorem joinable_own : Joinable none R.area.own := by
  have := R.joinable
  rw [SuArea.inOrder_eq] at this
  exact this.left

theorem rockRidgeName_eq : rockRidgeName iso R.bytes = joined none (fragments R.area.own) := by
  have hfits := R.fits
  have hlen := R.holds.length_le
  rw [List.length_drop, List.length_take, Nat.min_eq_left R.whole] at hlen
  have hlong := R.long
  unfold rockRidgeName
  rw [if_pos ⟨R.enabled, by omega, hfits⟩,
    rrName_entries R.whole R.holds rfl hfits (by omega) fun su hsu hnm => (R.joinable_own.formed su hsu hnm).version]
  exact (runEntries_fragments R.joinable_own).1

theorem recordName_special (h : isSpecial R.bytes = true) :
    isoDirRecordName iso R.bytes = some (if byteAt R.bytes 33 = 0 then [46] else [46, 46], false) := by
  have hlong := R.long
  have hspecial := of_decide_eq_true h
  unfold isoDirRecordName
  rw [if_neg (by omega)]
  split
  · rename_i hdot
    rw [if_pos hdot.2]
  · rename_i hdot
    rw [if_pos ⟨hspecial.1, hspecial.2.resolve_left fun hzero => hdot ⟨hspecial.1, hzero⟩⟩,
      if_neg fun hzero => hdot ⟨hspecial.1, hzero⟩]

/-- Any other record has the name of its own entries, or that of its identifier. -/
theorem recordName_plain (h : isSpecial R.bytes = false) : (isoDirRecordName iso R.bytes).map Prod.fst =
    if fragments R.area.own ≠ [] then some (fragments R.area.own).flatten
    else if isoName R.bytes = [] then none else some (isoName R.bytes) := by
  have hlong := R.long
  have hfits := R.fits
  have hsua : 33 + byteAt R.bytes 32 ≤ isoSuaOffset R.bytes := by
    unfold isoSuaOffset
    exact Nat.le_add_right _ _
  have hplain := of_decide_eq_false h
  unfold isoDirRecordName
  rw [if_neg (by omega), if_neg fun hdot => hplain ⟨hdot.1, Or.inl hdot.2⟩,
    if_neg fun hdot => hplain ⟨hdot.1, Or.inr hdot.2⟩, rockRidgeName_eq]
  unfold joined
  by_cases hown : fragments R.area.own = []
  · rw [if_pos hown, if_neg (not_not.mpr hown)]
    dsimp only []
    split
    · rename_i hempty
      exact (if_pos hempty).symm
    · rename_i hname
      exact (if_neg hname).symm
  · rw [if_neg hown, if_pos hown]
    simp [cText_of_noZero (fragments_noZero R.joinable_own.formed)]

theorem recordNameCe_eq : isoDirRecordNameCe iso R.bytes =
    if R.met = [] then isoDirRecordName iso R.bytes else some (R.met.flatten, true) := by
  have hctx : (walkRecordSu iso R.bytes rrNmVisit none).ctx = joined none R.met := by
    rw [R.toSuRecord.walk]
    exact run_fragments R.stored R.joinable
  have hzero : 0 ∉ R.met.flatten :=
    fragments_noZero fun su hsu => R.formed su ((reached_subperm R.area).subset hsu)
  unfold isoDirRecordNameCe
  rw [hctx]
  unfold joined
  by_cases hmet : R.met = []
  · rw [if_pos hmet, if_pos hmet]
  · rw [if_neg hmet, if_neg hmet]
    simp [cText_of_noZero hzero]

/-- Entries of the record itself are always reached. -/
theorem met_of_own {a : SuArea} {depth budget : Nat} (h : (fragments a.continued).flatten = []) :
    (fragments (a.reached depth budget)).flatten = (fragments a.own).flatten := by
  cases a with
  | last es => rfl
  | more pre ce next post =>
      have hnil : (fragments (next.reached (depth + 1) (budget - u32At ce 20))).flatten = [] := by
        have := @reached_length next (depth + 1) (budget - u32At ce 20)
        rw [show (fragments next.inOrder).flatten = [] from h, List.length_nil] at this
        exact List.length_eq_zero_iff.mp (Nat.le_zero.mp this)
      rw [SuArea.reached, SuArea.own, show ce :: post = [ce] ++ post from rfl, ← List.singleton_append]
      simp only [fragments_append, List.flatten_append]
      split
      · rw [hnil, List.nil_append]
      · rw [show (fragments []).flatten = [] from rfl, List.nil_append]

end NamedRecord

/-- The lookup and the listing have the whole name, as `iso_dir_record_name_ce` does, exactly if the
continuation areas add nothing to it. -/
theorem names_complete_iff {iso : Image} (R : NamedRecord iso) :
    ((isoDirRecordName iso R.bytes).map Prod.fst = some R.name ∧
      (isoDirRecordNameCe iso R.bytes).map Prod.fst = some R.name) ↔ R.Complete := by
  rw [R.recordNameCe_eq]
  unfold NamedRecord.Complete
  cases hspecial : isSpecial R.bytes with
  | true =>
      have hname : R.name = if byteAt R.bytes 33 = 0 then [46] else [46, 46] := by
        unfold NamedRecord.name
        rw [R.special hspecial, List.flatten_singleton]
      have hrecord : (isoDirRecordName iso R.bytes).map Prod.fst = some R.name := by
        rw [R.recordName_special hspecial, hname]
        rfl
      refine iff_of_true ⟨hrecord, ?_⟩ (Or.inl rfl)
      by_cases hmet : R.met = []
      · rw [if_pos hmet]
        exact hrecord
      · -- the only fragment is the one that is met
        have hsub := @reached_fragments R.area 0 ceMaxBytes
        rw [R.special hspecial, List.subperm_singleton_iff] at hsub
        have hone : R.met = [if byteAt R.bytes 33 = 0 then [46] else [46, 46]] := hsub.resolve_left hmet
        rw [if_neg hmet, hname, hone, List.flatten_singleton]
        rfl
  | false =>
      have hplain := R.recordName_plain hspecial
      constructor
      · rintro ⟨hrecord, hce⟩
        rw [hplain] at hrecord
        by_cases hown : fragments R.area.own = []
        · rw [if_neg (not_not.mpr hown)] at hrecord
          split at hrecord
          · cases hrecord
          · rename_i hne
            have hiso := Option.some.inj hrecord
            refine Or.inr (Or.inr ⟨hown, hiso ▸ hne, hiso, ?_⟩)
            by_cases hmet : R.met = []
            · exact Or.inl hmet
            · rw [if_neg hmet] at hce
              exact Or.inr (Option.some.inj hce)
        · rw [if_pos hown, R.name_eq] at hrecord
          have := congrArg List.length (Option.some.inj hrecord)
          rw [List.length_append] at this
          exact Or.inr (Or.inl ⟨hown, List.length_eq_zero_iff.mp (by omega)⟩)
      · rintro (h | ⟨hown, hcont⟩ | ⟨hown, hne, hiso, hmet⟩)
        · cases h
        · have hname : R.name = (fragments R.area.own).flatten := by rw [R.name_eq, hcont, List.append_nil]
          have hrecord : (isoDirRecordName iso R.bytes).map Prod.fst = some R.name := by
            rw [hplain, if_pos hown, hname]
          refine ⟨hrecord, ?_⟩
          split
          · exact hrecord
          · rw [hname]
            exact congrArg some (NamedRecord.met_of_own hcont)
        · have hrecord : (isoDirRecordName iso R.bytes).map Prod.fst = some R.name := by
            rw [hplain, if_neg (not_not.mpr hown), if_neg (hiso ▸ hne), hiso]
          refine ⟨hrecord, ?_⟩
          rcases hmet with hmet | hmet
          · rw [if_pos hmet]
            exact hrecord
          · split
            · exact hrecord
            · exact congrArg some hmet

/-! ## A name in two areas -/

/-- An `NM` entry with one byte of a name. -/
def nmEntry (flags c : UInt8) : List UInt8 := [78, 77, 6, 1, flags, c]

def splitIso : Image := imageOf 7 (nmEntry 0 98) (by decide)

/-- The record of the file `ab`: the first letter stands in the record and the second in a continuation. -/
def splitName : NamedRecord splitIso where
  bytes := fileRecord (nmEntry 1 97 ++ ceEntry 7 6)
  area := .more [nmEntry 1 97] (ceEntry 7 6) (.last [nmEntry 0 98]) []
  enabled := rfl
  whole := by decide
  long := by decide
  fits := by decide
  holds := by
    have hbytes : ((fileRecord (nmEntry 1 97 ++ ceEntry 7 6)).take (recLen (fileRecord (nmEntry 1 97 ++ ceEntry 7 6)))).drop
        (isoSuaOffset (fileRecord (nmEntry 1 97 ++ ceEntry 7 6)) + splitIso.suspSkip) =
          nmEntry 1 97 ++ (ceEntry 7 6 ++ []) := by decide
    rw [hbytes]
    apply Area.entry (by decide) (by decide)
    exact Area.entry (by decide) (by decide) (Area.blank (by decide))
  stored := by
    have hread : rrReadBytes splitIso 7 0 6 = some (nmEntry 0 98) :=
      @rrReadBytes_imageOf 7 (nmEntry 0 98) (by decide) (by decide)
    have hbuf : Area (nmEntry 0 98 ++ []) [nmEntry 0 98] :=
      Area.entry (by decide) (by decide) (Area.blank (by decide))
    have hfields : u32At (ceEntry 7 6) 4 = 7 ∧ u32At (ceEntry 7 6) 12 = 0 ∧ u32At (ceEntry 7 6) 20 = 6 := by decide
    rw [← hfields.1, ← hfields.2.1, ← hfields.2.2] at hread
    exact Stored.more (by decide) (by decide) (by decide) hread hbuf (Stored.last (by decide))
  named := by decide
  formed := by
    intro su hsu hnm
    rcases List.mem_cons.mp hsu with rfl | hsu
    · exact ⟨by decide, by decide, by decide⟩
    · rcases List.mem_cons.mp hsu with rfl | hsu
      · exact absurd hnm (by decide)
      · obtain rfl := List.mem_singleton.mp hsu
        exact ⟨by decide, by decide, by decide⟩
  flags := by
    intro pre su post heq hnm
    rcases pre with _ | ⟨a, _ | ⟨b, _ | ⟨c, pre⟩⟩⟩
    · obtain ⟨rfl, rfl⟩ := List.cons.inj heq
      decide
    · obtain ⟨rfl, rfl⟩ := List.cons.inj (List.cons.inj heq).2
      exact absurd hnm (by decide)
    · obtain ⟨rfl, rfl⟩ := List.cons.inj (List.cons.inj (List.cons.inj heq).2).2
      decide
    · have hlen := congrArg List.length heq
      simp [SuArea.inOrder] at hlen
  alone := by decide
  special := by decide
  short := by decide

/-- The lookup finds the file under the name `a`. -/
theorem name_cut_short : ¬ ∀ (iso : Image) (R : NamedRecord iso),
    (isoDirRecordName iso R.bytes).map Prod.fst = some R.name ∧
      (isoDirRecordNameCe iso R.bytes).map Prod.fst = some R.name := by
  intro h
  have hrecord := splitName.recordName_plain (by decide)
  rw [(h splitIso splitName).1] at hrecord
  exact absurd hrecord (by decide)

end Guppy.Iso
