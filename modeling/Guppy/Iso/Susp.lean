import Guppy.Iso.Dir

set_option autoImplicit false

/-! # Walking system use entries

`rr_walk_su_area` of `src/iso9660_walk.c` goes through the system use entries of an area and calls a
visitor on each; at a `CE` entry it first goes through the continuation area. A visitor that answers
`false` has found enough. `walkToStop` is the walk that ends there. The code's walk only ends the area
that it is in: its caller goes on behind the `CE` entry (`walkRecordSu_stops_iff`).
-/

namespace Guppy.Iso

open Vfs

/-! ## The code -/

/-- `RR_CE_MAX_DEPTH` -/
def ceMaxDepth : Nat := 8

/-- `RR_CE_MAX_BYTES` -/
def ceMaxBytes : Nat := 1024 * 1024

/-- A sector has something left at every offset. -/
theorem sub_take_lt (abs : Nat) {left : Nat} (h : ¬ left = 0) :
    left - (if left < sectorSize - abs % sectorSize then left else sectorSize - abs % sectorSize) < left := by
  have : abs % sectorSize < sectorSize := Nat.mod_lt _ (by decide)
  split <;> omega

/-- The loop of `rr_read_bytes`. -/
def rrReadLoop (iso : Image) (abs left : Nat) : Option (List UInt8) :=
  if h : left = 0 then some []
  else
    let off := abs % sectorSize
    let take := if left < sectorSize - off then left else sectorSize - off
    have : left - take < left := sub_take_lt abs h
    match iso.read (UInt32.ofNat (abs / sectorSize)) with
    | none => none
    | some sec => (rrReadLoop iso (abs + take) (left - take)).map ((sec.drop off).take take ++ ·)
  termination_by left
  decreasing_by exact this

/-- `rr_read_bytes` -/
def rrReadBytes (iso : Image) (block offset length : Nat) : Option (List UInt8) := rrReadLoop iso (block * sectorSize + offset) length

/-- The entry at the start of what is left of an area, and the rest behind it. -/
def nextEntry (area : List UInt8) : Option (List UInt8 × List UInt8) :=
  if area.length < 4 then none
  else
    let slen := byteAt area 2
    if slen < 4 ∨ area.length < slen then none else some (area.take slen, area.drop slen)

def isCe (su : List UInt8) : Bool := byteAt su 0 = 67 ∧ byteAt su 1 = 69 ∧ byteAt su 3 = 1 ∧ 28 ≤ su.length

def isSt (su : List UInt8) : Bool := byteAt su 0 = 83 ∧ byteAt su 1 = 84

/-- The continuation area of an entry: whether there is one to go through, and its bytes, if they can be
read. -/
def continuation (iso : Image) (depth budget : Nat) (su : List UInt8) : Option (Option (List UInt8)) :=
  let length := u32At su 20
  if isCe su = true ∧ length ≠ 0 ∧ length ≤ budget ∧ depth < ceMaxDepth then
    some (rrReadBytes iso (u32At su 4) (u32At su 12) length)
  else none

/-- `rr_su_visit_fn`, with its context: whether to go on, and the new context. -/
abbrev Visit (σ : Type) := σ → List UInt8 → Bool × σ

/-- What a walk returns, what is left of its budget, the context, and the entries visited with the
visitor's answers. -/
structure Walk (σ : Type) where
  ok : Bool
  budget : Nat
  ctx : σ
  visits : List (List UInt8 × Bool)

variable {σ : Type}

theorem nextEntry_shorter {area su rest : List UInt8} (h : nextEntry area = some (su, rest)) : rest.length < area.length := by
  unfold nextEntry at h
  split at h
  · cases h
  · dsimp only [] at h
    split at h
    · cases h
    · cases h
      rw [List.length_drop]
      omega

theorem continuation_depth {iso : Image} {depth budget : Nat} {su : List UInt8} {c : Option (List UInt8)}
    (h : continuation iso depth budget su = some c) : isCe su = true ∧ depth < ceMaxDepth := by
  unfold continuation at h
  dsimp only [] at h
  split at h
  · rename_i hc
    exact ⟨hc.1, hc.2.2.2⟩
  · cases h

/-- `rr_walk_su_area` on what is left of an area. -/
def walkSuArea (iso : Image) (visit : Visit σ) (depth : Nat) (area : List UInt8) (budget : Nat) (ctx : σ) : Walk σ :=
  match hnext : nextEntry area with
  | none => ⟨true, budget, ctx, []⟩
  | some (su, rest) =>
      let v := visit ctx su
      if v.1 = false then ⟨true, budget, v.2, [(su, false)]⟩
      else
        let w : Walk σ :=
          match hcont : continuation iso depth budget su with
          | none => ⟨true, budget, v.2, []⟩
          | some none => ⟨false, budget, v.2, []⟩
          | some (some buf) => walkSuArea iso visit (depth + 1) buf (budget - buf.length) v.2
        if w.ok = false then ⟨false, w.budget, w.ctx, (su, true) :: w.visits⟩
        else if isSt su = true then ⟨true, w.budget, w.ctx, (su, true) :: w.visits⟩
        else
          let r := walkSuArea iso visit depth rest w.budget w.ctx
          ⟨r.ok, r.budget, r.ctx, (su, true) :: (w.visits ++ r.visits)⟩
  termination_by (ceMaxDepth - depth, area.length)
  decreasing_by
    · have := (continuation_depth hcont).2
      exact Prod.Lex.left _ _ (by omega)
    · exact Prod.Lex.right _ (nextEntry_shorter hnext)

/-- `rr_walk_record_su` -/
def walkRecordSu (iso : Image) (r : List UInt8) (visit : Visit σ) (ctx : σ) : Walk σ :=
  let pos := isoSuaOffset r + iso.suspSkip
  if iso.suspEnabled = false ∨ recLen r < 34 ∨ recLen r < isoSuaOffset r ∨ recLen r < pos then ⟨false, ceMaxBytes, ctx, []⟩
  else walkSuArea iso visit 0 ((r.take (recLen r)).drop pos) ceMaxBytes ctx

/-! ## The walk that stops -/

/-- How a walk ends: at its last entry, at the entry at which the visitor answers `false`, or because a
continuation area cannot be read. `more` says that an enclosing area has another entry. -/
inductive Ended
  | all
  | stopped (more : Bool)
  | failed
  deriving DecidableEq

structure Stop (σ : Type) where
  ended : Ended
  budget : Nat
  ctx : σ
  visits : List (List UInt8 × Bool)

/-- The walk that ends when the visitor answers `false`. -/
def walkToStop (iso : Image) (visit : Visit σ) (depth : Nat) (area : List UInt8) (budget : Nat) (ctx : σ) : Stop σ :=
  match hnext : nextEntry area with
  | none => ⟨.all, budget, ctx, []⟩
  | some (su, rest) =>
      let v := visit ctx su
      if v.1 = false then ⟨.stopped false, budget, v.2, [(su, false)]⟩
      else
        let w : Stop σ :=
          match hcont : continuation iso depth budget su with
          | none => ⟨.all, budget, v.2, []⟩
          | some none => ⟨.failed, budget, v.2, []⟩
          | some (some buf) => walkToStop iso visit (depth + 1) buf (budget - buf.length) v.2
        match w.ended with
        | .failed => ⟨.failed, w.budget, w.ctx, (su, true) :: w.visits⟩
        | .stopped more => ⟨.stopped (more || (nextEntry rest).isSome), w.budget, w.ctx, (su, true) :: w.visits⟩
        | .all =>
            if isSt su = true then ⟨.all, w.budget, w.ctx, (su, true) :: w.visits⟩
            else
              let r := walkToStop iso visit depth rest w.budget w.ctx
              ⟨r.ended, r.budget, r.ctx, (su, true) :: (w.visits ++ r.visits)⟩
  termination_by (ceMaxDepth - depth, area.length)
  decreasing_by
    · have := (continuation_depth hcont).2
      exact Prod.Lex.left _ _ (by omega)
    · exact Prod.Lex.right _ (nextEntry_shorter hnext)

def recordToStop (iso : Image) (r : List UInt8) (visit : Visit σ) (ctx : σ) : Stop σ :=
  let pos := isoSuaOffset r + iso.suspSkip
  if iso.suspEnabled = false ∨ recLen r < 34 ∨ recLen r < isoSuaOffset r ∨ recLen r < pos then ⟨.failed, ceMaxBytes, ctx, []⟩
  else walkToStop iso visit 0 ((r.take (recLen r)).drop pos) ceMaxBytes ctx

/-- No entry is visited once the visitor has answered `false`. -/
def StopsAtFalse (visits : List (List UInt8 × Bool)) : Prop :=
  ∀ before su after, visits = before ++ (su, false) :: after → after = []

/-! ## Comparing the walks -/

section

variable {iso : Image} {visit : Visit σ} {depth budget : Nat} {area su rest : List UInt8} {ctx : σ}

theorem not_isSt_of_continuation {c : Option (List UInt8)} (h : continuation iso depth budget su = some c) :
    isSt su = false := by
  have hce := (continuation_depth h).1
  unfold isCe at hce
  unfold isSt
  rw [decide_eq_true_iff] at hce
  rw [decide_eq_false_iff_not]
  omega

/-- The walk through the continuation area of an entry. -/
def nestedWalk (iso : Image) (visit : Visit σ) (depth budget : Nat) (su : List UInt8) (ctx : σ) : Walk σ :=
  match continuation iso depth budget su with
  | none => ⟨true, budget, ctx, []⟩
  | some none => ⟨false, budget, ctx, []⟩
  | some (some buf) => walkSuArea iso visit (depth + 1) buf (budget - buf.length) ctx

def nestedStop (iso : Image) (visit : Visit σ) (depth budget : Nat) (su : List UInt8) (ctx : σ) : Stop σ :=
  match continuation iso depth budget su with
  | none => ⟨.all, budget, ctx, []⟩
  | some none => ⟨.failed, budget, ctx, []⟩
  | some (some buf) => walkToStop iso visit (depth + 1) buf (budget - buf.length) ctx

theorem walkSuArea_end (h : nextEntry area = none) : walkSuArea iso visit depth area budget ctx = ⟨true, budget, ctx, []⟩ := by
  rw [walkSuArea]
  split
  · rfl
  · rename_i hsome
    rw [h] at hsome
    cases hsome

theorem walkSuArea_entry (h : nextEntry area = some (su, rest)) : walkSuArea iso visit depth area budget ctx =
    if (visit ctx su).1 = false then ⟨true, budget, (visit ctx su).2, [(su, false)]⟩
    else
      let w := nestedWalk iso visit depth budget su (visit ctx su).2
      if w.ok = false then ⟨false, w.budget, w.ctx, (su, true) :: w.visits⟩
      else if isSt su = true then ⟨true, w.budget, w.ctx, (su, true) :: w.visits⟩
      else
        let r := walkSuArea iso visit depth rest w.budget w.ctx
        ⟨r.ok, r.budget, r.ctx, (su, true) :: (w.visits ++ r.visits)⟩ := by
  rw [walkSuArea]
  split
  · rename_i hnone
    rw [h] at hnone
    cases hnone
  · rename_i su' rest' hsome
    obtain ⟨rfl, rfl⟩ := Prod.mk.inj (Option.some.inj (h.symm.trans hsome))
    unfold nestedWalk
    dsimp only []
    split
    · rfl
    · split <;> rename_i hcont <;> simp only [hcont]

theorem walkToStop_end (h : nextEntry area = none) : walkToStop iso visit depth area budget ctx = ⟨.all, budget, ctx, []⟩ := by
  rw [walkToStop]
  split
  · rfl
  · rename_i hsome
    rw [h] at hsome
    cases hsome

theorem walkToStop_entry (h : nextEntry area = some (su, rest)) : walkToStop iso visit depth area budget ctx =
    if (visit ctx su).1 = false then ⟨.stopped false, budget, (visit ctx su).2, [(su, false)]⟩
    else
      let w := nestedStop iso visit depth budget su (visit ctx su).2
      match w.ended with
      | .failed => ⟨.failed, w.budget, w.ctx, (su, true) :: w.visits⟩
      | .stopped more => ⟨.stopped (more || (nextEntry rest).isSome), w.budget, w.ctx, (su, true) :: w.visits⟩
      | .all =>
          if isSt su = true then ⟨.all, w.budget, w.ctx, (su, true) :: w.visits⟩
          else
            let r := walkToStop iso visit depth rest w.budget w.ctx
            ⟨r.ended, r.budget, r.ctx, (su, true) :: (w.visits ++ r.visits)⟩ := by
  rw [walkToStop]
  split
  · rename_i hnone
    rw [h] at hnone
    cases hnone
  · rename_i su' rest' hsome
    obtain ⟨rfl, rfl⟩ := Prod.mk.inj (Option.some.inj (h.symm.trans hsome))
    dsimp only []
    split
    · rfl
    · have hnested : (match hcont : continuation iso depth budget su with
          | none => (⟨.all, budget, (visit ctx su).2, []⟩ : Stop σ)
          | some none => ⟨.failed, budget, (visit ctx su).2, []⟩
          | some (some buf) => walkToStop iso visit (depth + 1) buf (budget - buf.length) (visit ctx su).2) =
          nestedStop iso visit depth budget su (visit ctx su).2 := by
        unfold nestedStop
        split <;> rename_i hcont <;> simp only [hcont]
      rw [hnested]

/-- A walk that has an entry visits it. -/
theorem walkSuArea_visits (h : nextEntry area = some (su, rest)) :
    ∃ v vs, (walkSuArea iso visit depth area budget ctx).visits = v :: vs := by
  rw [walkSuArea_entry h]
  dsimp only []
  split
  · exact ⟨_, _, rfl⟩
  · split
    · exact ⟨_, _, rfl⟩
    · split
      · exact ⟨_, _, rfl⟩
      · exact ⟨_, _, rfl⟩

/-- All answers in the list are to go on. -/
def AllOn (visits : List (List UInt8 × Bool)) : Prop := ∀ v ∈ visits, v.2 = true

/-- What the code's walk has to do with the one that stops. -/
inductive Follows : Walk σ → Stop σ → Prop
  | all {budget : Nat} {ctx : σ} {visits : List (List UInt8 × Bool)} (h : AllOn visits) :
      Follows ⟨true, budget, ctx, visits⟩ ⟨.all, budget, ctx, visits⟩
  | failed {budget : Nat} {ctx : σ} {visits : List (List UInt8 × Bool)} (h : AllOn visits) :
      Follows ⟨false, budget, ctx, visits⟩ ⟨.failed, budget, ctx, visits⟩
  | stopped {budget : Nat} {ctx : σ} {on : List (List UInt8 × Bool)} (su : List UInt8) (h : AllOn on) :
      Follows ⟨true, budget, ctx, on ++ [(su, false)]⟩ ⟨.stopped false, budget, ctx, on ++ [(su, false)]⟩
  | passed {w : Walk σ} {budget : Nat} {ctx : σ} {on : List (List UInt8 × Bool)} (su : List UInt8)
      (v : List UInt8 × Bool) (vs : List (List UInt8 × Bool)) (h : AllOn on) (hw : w.visits = on ++ (su, false) :: v :: vs) :
      Follows w ⟨.stopped true, budget, ctx, on ++ [(su, false)]⟩

theorem AllOn.cons {visits : List (List UInt8 × Bool)} (h : AllOn visits) (su : List UInt8) : AllOn ((su, true) :: visits) := by
  intro v hv
  rcases List.mem_cons.mp hv with rfl | hv
  · rfl
  · exact h v hv

theorem AllOn.append {a b : List (List UInt8 × Bool)} (ha : AllOn a) (hb : AllOn b) : AllOn (a ++ b) := by
  intro v hv
  rcases List.mem_append.mp hv with hv | hv
  · exact ha v hv
  · exact hb v hv

theorem allOn_nil : AllOn [] := fun _ h => absurd h List.not_mem_nil

theorem Follows.push {w : Walk σ} {r : Stop σ} {pre : List (List UInt8 × Bool)} (h : Follows w r) (hpre : AllOn pre) :
    Follows ⟨w.ok, w.budget, w.ctx, pre ++ w.visits⟩ ⟨r.ended, r.budget, r.ctx, pre ++ r.visits⟩ := by
  cases h with
  | all h => exact .all (hpre.append h)
  | failed h => exact .failed (hpre.append h)
  | stopped su h =>
      dsimp only []
      rw [← List.append_assoc]
      exact .stopped su (hpre.append h)
  | passed su v vs h hw =>
      dsimp only []
      rw [hw, ← List.append_assoc, ← List.append_assoc]
      exact .passed su v vs (hpre.append h) rfl

theorem nestedWalk_follows (h : ∀ buf, continuation iso depth budget su = some (some buf) →
      Follows (walkSuArea iso visit (depth + 1) buf (budget - buf.length) ctx)
        (walkToStop iso visit (depth + 1) buf (budget - buf.length) ctx)) :
    Follows (nestedWalk iso visit depth budget su ctx) (nestedStop iso visit depth budget su ctx) := by
  unfold nestedWalk nestedStop
  cases hc : continuation iso depth budget su with
  | none => exact .all allOn_nil
  | some area =>
      cases area with
      | none => exact .failed allOn_nil
      | some buf => exact h buf hc

theorem nestedStop_none (h : continuation iso depth budget su = none) :
    (nestedStop iso visit depth budget su ctx).ended = .all := by
  unfold nestedStop
  rw [h]

/-- The two walks agree up to the first `false`. -/
theorem walkSuArea_follows (d n : Nat) : ∀ {depth : Nat} {area : List UInt8} {budget : Nat} {ctx : σ},
    ceMaxDepth - depth = d → area.length = n →
    Follows (walkSuArea iso visit depth area budget ctx) (walkToStop iso visit depth area budget ctx) := by
  induction d using Nat.strong_induction_on generalizing n with
  | _ d ihd =>
      induction n using Nat.strong_induction_on with
      | _ n ihn =>
          intro depth area budget ctx hd hn
          cases hnext : nextEntry area with
          | none =>
              rw [walkSuArea_end hnext, walkToStop_end hnext]
              exact .all allOn_nil
          | some entry =>
              obtain ⟨su, rest⟩ := entry
              rw [walkSuArea_entry hnext, walkToStop_entry hnext]
              by_cases hv : (visit ctx su).1 = false
              · rw [if_pos hv, if_pos hv]
                exact @Follows.stopped _ _ _ [] su allOn_nil
              · rw [if_neg hv, if_neg hv]
                dsimp only []
                have hrest : ∀ {budget : Nat} {ctx : σ},
                    Follows (walkSuArea iso visit depth rest budget ctx) (walkToStop iso visit depth rest budget ctx) :=
                  ihn _ (hn ▸ nextEntry_shorter hnext) hd rfl
                have hnested : Follows (nestedWalk iso visit depth budget su (visit ctx su).2)
                    (nestedStop iso visit depth budget su (visit ctx su).2) := by
                  refine nestedWalk_follows fun buf hbuf => ?_
                  have := (continuation_depth hbuf).2
                  exact ihd _ (show ceMaxDepth - (depth + 1) < d by omega) _ rfl rfl
                have hst : (nestedStop iso visit depth budget su (visit ctx su).2).ended ≠ .all → isSt su = false := by
                  intro hended
                  cases hc : continuation iso depth budget su with
                  | none => exact absurd (nestedStop_none hc) hended
                  | some c => exact not_isSt_of_continuation hc
                revert hnested hst
                generalize nestedWalk iso visit depth budget su (visit ctx su).2 = w
                generalize nestedStop iso visit depth budget su (visit ctx su).2 = r
                intro hnested hst
                cases hnested with
                | @all b c visits h =>
                    dsimp only []
                    rw [if_neg Bool.noConfusion]
                    split
                    · exact .all (h.cons su)
                    · exact (@hrest b c).push (h.cons su)
                | failed h => exact .failed (h.cons su)
                | @stopped b c on su' h =>
                    -- the continuation area is left, and this one goes on
                    dsimp only []
                    rw [if_neg Bool.noConfusion, hst Ended.noConfusion, if_neg Bool.noConfusion]
                    cases hmore : nextEntry rest with
                    | none =>
                        rw [walkSuArea_end hmore, List.append_nil]
                        exact @Follows.stopped _ _ _ ((su, true) :: on) su' (h.cons su)
                    | some entry =>
                        obtain ⟨v, vs, hvisits⟩ := @walkSuArea_visits _ iso visit depth b rest _ _ c hmore
                        refine @Follows.passed _ _ _ _ ((su, true) :: on) su' v vs (h.cons su) ?_
                        show (su, true) :: (on ++ [(su', false)] ++ _) = _
                        rw [hvisits, List.append_assoc]
                        rfl
                | @passed w b c on su' v vs h hw =>
                    dsimp only []
                    rw [hst Ended.noConfusion]
                    split
                    · refine @Follows.passed _ _ _ _ ((su, true) :: on) su' v vs (h.cons su) ?_
                      show (su, true) :: w.visits = _
                      rw [hw]
                      rfl
                    · rw [if_neg Bool.noConfusion]
                      refine @Follows.passed _ _ _ _ ((su, true) :: on) su' v
                        (vs ++ (walkSuArea iso visit depth rest w.budget w.ctx).visits) (h.cons su) ?_
                      show (su, true) :: (w.visits ++ _) = _
                      rw [hw, List.append_assoc]
                      rfl

end

/-! ## Stopping -/

theorem Follows.stops_iff {w : Walk σ} {r : Stop σ} (h : Follows w r) :
    (StopsAtFalse w.visits ↔ r.ended ≠ .stopped true) ∧
      (r.ended ≠ .stopped true → w.visits = r.visits ∧ w.ctx = r.ctx) := by
  have hon : ∀ {visits : List (List UInt8 × Bool)}, AllOn visits → StopsAtFalse visits := by
    intro visits h before su after heq
    have hmem : (su, false) ∈ visits := by
      rw [heq]
      exact List.mem_append_right _ (List.mem_cons_self ..)
    cases h _ hmem
  cases h with
  | all h => exact ⟨iff_of_true (hon h) Ended.noConfusion, fun _ => ⟨rfl, rfl⟩⟩
  | failed h => exact ⟨iff_of_true (hon h) Ended.noConfusion, fun _ => ⟨rfl, rfl⟩⟩
  | @stopped b c on su h =>
      refine ⟨iff_of_true ?_ (by simp), fun _ => ⟨rfl, rfl⟩⟩
      intro before su' after heq
      -- the only `false` is the last answer
      rcases List.append_eq_append_iff.mp heq with ⟨l, hbefore, hrest⟩ | ⟨l, hl, hrest⟩
      · cases l with
        | nil => exact (List.cons.inj hrest).2.symm
        | cons x l =>
            have hlen := congrArg List.length hrest
            simp at hlen
      · cases l with
        | nil => exact (List.cons.inj hrest).2
        | cons x l =>
            have hx : x = (su', false) := (List.cons.inj hrest).1.symm
            have hmem : (su', false) ∈ on := by
              rw [hl, hx]
              exact List.mem_append_right _ (List.mem_cons_self ..)
            cases h _ hmem
  | passed su v vs h hw =>
      refine ⟨iff_of_false (fun hstops => ?_) (fun hne => hne rfl), fun hne => absurd rfl hne⟩
      exact List.cons_ne_nil _ _ (hstops _ _ _ hw)

/-- No entry is visited once the visitor has answered `false`, and the walk has then the result of the one
that stops, exactly if the visitor does not do so in a continuation area whose record or enclosing area
goes on behind its `CE` entry. -/
theorem walkRecordSu_stops_iff (iso : Image) (r : List UInt8) (visit : Visit σ) (ctx : σ) :
    (StopsAtFalse (walkRecordSu iso r visit ctx).visits ↔ (recordToStop iso r visit ctx).ended ≠ .stopped true) ∧
    ((recordToStop iso r visit ctx).ended ≠ .stopped true →
      (walkRecordSu iso r visit ctx).visits = (recordToStop iso r visit ctx).visits ∧
      (walkRecordSu iso r visit ctx).ctx = (recordToStop iso r visit ctx).ctx) := by
  have hfollows : Follows (walkRecordSu iso r visit ctx) (recordToStop iso r visit ctx) := by
    unfold walkRecordSu recordToStop
    dsimp only []
    split
    · exact .failed allOn_nil
    · exact walkSuArea_follows _ _ rfl rfl
  exact hfollows.stops_iff

/-! ## Attributes -/

/-- `iso_rr_px_t` -/
structure Px where
  mode : Nat
  nlink : Nat
  uid : Nat
  gid : Nat
  deriving DecidableEq

/-- `rr_px_visit` -/
def rrPxVisit : Visit (Option Px) := fun px su =>
  if byteAt su 0 = 80 ∧ byteAt su 1 = 88 ∧ byteAt su 3 = 1 ∧ 36 ≤ su.length then
    (false, some ⟨u32At su 4, u32At su 12, u32At su 20, u32At su 28⟩)
  else (true, px)

/-- `iso_dir_record_px_ce` -/
def isoDirRecordPxCe (iso : Image) (r : List UInt8) : Option Px := (walkRecordSu iso r rrPxVisit none).ctx

/-- A number in both byte orders. -/
def both32 (n : UInt8) : List UInt8 := [n, 0, 0, 0, 0, 0, 0, n]

def pxEntry (mode : UInt8) : List UInt8 := [80, 88, 36, 1] ++ both32 mode ++ both32 1 ++ both32 0 ++ both32 0

/-- An entry that continues at the start of a sector. -/
def ceEntry (block length : UInt8) : List UInt8 := [67, 69, 28, 1] ++ both32 block ++ both32 0 ++ both32 length

theorem ceEntry_fields (block length : UInt8) : u32At (ceEntry block length) 4 = block.toNat ∧
    u32At (ceEntry block length) 12 = 0 ∧ u32At (ceEntry block length) 20 = length.toNat := by
  have hnumber : ∀ n : UInt8, n.toNat + 256 * 0 + 65536 * 0 + 16777216 * 0 = n.toNat := fun n => by omega
  exact ⟨hnumber block, rfl, hnumber length⟩

/-- A record for the file `A` with these system use entries. -/
def fileRecord (area : List UInt8) : List UInt8 :=
  [UInt8.ofNat (34 + area.length)] ++ List.replicate 31 0 ++ [1, 65] ++ area

/-- An image with these bytes at the start of one of its sectors. -/
def imageOf (block : UInt32) (bytes : List UInt8) (h : bytes.length ≤ sectorSize) : Image where
  read := fun lba => if lba = block then some (bytes ++ List.replicate (sectorSize - bytes.length) 0) else none
  suspEnabled := true
  suspSkip := 0
  size := by
    intro lba s hs
    split at hs
    · cases hs
      rw [List.length_append, List.length_replicate]
      omega
    · cases hs

/-- Reading from the start of a sector. -/
theorem rrReadBytes_start {iso : Image} {block : Nat} {bytes pad : List UInt8}
    (h : iso.read (UInt32.ofNat block) = some (bytes ++ pad)) (hne : bytes ≠ []) :
    rrReadBytes iso block 0 bytes.length = some bytes := by
  have hpos : 0 < bytes.length := List.length_pos_of_ne_nil hne
  have hsize := iso.size h
  rw [List.length_append] at hsize
  have hoff : (block * sectorSize + 0) % sectorSize = 0 := by rw [Nat.add_zero, Nat.mul_mod_left]
  have hlba : (block * sectorSize + 0) / sectorSize = block := by
    rw [Nat.add_zero, Nat.mul_div_cancel _ (by decide)]
  have htake : (if bytes.length < sectorSize - 0 then bytes.length else sectorSize - 0) = bytes.length := by
    split <;> omega
  unfold rrReadBytes
  rw [rrReadLoop, dif_neg (by omega)]
  dsimp only []
  rw [hoff, hlba, htake, h]
  dsimp only []
  rw [Nat.sub_self, rrReadLoop, dif_pos rfl, List.drop_zero, List.take_left, Option.map_some, List.append_nil]

theorem rrReadBytes_imageOf {block : UInt32} {bytes : List UInt8} (h : bytes.length ≤ sectorSize) (hne : bytes ≠ []) :
    rrReadBytes (imageOf block bytes h) block.toNat 0 bytes.length = some bytes := by
  apply rrReadBytes_start _ hne
  · exact List.replicate (sectorSize - bytes.length) 0
  · unfold imageOf
    dsimp only []
    rw [UInt32.ofNat_toNat, if_pos rfl]

/-- An image with attributes in a continuation area, and a record that has others behind its `CE` entry. -/
def attributesIso : Image := imageOf 7 (pxEntry 1) (by decide)

def attributesRecord : List UInt8 := fileRecord (ceEntry 7 36 ++ pxEntry 2)

theorem attributes_walked : walkRecordSu attributesIso attributesRecord rrPxVisit none =
    ⟨true, ceMaxBytes - 36, some ⟨2, 1, 0, 0⟩, [(ceEntry 7 36, true), (pxEntry 1, false), (pxEntry 2, false)]⟩ ∧
    (recordToStop attributesIso attributesRecord rrPxVisit none).ctx = some ⟨1, 1, 0, 0⟩ := by
  have harea : (attributesRecord.take (recLen attributesRecord)).drop (isoSuaOffset attributesRecord + attributesIso.suspSkip) =
      ceEntry 7 36 ++ pxEntry 2 := by decide
  have hfits : ¬ (attributesIso.suspEnabled = false ∨ recLen attributesRecord < 34 ∨
      recLen attributesRecord < isoSuaOffset attributesRecord ∨
      recLen attributesRecord < isoSuaOffset attributesRecord + attributesIso.suspSkip) := by decide
  have hce : nextEntry (ceEntry 7 36 ++ pxEntry 2) = some (ceEntry 7 36, pxEntry 2) := by decide
  have hpx : ∀ n ∈ [(1 : UInt8), 2], nextEntry (pxEntry n) = some (pxEntry n, []) :=
    forall_mem_of_all (by decide)
  have hvisit : rrPxVisit none (ceEntry 7 36) = (true, none) := by decide
  have hfound : ∀ px, rrPxVisit px (pxEntry 1) = (false, some ⟨1, 1, 0, 0⟩) ∧
      rrPxVisit px (pxEntry 2) = (false, some ⟨2, 1, 0, 0⟩) := fun _ => ⟨rfl, rfl⟩
  have hcont : continuation attributesIso 0 ceMaxBytes (ceEntry 7 36) = some (some (pxEntry 1)) := by
    have hfields : u32At (ceEntry 7 36) 4 = 7 ∧ u32At (ceEntry 7 36) 12 = 0 ∧ u32At (ceEntry 7 36) 20 = 36 := by decide
    have hread : rrReadBytes attributesIso 7 0 36 = some (pxEntry 1) :=
      @rrReadBytes_imageOf 7 (pxEntry 1) (by decide) (by decide)
    unfold continuation
    dsimp only []
    rw [hfields.1, hfields.2.1, hfields.2.2, if_pos (by decide), hread]
  have hst : isSt (ceEntry 7 36) = false := by decide
  have hlen : (pxEntry 1).length = 36 := by decide
  constructor
  · have hnested : nestedWalk attributesIso rrPxVisit 0 ceMaxBytes (ceEntry 7 36) none =
        ⟨true, ceMaxBytes - 36, some ⟨1, 1, 0, 0⟩, [(pxEntry 1, false)]⟩ := by
      unfold nestedWalk
      rw [hcont]
      dsimp only []
      rw [hlen, walkSuArea_entry (hpx 1 (by decide)), (hfound none).1]
      rfl
    unfold walkRecordSu
    dsimp only []
    rw [if_neg hfits, harea, walkSuArea_entry hce, hvisit]
    dsimp only []
    rw [if_neg Bool.noConfusion, hnested]
    dsimp only []
    rw [if_neg Bool.noConfusion, hst, if_neg Bool.noConfusion, walkSuArea_entry (hpx 2 (by decide)), (hfound _).2]
    rfl
  · have hnested : nestedStop attributesIso rrPxVisit 0 ceMaxBytes (ceEntry 7 36) none =
        ⟨.stopped false, ceMaxBytes - 36, some ⟨1, 1, 0, 0⟩, [(pxEntry 1, false)]⟩ := by
      unfold nestedStop
      rw [hcont]
      dsimp only []
      rw [hlen, walkToStop_entry (hpx 1 (by decide)), (hfound none).1]
      rfl
    unfold recordToStop
    dsimp only []
    rw [if_neg hfits, harea, walkToStop_entry hce, hvisit]
    dsimp only []
    rw [if_neg Bool.noConfusion, hnested]

/-- The attributes in the continuation area are found, and then replaced by those behind its `CE` entry. -/
theorem later_attributes_taken : ¬ StopsAtFalse (walkRecordSu attributesIso attributesRecord rrPxVisit none).visits ∧
    isoDirRecordPxCe attributesIso attributesRecord = some ⟨2, 1, 0, 0⟩ ∧
      (recordToStop attributesIso attributesRecord rrPxVisit none).ctx = some ⟨1, 1, 0, 0⟩ := by
  obtain ⟨hwalk, hstop⟩ := attributes_walked
  refine ⟨fun hstops => ?_, ?_, hstop⟩
  · rw [hwalk] at hstops
    exact List.cons_ne_nil _ _ (hstops [(ceEntry 7 36, true)] (pxEntry 1) [(pxEntry 2, false)] rfl)
  · unfold isoDirRecordPxCe
    rw [hwalk]

end Guppy.Iso
