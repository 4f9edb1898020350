import Guppy.Iso.Susp

set_option autoImplicit false

/-! # System use areas with their continuations

A system use area holds entries, and at most one of them, a `CE` entry, says where the area goes on. In
the order of the format the continuation comes behind all entries of the area (`SuArea.inOrder`). The
code's walk comes to it at the `CE` entry, and leaves out what is too deep or too long
(`SuArea.reached`). `walkSuArea_run` gives the walk in terms of the entries.
-/

namespace Guppy.Iso

/-- The entries of an area: all of them, or those before and behind its `CE` entry with that entry and the
area that it leads to. -/
inductive SuArea
  | last (es : List (List UInt8))
  | more (pre : List (List UInt8)) (ce : List UInt8) (next : SuArea) (post : List (List UInt8))

namespace SuArea

/-- The entries that stand in the area itself. -/
def own : SuArea → List (List UInt8)
  | last es => es
  | more pre ce _ post => pre ++ ce :: post

/-- All entries, each area before the one that continues it. -/
def inOrder : SuArea → List (List UInt8)
  | last es => es
  | more pre ce next post => pre ++ ce :: post ++ next.inOrder

/-- The continuation areas' entries. -/
def continued : SuArea → List (List UInt8)
  | last _ => []
  | more _ _ next _ => next.inOrder

/-- The continuation that a `CE` entry leads to is gone through. -/
def Followed (depth budget : Nat) (ce : List UInt8) : Prop := depth < ceMaxDepth ∧ u32At ce 20 ≤ budget

instance (depth budget : Nat) (ce : List UInt8) : Decidable (Followed depth budget ce) := by
  unfold Followed
  infer_instance

/-- The entries in the order of the walk. -/
def reached (depth budget : Nat) : SuArea → List (List UInt8)
  | last es => es
  | more pre ce next post =>
      pre ++ ce :: ((if Followed depth budget ce then reached (depth + 1) (budget - u32At ce 20) next else []) ++ post)

theorem inOrder_eq (a : SuArea) : a.inOrder = a.own ++ a.continued := by
  cases a with
  | last es => exact (List.append_nil es).symm
  | more pre ce next post => rfl

end SuArea

/-! ## Areas as bytes -/

/-- An entry has its length in its third byte. -/
def IsEntry (su : List UInt8) : Prop := 4 ≤ su.length ∧ byteAt su 2 = su.length

instance (su : List UInt8) : Decidable (IsEntry su) := by
  unfold IsEntry
  infer_instance

/-- The bytes of an area with these entries: a terminator is the last one, and no entry starts in what is
left behind them. -/
inductive Area : List UInt8 → List (List UInt8) → Prop
  | blank {pad : List UInt8} (h : nextEntry pad = none) : Area pad []
  | entry {su rest : List UInt8} {es : List (List UInt8)} (hsu : IsEntry su) (hst : isSt su = true → es = [])
      (h : Area rest es) : Area (su ++ rest) (su :: es)

def NoCe (es : List (List UInt8)) : Prop := ∀ su ∈ es, isCe su = false

instance (es : List (List UInt8)) : Decidable (NoCe es) := by
  unfold NoCe
  infer_instance

/-- The continuation areas can be read from the image. -/
inductive Stored (iso : Image) : SuArea → Prop
  | last {es : List (List UInt8)} (h : NoCe es) : Stored iso (.last es)
  | more {pre post : List (List UInt8)} {ce buf : List UInt8} {next : SuArea} (hpre : NoCe pre) (hce : isCe ce = true)
      (hpost : NoCe post) (hread : rrReadBytes iso (u32At ce 4) (u32At ce 12) (u32At ce 20) = some buf)
      (hbuf : Area buf next.own) (hnext : Stored iso next) : Stored iso (.more pre ce next post)

theorem byteAt_append {su rest : List UInt8} {i : Nat} (h : i < su.length) : byteAt (su ++ rest) i = byteAt su i := by
  unfold byteAt
  rw [List.getD_eq_getElem?_getD, List.getD_eq_getElem?_getD, List.getElem?_append_left h]

theorem IsEntry.next {su : List UInt8} (h : IsEntry su) (rest : List UInt8) : nextEntry (su ++ rest) = some (su, rest) := by
  obtain ⟨hlen, hbyte⟩ := h
  have hslen : byteAt (su ++ rest) 2 = su.length := by
    rw [byteAt_append (by omega)]
    exact hbyte
  unfold nextEntry
  rw [if_neg (by rw [List.length_append]; omega)]
  dsimp only []
  rw [hslen, if_neg (by rw [List.length_append]; omega), List.take_left, List.drop_left]

theorem Area.nil_blank {bytes : List UInt8} (h : Area bytes []) : nextEntry bytes = none := by
  cases h with
  | blank h => exact h

theorem Area.of_nil {es : List (List UInt8)} (h : Area [] es) : es = [] := by
  generalize hb : ([] : List UInt8) = bytes at h
  cases h with
  | blank _ => rfl
  | entry hsu hst h =>
      have := hsu.1
      have := congrArg List.length hb
      rw [List.length_append, List.length_nil] at this
      omega

theorem NoCe.head {su : List UInt8} {es : List (List UInt8)} (h : NoCe (su :: es)) : isCe su = false :=
  h su (List.mem_cons_self ..)

theorem NoCe.tail {su : List UInt8} {es : List (List UInt8)} (h : NoCe (su :: es)) : NoCe es :=
  fun e he => h e (List.mem_cons_of_mem _ he)

/-- An area without entries has no continuation. -/
theorem SuArea.of_own_nil {a : SuArea} (h : a.own = []) : a = .last [] := by
  cases a with
  | last es => exact congrArg SuArea.last h
  | more pre ce next post => exact absurd h (List.append_ne_nil_of_right_ne_nil _ (List.cons_ne_nil _ _))

theorem rrReadLoop_length {iso : Image} (left : Nat) : ∀ {abs : Nat} {buf : List UInt8},
    rrReadLoop iso abs left = some buf → buf.length = left := by
  induction left using Nat.strong_induction_on with
  | _ left ih =>
      intro abs buf h
      rw [rrReadLoop] at h
      split at h
      · rename_i hzero
        cases h
        rw [hzero, List.length_nil]
      · rename_i hpos
        dsimp only [] at h
        split at h
        · cases h
        · rename_i sec hsec
          obtain ⟨more, hmore, rfl⟩ := Option.map_eq_some_iff.mp h
          have hoff : abs % sectorSize < sectorSize := Nat.mod_lt _ (by decide)
          have hsize := iso.size hsec
          have hlen := ih _ (by split <;> omega) hmore
          rw [List.length_append, List.length_take, List.length_drop, hlen, hsize]
          split <;> omega

theorem rrReadBytes_length {iso : Image} {block offset length : Nat} {buf : List UInt8}
    (h : rrReadBytes iso block offset length = some buf) : buf.length = length := rrReadLoop_length _ h

/-! ## The walk in terms of the entries -/

section

variable {σ : Type} {iso : Image} {visit : Visit σ}

/-- A visitor on one entry after the other, until it answers `false`. -/
def runEntries (visit : Visit σ) (ctx : σ) : List (List UInt8) → Bool × σ
  | [] => (true, ctx)
  | su :: es =>
      let v := visit ctx su
      if v.1 = false then v else runEntries visit v.2 es

/-- The context behind a walk through an area. -/
def SuArea.run (visit : Visit σ) (depth budget : Nat) (ctx : σ) : SuArea → σ
  | last es => (runEntries visit ctx es).2
  | more pre ce next post =>
      let p := runEntries visit ctx pre
      if p.1 = false then p.2
      else
        let c := visit p.2 ce
        if c.1 = false then c.2
        else
          let n := if Followed depth budget ce then next.run visit (depth + 1) (budget - u32At ce 20) c.2 else c.2
          (runEntries visit n post).2

theorem nestedWalk_none {depth budget : Nat} {su : List UInt8} {ctx : σ} (h : continuation iso depth budget su = none) :
    nestedWalk iso visit depth budget su ctx = ⟨true, budget, ctx, []⟩ := by
  unfold nestedWalk
  rw [h]

theorem continuation_none {depth budget : Nat} {su : List UInt8}
    (h : ¬ (isCe su = true ∧ u32At su 20 ≠ 0 ∧ u32At su 20 ≤ budget ∧ depth < ceMaxDepth)) :
    continuation iso depth budget su = none := by
  unfold continuation
  exact if_neg h

/-- Walking over entries without a continuation: the walk ends at a `false`, or goes on behind them. -/
theorem walkSuArea_entries {depth budget : Nat} {es : List (List UInt8)} (pre : List (List UInt8)) (hce : NoCe pre) :
    ∀ {bytes : List UInt8} {ctx : σ}, Area bytes (pre ++ es) → ∃ rest, Area rest es ∧
      ((runEntries visit ctx pre).1 = false → (walkSuArea iso visit depth bytes budget ctx).ok = true ∧
        (walkSuArea iso visit depth bytes budget ctx).ctx = (runEntries visit ctx pre).2) ∧
      ((runEntries visit ctx pre).1 = true → (walkSuArea iso visit depth bytes budget ctx).ok =
          (walkSuArea iso visit depth rest budget (runEntries visit ctx pre).2).ok ∧
        (walkSuArea iso visit depth bytes budget ctx).ctx =
          (walkSuArea iso visit depth rest budget (runEntries visit ctx pre).2).ctx) := by
  induction pre with
  | nil =>
      intro bytes ctx h
      exact ⟨bytes, h, fun hfalse => absurd hfalse Bool.noConfusion, fun _ => ⟨rfl, rfl⟩⟩
  | cons su pre ih =>
      intro bytes ctx h
      cases h with
      | @entry _ rest _ hsu hst h =>
          obtain ⟨last, hlast, hstop, hon⟩ := @ih hce.tail rest (visit ctx su).2 h
          refine ⟨last, hlast, ?_⟩
          have hnested : nestedWalk iso visit depth budget su (visit ctx su).2 = ⟨true, budget, (visit ctx su).2, []⟩ := by
            refine nestedWalk_none (continuation_none fun hc => ?_)
            rw [hce.head] at hc
            exact Bool.noConfusion hc.1
          rw [walkSuArea_entry (hsu.next rest), hnested]
          unfold runEntries
          dsimp only []
          by_cases hv : (visit ctx su).1 = false
          · rw [if_pos hv, if_pos hv]
            exact ⟨fun _ => ⟨rfl, rfl⟩, fun htrue => absurd (hv.symm.trans htrue) Bool.noConfusion⟩
          · rw [if_neg hv, if_neg hv, if_neg Bool.noConfusion]
            by_cases hterm : isSt su = true
            · -- a terminator is the last entry, so nothing is left out
              obtain ⟨rfl, rfl⟩ := List.append_eq_nil_iff.mp (hst hterm)
              rw [if_pos hterm, walkSuArea_end hlast.nil_blank]
              exact ⟨fun hfalse => absurd hfalse Bool.noConfusion, fun _ => ⟨rfl, rfl⟩⟩
            · rw [if_neg hterm]
              exact ⟨hstop, hon⟩

/-- The walk through an area with its continuations. -/
theorem walkSuArea_run {a : SuArea} (ha : Stored iso a) : ∀ {depth budget : Nat} {bytes : List UInt8} {ctx : σ},
    Area bytes a.own → (walkSuArea iso visit depth bytes budget ctx).ok = true ∧
      (walkSuArea iso visit depth bytes budget ctx).ctx = a.run visit depth budget ctx := by
  have hlast : ∀ {es : List (List UInt8)}, NoCe es → ∀ {depth budget : Nat} {bytes : List UInt8} {ctx : σ},
      Area bytes es → (walkSuArea iso visit depth bytes budget ctx).ok = true ∧
        (walkSuArea iso visit depth bytes budget ctx).ctx = (runEntries visit ctx es).2 := by
    intro es hes depth budget bytes ctx hbytes
    obtain ⟨rest, hrest, hstop, hon⟩ :=
      @walkSuArea_entries σ iso visit depth budget [] es hes bytes ctx (by rw [List.append_nil]; exact hbytes)
    rw [walkSuArea_end hrest.nil_blank] at hon
    cases hp : (runEntries visit ctx es).1 with
    | false => exact hstop hp
    | true => exact hon hp
  induction ha with
  | last h =>
      intro depth budget bytes ctx hbytes
      exact hlast h hbytes
  | @more pre post ce buf next hpre hce hpost hread hbuf hnext ih =>
      intro depth budget bytes ctx hbytes
      obtain ⟨rest, hrest, hstop, hon⟩ :=
        @walkSuArea_entries σ iso visit depth budget (ce :: post) pre hpre bytes ctx hbytes
      unfold SuArea.run
      dsimp only []
      cases hp : (runEntries visit ctx pre).1 with
      | false =>
          rw [if_pos rfl]
          exact hstop hp
      | true =>
          rw [if_neg Bool.noConfusion, (hon hp).1, (hon hp).2]
          generalize (runEntries visit ctx pre).2 = c
          cases hrest with
          | @entry _ rest _ hsu hst hrest =>
              rw [walkSuArea_entry (hsu.next rest)]
              by_cases hv : (visit c ce).1 = false
              · rw [if_pos hv, if_pos hv]
                exact ⟨rfl, rfl⟩
              · rw [if_neg hv, if_neg hv]
                dsimp only []
                -- the continuation area is gone through before the rest of this one
                have hnested : (nestedWalk iso visit depth budget ce (visit c ce).2).ok = true ∧
                    (nestedWalk iso visit depth budget ce (visit c ce).2).ctx =
                      if SuArea.Followed depth budget ce then
                        next.run visit (depth + 1) (budget - u32At ce 20) (visit c ce).2
                      else (visit c ce).2 := by
                  by_cases hzero : u32At ce 20 = 0
                  · have hempty : next = .last [] := by
                      have hlen := rrReadBytes_length hread
                      rw [hzero] at hlen
                      rw [List.length_eq_zero_iff.mp hlen] at hbuf
                      exact SuArea.of_own_nil hbuf.of_nil
                    have hrun : ∀ d b, next.run visit d b (visit c ce).2 = (visit c ce).2 := by
                      intro d b
                      rw [hempty]
                      rfl
                    rw [nestedWalk_none (continuation_none fun hc => hc.2.1 hzero), hrun]
                    exact ⟨rfl, (ite_self _).symm⟩
                  · by_cases hfollowed : SuArea.Followed depth budget ce
                    · have hcont : continuation iso depth budget ce = some (some buf) := by
                        unfold continuation
                        dsimp only []
                        rw [if_pos ⟨hce, hzero, hfollowed.2, hfollowed.1⟩, hread]
                      have hbufLen := rrReadBytes_length hread
                      unfold nestedWalk
                      rw [hcont, if_pos hfollowed]
                      dsimp only []
                      rw [hbufLen]
                      exact ih hbuf
                    · rw [nestedWalk_none (continuation_none fun hc => hfollowed ⟨hc.2.2.2, hc.2.2.1⟩), if_neg hfollowed]
                      exact ⟨rfl, rfl⟩
                have hst' : isSt ce = false := by
                  unfold isCe at hce
                  unfold isSt
                  rw [decide_eq_true_iff] at hce
                  rw [decide_eq_false_iff_not]
                  omega
                rw [hnested.1, if_neg Bool.noConfusion, hst', if_neg Bool.noConfusion, ← hnested.2]
                exact hlast hpost hrest

/-! ## Visitors that care for some entries -/

/-- The contexts of a visitor over all entries. -/
def after (visit : Visit σ) (ctx : σ) (es : List (List UInt8)) : σ := es.foldl (fun c su => (visit c su).2) ctx

/-- The visitor answers `false` at the last entry only, if at all. -/
def StopsLast (visit : Visit σ) (ctx : σ) (es : List (List UInt8)) : Prop :=
  ∀ pre su post, es = pre ++ su :: post → (visit (after visit ctx pre) su).1 = false → post = []

/-- The walk comes to the entries that `p` picks, to all of them and in their order: a continuation with
such entries is followed, and none of them stands behind its `CE` entry. -/
def SuArea.InReach (p : List UInt8 → Bool) (depth budget : Nat) : SuArea → Prop
  | last _ => True
  | more _ ce next post => (∀ su ∈ next.inOrder, p su = false) ∨
      (Followed depth budget ce ∧ (∀ su ∈ post, p su = false) ∧ next.InReach p (depth + 1) (budget - u32At ce 20))

theorem StopsLast.tail {ctx : σ} {su : List UInt8} {es : List (List UInt8)} (h : StopsLast visit ctx (su :: es)) :
    StopsLast visit (visit ctx su).2 es :=
  fun pre su' post heq => h (su :: pre) su' post (by rw [heq, List.cons_append])

theorem StopsLast.right {ctx : σ} {a b : List (List UInt8)} (h : StopsLast visit ctx (a ++ b)) :
    StopsLast visit (after visit ctx a) b := by
  intro pre su post heq hfalse
  apply h (a ++ pre) su post (by rw [heq, List.append_assoc])
  unfold after at hfalse ⊢
  rw [List.foldl_append]
  exact hfalse

theorem stopsLast_nil {ctx : σ} : StopsLast visit ctx [] :=
  fun pre su post heq => absurd heq.symm (List.append_ne_nil_of_right_ne_nil _ (List.cons_ne_nil _ _))

theorem StopsLast.cons {ctx : σ} {su : List UInt8} {es : List (List UInt8)} (hsu : (visit ctx su).1 = false → es = [])
    (h : StopsLast visit (visit ctx su).2 es) : StopsLast visit ctx (su :: es) := by
  intro pre su' post heq hfalse
  cases pre with
  | nil =>
      obtain ⟨rfl, rfl⟩ := List.cons.inj heq
      exact hsu hfalse
  | cons e pre =>
      obtain ⟨rfl, hes⟩ := List.cons.inj heq
      exact h pre su' post hes hfalse

theorem filter_eq_nil {p : List UInt8 → Bool} {es : List (List UInt8)} (h : ∀ su ∈ es, p su = false) : es.filter p = [] := by
  rw [List.filter_eq_nil_iff]
  intro su hsu
  rw [h su hsu]
  exact Bool.noConfusion

section

variable {p : List UInt8 → Bool} (hskip : ∀ ctx su, p su = false → visit ctx su = (true, ctx))

include hskip

theorem runEntries_after {es rest : List (List UInt8)} {ctx : σ} (h : StopsLast visit ctx (es.filter p ++ rest)) :
    (runEntries visit ctx es).2 = after visit ctx (es.filter p) ∧ ((runEntries visit ctx es).1 = false → rest = []) := by
  induction es generalizing ctx with
  | nil => exact ⟨rfl, fun hfalse => absurd hfalse Bool.noConfusion⟩
  | cons su es ih =>
      unfold runEntries
      dsimp only []
      cases hp : p su with
      | false =>
          rw [List.filter_cons_of_neg (by rw [hp]; exact Bool.noConfusion)] at h ⊢
          rw [hskip ctx su hp, if_neg Bool.noConfusion]
          exact ih h
      | true =>
          rw [List.filter_cons_of_pos hp] at h ⊢
          by_cases hv : (visit ctx su).1 = false
          · obtain ⟨hes, hrest⟩ := List.append_eq_nil_iff.mp (h [] su _ rfl hv)
            rw [if_pos hv, hes]
            exact ⟨rfl, fun _ => hrest⟩
          · rw [if_neg hv]
            exact ih h.tail

/-- The walk does what the visitor does on these entries. -/
theorem run_after {a : SuArea} (ha : Stored iso a) (hce : ∀ su, isCe su = true → p su = false) : ∀ {depth budget : Nat} {ctx : σ},
    a.InReach p depth budget → StopsLast visit ctx (a.inOrder.filter p) →
    a.run visit depth budget ctx = after visit ctx (a.inOrder.filter p) := by
  induction ha with
  | @last es h =>
      intro depth budget ctx _ hstop
      exact (runEntries_after hskip (by rw [List.append_nil]; exact hstop)).1
  | @more pre post ce buf next hpre hisCe hpost hread hbuf hnext ih =>
      intro depth budget ctx hreach hstop
      have hfilter : (SuArea.more pre ce next post).inOrder.filter p =
          pre.filter p ++ (post.filter p ++ next.inOrder.filter p) := by
        rw [SuArea.inOrder, List.append_assoc, List.filter_append, List.cons_append,
          List.filter_cons_of_neg (by rw [hce ce hisCe]; exact Bool.noConfusion), List.filter_append]
      rw [hfilter] at hstop ⊢
      obtain ⟨hrun, hend⟩ := runEntries_after hskip hstop
      rw [SuArea.run]
      dsimp only []
      cases hp : (runEntries visit ctx pre).1 with
      | false => rw [if_pos rfl, hrun, hend hp, List.append_nil]
      | true =>
          have hsplit : after visit ctx (pre.filter p ++ (post.filter p ++ next.inOrder.filter p)) =
              after visit (after visit ctx (pre.filter p)) (post.filter p ++ next.inOrder.filter p) := by
            unfold after
            rw [List.foldl_append]
          have hbehind := hstop.right
          rw [if_neg Bool.noConfusion, hrun, hskip _ ce (hce ce hisCe), if_neg Bool.noConfusion, hsplit]
          generalize after visit ctx (pre.filter p) = c at hbehind
          rcases hreach with hnone | ⟨hfollowed, hpostNone, hin⟩
          · -- nothing of interest in the continuation
            have hnil := filter_eq_nil hnone
            have hrest : next.run visit (depth + 1) (budget - u32At ce 20) c = c := by
              have hin : next.InReach p (depth + 1) (budget - u32At ce 20) := by
                cases next with
                | last es => exact trivial
                | more pre' ce' next' post' =>
                    exact Or.inl fun su hsu => hnone su (by rw [SuArea.inOrder]; exact List.mem_append_right _ hsu)
              have := ih hin (show StopsLast visit c (next.inOrder.filter p) by rw [hnil]; exact stopsLast_nil)
              rw [hnil] at this
              exact this
            rw [hrest, ite_self, hnil, List.append_nil]
            rw [hnil] at hbehind
            exact (runEntries_after hskip hbehind).1
          · have hnil := filter_eq_nil hpostNone
            rw [hnil, List.nil_append] at hbehind ⊢
            rw [if_pos hfollowed, ih hin hbehind]
            have hpostRun : StopsLast visit (after visit c (next.inOrder.filter p)) (post.filter p ++ []) := by
              rw [hnil]
              exact stopsLast_nil
            have := (runEntries_after hskip hpostRun).1
            rw [hnil] at this
            exact this

end

/-- A directory record with a system use area. -/
structure SuRecord (iso : Image) where
  bytes : List UInt8
  area : SuArea
  enabled : iso.suspEnabled = true
  whole : recLen bytes ≤ bytes.length
  long : 34 ≤ recLen bytes
  fits : isoSuaOffset bytes + iso.suspSkip ≤ recLen bytes
  holds : Area ((bytes.take (recLen bytes)).drop (isoSuaOffset bytes + iso.suspSkip)) area.own
  stored : Stored iso area

theorem Area.isEntry {bytes : List UInt8} {es : List (List UInt8)} (h : Area bytes es) : ∀ su ∈ es, IsEntry su := by
  induction h with
  | blank h => exact fun su hsu => absurd hsu List.not_mem_nil
  | entry hsu hst h ih =>
      intro e he
      rcases List.mem_cons.mp he with rfl | he
      · exact hsu
      · exact ih e he

theorem Stored.isEntry {a : SuArea} (h : Stored iso a) (hown : ∀ su ∈ a.own, IsEntry su) : ∀ su ∈ a.inOrder, IsEntry su := by
  induction h with
  | last h => exact hown
  | more hpre hce hpost hread hbuf hnext ih =>
      intro su hsu
      rcases List.mem_append.mp hsu with hsu | hsu
      · exact hown su hsu
      · exact ih hbuf.isEntry su hsu

theorem SuRecord.walk (R : SuRecord iso) (ctx : σ) :
    (walkRecordSu iso R.bytes visit ctx).ctx = R.area.run visit 0 ceMaxBytes ctx := by
  have hok : ¬ (iso.suspEnabled = false ∨ recLen R.bytes < 34 ∨ recLen R.bytes < isoSuaOffset R.bytes ∨
      recLen R.bytes < isoSuaOffset R.bytes + iso.suspSkip) := by
    have hlong := R.long
    have hfits := R.fits
    simp [R.enabled]
    omega
  unfold walkRecordSu
  dsimp only []
  rw [if_neg hok]
  exact (walkSuArea_run R.stored R.holds).2

end

end Guppy.Iso
