import Guppy.Iso.Areas
import Mathlib.Data.List.Flatten
import Mathlib.Data.List.TakeWhile

set_option autoImplicit false

/-! # Rock Ridge link targets

The target of a symbolic link is kept in `SL` entries as a list of component records. A component may be
split into fragments, and the records may be spread over several entries. `iso_dir_record_sl_ce` puts the
path together, with a separator before a component unless a fragment of it is already there.
`sl_target` says that this is the path for every way to split it, if the walk comes to the entries.
-/

namespace Guppy.Iso

open Vfs

/-! ## The code -/

/-- `rr_sl_ctx_t`; the text is what has been put into the buffer. -/
structure SlCtx where
  out : Text
  found : Bool
  needSep : Bool
  deriving DecidableEq

/-- The separator that goes before the next component. -/
def slSep (ctx : SlCtx) : Text := if ctx.needSep = true ∧ ctx.out ≠ [] ∧ ctx.out.getLast? ≠ some 47 then [47] else []

/-- `rr_sl_append`. When the text does not fit behind a separator, the separator has been written. -/
def rrSlAppend (cap : Nat) (ctx : SlCtx) (t : Text) : Bool × SlCtx :=
  if slSep ctx ≠ [] ∧ cap ≤ ctx.out.length + 1 then (false, ctx)
  else
    let out := ctx.out ++ slSep ctx
    if cap ≤ out.length + t.length then (false, { ctx with out := out })
    else (true, { ctx with out := out ++ t, needSep := true })

/-- A root starts the path anew. -/
def rrSlRoot (cap : Nat) (ctx : SlCtx) : Bool × SlCtx :=
  if cap < 2 then (false, ctx) else (true, { ctx with out := [47], needSep := false })

/-- One component record of `rr_sl_visit`. -/
def rrSlComponent (cap : Nat) (ctx : SlCtx) (cflags : UInt8) (text : Text) : Bool × SlCtx :=
  let flags := cflags.toNat
  let r :=
    if flags.testBit 3 = true then rrSlRoot cap ctx
    else if flags.testBit 2 = true then rrSlAppend cap ctx [46, 46]
    else if flags.testBit 1 = true then rrSlAppend cap ctx [46]
    else if flags.testBit 4 = true then rrSlRoot cap ctx
    else if flags.testBit 5 = true then rrSlAppend cap ctx [72, 79, 83, 84]
    else rrSlAppend cap ctx text
  if r.1 = true ∧ flags.testBit 0 = true then (true, { r.2 with needSep := false }) else r

/-- The loop of `rr_sl_visit` over the component records. -/
def rrSlLoop (cap : Nat) (ctx : SlCtx) (area : List UInt8) : Bool × SlCtx :=
  match area with
  | cflags :: clen :: rest =>
      if rest.length < clen.toNat then (true, ctx)
      else
        let r := rrSlComponent cap ctx cflags (rest.take clen.toNat)
        if r.1 = false then r else rrSlLoop cap r.2 (rest.drop clen.toNat)
  | _ => (true, ctx)
  termination_by area.length
  decreasing_by
    rw [List.length_drop, List.length_cons, List.length_cons]
    omega

/-- An `SL` entry. -/
def isSl (su : List UInt8) : Bool := byteAt su 0 = 83 ∧ byteAt su 1 = 76

/-- `rr_sl_visit` -/
def rrSlVisit (cap : Nat) : Visit SlCtx := fun ctx su =>
  if isSl su = false ∨ byteAt su 3 ≠ 1 ∨ su.length < 5 then (true, ctx)
  else
    let r := rrSlLoop cap { ctx with found := true } (su.drop 5)
    if r.1 = false then r else ((byteAt su 4).testBit 0, r.2)

/-- `iso_dir_record_sl_ce` with a buffer of `cap` bytes: what it returns, and the text in the buffer. -/
def isoDirRecordSlCe (iso : Image) (r : List UInt8) (cap : Nat) : Bool × Text :=
  let ctx := (walkRecordSu iso r (rrSlVisit cap) ⟨[], false, false⟩).ctx
  (ctx.found && decide (cText ctx.out ≠ []), cText ctx.out)

/-! ## Targets and their encodings -/

/-- A component record: its flags and its text. -/
abbrev Component := UInt8 × Text

/-- The ways to record one component: `.` and `..` have flags of their own, and any other text is split
into fragments, all but the last one with the flag that it goes on. -/
inductive Pieces : Text → List Component → Prop
  | current : Pieces [46] [(2, [])]
  | parent : Pieces [46, 46] [(4, [])]
  | split (init : List Text) (last : Text) : Pieces (init.flatten ++ last) (init.map (fun f => (1, f)) ++ [(0, last)])

inductive Encoded : List Text → List Component → Prop
  | nil : Encoded [] []
  | cons {c : Text} {comps : List Text} {cs rest : List Component} (hc : Pieces c cs) (h : Encoded comps rest) :
      Encoded (c :: comps) (cs ++ rest)

/-- The record of the root. -/
def rootRecord (root : Bool) : List Component := if root = true then [(8, [])] else []

def slComponentBytes (c : Component) : List UInt8 := c.1 :: UInt8.ofNat c.2.length :: c.2

/-- An `SL` entry with these component records. -/
def slEntry (flags : UInt8) (cs : List Component) : List UInt8 :=
  let area := (cs.map slComponentBytes).flatten
  [83, 76, UInt8.ofNat (5 + area.length), 1, flags] ++ area

/-- `SL` entries, all but the last one with the flag that another one comes. -/
def slEntries : List (List Component) → List (List UInt8)
  | [] => []
  | [g] => [slEntry 0 g]
  | g :: gs => slEntry 1 g :: slEntries gs

/-- A path from its components. -/
def pathText (root : Bool) (comps : List Text) : Text := (if root = true then [47] else []) ++ [47].intercalate comps

/-- The record of a symbolic link: its component records are those of the target, in groups of which each
stands in one `SL` entry. -/
structure LinkRecord (iso : Image) extends SuRecord iso where
  root : Bool
  comps : List Text
  records : List Component
  groups : List (List Component)
  names : ∀ c ∈ comps, c ≠ [] ∧ 0 ∉ c ∧ 47 ∉ c
  encoded : Encoded comps records
  spread : groups.flatten = rootRecord root ++ records
  entries : area.inOrder.filter isSl = slEntries groups
  found : groups ≠ []

def LinkRecord.target {iso : Image} (R : LinkRecord iso) : Text := pathText R.root R.comps

/-! ## Component records -/

variable {cap : Nat} {ctx : SlCtx}

/-- The path with another component. -/
def slAdd (ctx : SlCtx) (t : Text) : SlCtx := { ctx with out := ctx.out ++ slSep ctx ++ t, needSep := true }

/-- One component record after the other, until one does not fit. -/
def runComponents (cap : Nat) (ctx : SlCtx) : List Component → Bool × SlCtx
  | [] => (true, ctx)
  | c :: cs =>
      let r := rrSlComponent cap ctx c.1 c.2
      if r.1 = false then r else runComponents cap r.2 cs

theorem runComponents_cons (c : Component) (cs : List Component) : runComponents cap ctx (c :: cs) =
    if (rrSlComponent cap ctx c.1 c.2).1 = false then rrSlComponent cap ctx c.1 c.2
    else runComponents cap (rrSlComponent cap ctx c.1 c.2).2 cs := rfl

theorem runComponents_append (a b : List Component) : ∀ {ctx : SlCtx}, runComponents cap ctx (a ++ b) =
    if (runComponents cap ctx a).1 = false then runComponents cap ctx a else runComponents cap (runComponents cap ctx a).2 b := by
  induction a with
  | nil => exact fun {_} => (if_neg Bool.noConfusion).symm
  | cons c cs ih =>
      intro ctx
      rw [List.cons_append, runComponents_cons, runComponents_cons]
      by_cases h : (rrSlComponent cap ctx c.1 c.2).1 = false
      · rw [if_pos h, if_pos h, if_pos h]
      · rw [if_neg h, if_neg h]
        exact ih

theorem rrSlAppend_fits {t : Text} (h : (ctx.out ++ slSep ctx ++ t).length < cap) : rrSlAppend cap ctx t = (true, slAdd ctx t) := by
  rw [List.length_append, List.length_append] at h
  have hsep : ¬ (slSep ctx ≠ [] ∧ cap ≤ ctx.out.length + 1) := by
    rintro ⟨hne, hcap⟩
    have := List.length_pos_of_ne_nil hne
    omega
  unfold rrSlAppend slAdd
  dsimp only []
  rw [if_neg hsep, List.length_append, if_neg (by omega)]

theorem rrSlAppend_found (t : Text) : (rrSlAppend cap ctx t).2.found = ctx.found := by
  unfold rrSlAppend
  dsimp only []
  split
  · rfl
  · split <;> rfl

theorem rrSlRoot_found : (rrSlRoot cap ctx).2.found = ctx.found := by
  unfold rrSlRoot
  split <;> rfl

theorem rrSlComponent_found (cflags : UInt8) (t : Text) : (rrSlComponent cap ctx cflags t).2.found = ctx.found := by
  have hbranch : ∀ r : Bool × SlCtx, r.2.found = ctx.found →
      (if r.1 = true ∧ cflags.toNat.testBit 0 = true then (true, { r.2 with needSep := false }) else r).2.found = ctx.found := by
    intro r hr
    split
    · exact hr
    · exact hr
  unfold rrSlComponent
  dsimp only []
  apply hbranch
  repeat' split
  all_goals first | exact rrSlRoot_found | exact rrSlAppend_found _

theorem runComponents_found (cs : List Component) : ∀ {ctx : SlCtx}, (runComponents cap ctx cs).2.found = ctx.found := by
  induction cs with
  | nil => exact fun {_} => rfl
  | cons c cs ih =>
      intro ctx
      rw [runComponents_cons]
      split
      · exact rrSlComponent_found _ _
      · rw [ih]
        exact rrSlComponent_found _ _

/-- The loop reads the component records one after the other. -/
theorem rrSlLoop_components {cs : List Component} (hcs : ∀ c ∈ cs, c.2.length < 256) : ∀ {ctx : SlCtx},
    rrSlLoop cap ctx (cs.map slComponentBytes).flatten = runComponents cap ctx cs := by
  induction cs with
  | nil =>
      intro ctx
      simp [rrSlLoop, runComponents]
  | cons c cs ih =>
      intro ctx
      obtain ⟨cflags, text⟩ := c
      have hlen : (UInt8.ofNat text.length).toNat = text.length := by
        rw [UInt8.toNat_ofNat']
        exact Nat.mod_eq_of_lt (hcs _ (List.mem_cons_self ..))
      rw [List.map_cons, List.flatten_cons]
      unfold slComponentBytes
      dsimp only []
      rw [List.cons_append, List.cons_append, rrSlLoop, hlen, if_neg (by rw [List.length_append]; omega), List.take_left,
        List.drop_left, runComponents_cons]
      dsimp only []
      split
      · rfl
      · exact ih fun c hc => hcs c (List.mem_cons_of_mem _ hc)

/-! ## Components -/

theorem slSep_of_not (h : ctx.needSep = false) : slSep ctx = [] := by
  unfold slSep
  rw [if_neg]
  rintro ⟨hsep, -⟩
  rw [h] at hsep
  cases hsep

/-- A record that is not continued. -/
theorem rrSlComponent_whole {cflags : UInt8} {t text : Text}
    (h : cflags = 2 ∧ t = [46] ∨ cflags = 4 ∧ t = [46, 46] ∨ cflags = 0 ∧ t = text)
    (hfit : (ctx.out ++ slSep ctx ++ t).length < cap) : rrSlComponent cap ctx cflags text = (true, slAdd ctx t) := by
  have hflags : rrSlComponent cap ctx cflags text =
      if (rrSlAppend cap ctx t).1 = true ∧ false = true then (true, { (rrSlAppend cap ctx t).2 with needSep := false })
      else rrSlAppend cap ctx t := by
    rcases h with ⟨rfl, rfl⟩ | ⟨rfl, rfl⟩ | ⟨rfl, rfl⟩
    · rfl
    · rfl
    · rfl
  rw [hflags, if_neg fun h => Bool.noConfusion h.2]
  exact rrSlAppend_fits hfit

theorem rrSlComponent_root {t : Text} (h : ¬ cap < 2) :
    rrSlComponent cap ctx 8 t = (true, { ctx with out := [47], needSep := false }) := by
  have hroot : rrSlRoot cap ctx = (true, { ctx with out := [47], needSep := false }) := if_neg h
  show (if (rrSlRoot cap ctx).1 = true ∧ false = true then
    (true, { (rrSlRoot cap ctx).2 with needSep := false }) else rrSlRoot cap ctx) = _
  rw [if_neg fun h => Bool.noConfusion h.2]
  exact hroot

theorem rrSlComponent_part {t : Text} (hfit : (ctx.out ++ slSep ctx ++ t).length < cap) :
    rrSlComponent cap ctx 1 t = (true, { slAdd ctx t with needSep := false }) := by
  have happend := rrSlAppend_fits hfit
  show (if (rrSlAppend cap ctx t).1 = true ∧ true = true then
    (true, { (rrSlAppend cap ctx t).2 with needSep := false }) else rrSlAppend cap ctx t) = _
  rw [happend, if_pos ⟨rfl, rfl⟩]

/-- However a component is recorded, it is put behind the path with one separator. -/
theorem runComponents_pieces {c : Text} {cs : List Component} (h : Pieces c cs) (hfit : (ctx.out ++ slSep ctx ++ c).length < cap) :
    runComponents cap ctx cs = (true, slAdd ctx c) := by
  cases h with
  | current =>
      rw [runComponents_cons, rrSlComponent_whole (Or.inl ⟨rfl, rfl⟩) hfit]
      rfl
  | parent =>
      rw [runComponents_cons, rrSlComponent_whole (Or.inr (Or.inl ⟨rfl, rfl⟩)) hfit]
      rfl
  | split init last =>
      induction init generalizing ctx with
      | nil =>
          rw [List.map_nil, List.nil_append, runComponents_cons]
          rw [List.flatten_nil, List.nil_append] at hfit ⊢
          rw [rrSlComponent_whole (Or.inr (Or.inr ⟨rfl, rfl⟩)) hfit]
          rfl
      | cons f fs ih =>
          rw [List.flatten_cons, List.append_assoc f] at hfit ⊢
          have hpart : (ctx.out ++ slSep ctx ++ f).length < cap := by
            rw [← List.append_assoc, List.length_append] at hfit
            omega
          rw [List.map_cons, List.cons_append, runComponents_cons, rrSlComponent_part hpart]
          dsimp only []
          rw [if_neg Bool.noConfusion]
          -- the next fragment follows without a separator
          have hnone : slSep { slAdd ctx f with needSep := false } = [] := slSep_of_not rfl
          have hrest : ({ slAdd ctx f with needSep := false } : SlCtx).out ++
              slSep { slAdd ctx f with needSep := false } ++ (fs.flatten ++ last) =
                ctx.out ++ slSep ctx ++ (f ++ (fs.flatten ++ last)) := by
            rw [hnone, List.append_nil]
            unfold slAdd
            rw [List.append_assoc _ f]
          rw [ih (by rw [hrest]; exact hfit)]
          unfold slAdd at hrest ⊢
          rw [hrest]

theorem slAdd_length (ctx : SlCtx) (comps : List Text) : ctx.out.length ≤ (comps.foldl slAdd ctx).out.length := by
  induction comps generalizing ctx with
  | nil => exact le_rfl
  | cons c comps ih =>
      have := ih (slAdd ctx c)
      unfold slAdd at this
      rw [List.length_append, List.length_append] at this
      rw [List.foldl_cons]
      unfold slAdd
      omega

theorem runComponents_encoded {comps : List Text} {cs : List Component} (h : Encoded comps cs) : ∀ {ctx : SlCtx},
    (comps.foldl slAdd ctx).out.length < cap → runComponents cap ctx cs = (true, comps.foldl slAdd ctx) := by
  induction h with
  | nil => exact fun {_} _ => rfl
  | @cons c comps cs rest hc h ih =>
      intro ctx hfit
      rw [List.foldl_cons] at hfit ⊢
      have hone : (ctx.out ++ slSep ctx ++ c).length < cap := by
        have := slAdd_length (slAdd ctx c) comps
        exact Nat.lt_of_le_of_lt this hfit
      rw [runComponents_append, runComponents_pieces hc hone, if_neg Bool.noConfusion]
      exact ih hfit

/-! ## Paths -/

theorem slAdd_all {comps : List Text} (hcomps : ∀ c ∈ comps, c ≠ [] ∧ 47 ∉ c) : ∀ {ctx : SlCtx}, ctx.needSep = true →
    ctx.out ≠ [] → ctx.out.getLast? ≠ some 47 →
    (comps.foldl slAdd ctx).out = ctx.out ++ (comps.map (fun c => 47 :: c)).flatten := by
  induction comps with
  | nil =>
      intro ctx _ _ _
      simp
  | cons c comps ih =>
      intro ctx hsep hne hlast
      obtain ⟨hc, hslash⟩ := hcomps c (List.mem_cons_self ..)
      have hsepText : slSep ctx = [47] := if_pos ⟨hsep, hne, hlast⟩
      rw [List.foldl_cons, ih (fun c hc => hcomps c (List.mem_cons_of_mem _ hc)) rfl]
      · unfold slAdd
        rw [hsepText]
        simp
      · unfold slAdd
        simp [hc]
      · unfold slAdd
        rw [List.getLast?_append_of_ne_nil _ hc]
        intro h
        exact hslash (List.mem_of_getLast? h)

theorem intercalate_cons (c : Text) (comps : List Text) :
    [47].intercalate (c :: comps) = c ++ (comps.map (fun c => 47 :: c)).flatten := by
  induction comps generalizing c with
  | nil => simp [List.intercalate]
  | cons d comps ih =>
      have := ih d
      unfold List.intercalate at this ⊢
      rw [List.intersperse_cons_cons, List.flatten_cons, List.flatten_cons, this]
      simp

/-- The components behind a root or at the start. -/
theorem slAdd_path {comps : List Text} (hcomps : ∀ c ∈ comps, c ≠ [] ∧ 47 ∉ c) (h : ctx.needSep = false) :
    (comps.foldl slAdd ctx).out = ctx.out ++ [47].intercalate comps := by
  cases comps with
  | nil => simp [List.intercalate]
  | cons c comps =>
      obtain ⟨hc, hslash⟩ := hcomps c (List.mem_cons_self ..)
      rw [List.foldl_cons, slAdd_all (fun c hc => hcomps c (List.mem_cons_of_mem _ hc)) rfl, intercalate_cons]
      · unfold slAdd
        rw [slSep_of_not h]
        simp
      · unfold slAdd
        simp [hc]
      · unfold slAdd
        rw [List.getLast?_append_of_ne_nil _ hc]
        intro h
        exact hslash (List.mem_of_getLast? h)

/-! ## Entries -/

theorem slEntry_short {flags : UInt8} {g : List Component} (h : IsEntry (slEntry flags g)) : ∀ c ∈ g, c.2.length < 256 := by
  intro c hc
  have hmem : slComponentBytes c ∈ g.map slComponentBytes := List.mem_map_of_mem hc
  have hle := (List.sublist_flatten_of_mem hmem).length_le
  have hbytes : (slComponentBytes c).length = c.2.length + 1 + 1 := rfl
  have hlen : (slEntry flags g).length = 5 + (g.map slComponentBytes).flatten.length := by
    unfold slEntry
    dsimp only []
    rw [List.length_append]
    rfl
  have hsmall : byteAt (slEntry flags g) 2 < 256 := UInt8.toNat_lt _
  rw [h.2, hlen] at hsmall
  omega

theorem rrSlVisit_entry {flags : UInt8} {g : List Component} (h : IsEntry (slEntry flags g)) :
    rrSlVisit cap ctx (slEntry flags g) =
      if (runComponents cap { ctx with found := true } g).1 = false then runComponents cap { ctx with found := true } g
      else (flags.toNat.testBit 0, (runComponents cap { ctx with found := true } g).2) := by
  have harea : (slEntry flags g).drop 5 = (g.map slComponentBytes).flatten := rfl
  unfold rrSlVisit
  rw [if_neg]
  · dsimp only []
    rw [harea, rrSlLoop_components (slEntry_short h)]
    rfl
  · rintro (hsl | hversion | hlen)
    · exact Bool.noConfusion (hsl.symm.trans (show isSl (slEntry flags g) = true from rfl))
    · exact hversion rfl
    · unfold slEntry at hlen
      dsimp only [] at hlen
      rw [List.length_append] at hlen
      exact absurd hlen (Nat.not_lt.mpr (Nat.le_add_right 5 _))

theorem SlCtx.with_found {ctx : SlCtx} (h : ctx.found = true) : { ctx with found := true } = ctx := by
  cases ctx
  cases h
  rfl

/-- The entries do what their component records do, and the last one ends the walk. -/
theorem slEntries_run {groups : List (List Component)} (hne : groups ≠ []) : ∀ {ctx final : SlCtx},
    (∀ su ∈ slEntries groups, IsEntry su) →
    runComponents cap { ctx with found := true } groups.flatten = (true, final) →
    StopsLast (rrSlVisit cap) ctx (slEntries groups) ∧ after (rrSlVisit cap) ctx (slEntries groups) = final := by
  induction groups with
  | nil => exact absurd rfl hne
  | cons g gs ih =>
      intro ctx final hentries hrun
      rw [List.flatten_cons, runComponents_append] at hrun
      have hfirst : (runComponents cap { ctx with found := true } g).1 = true := by
        by_contra hfalse
        rw [if_pos (by simpa using hfalse)] at hrun
        rw [hrun] at hfalse
        exact hfalse rfl
      rw [if_neg (by rw [hfirst]; exact Bool.noConfusion)] at hrun
      cases gs with
      | nil =>
          have hvisit := @rrSlVisit_entry cap ctx 0 g (hentries _ (List.mem_cons_self ..))
          rw [if_neg (by rw [hfirst]; exact Bool.noConfusion)] at hvisit
          constructor
          · exact StopsLast.cons (fun _ => rfl) stopsLast_nil
          · unfold after slEntries
            rw [List.foldl_cons, hvisit]
            exact (Prod.mk.inj hrun).2
      | cons g' gs =>
          have hvisit := @rrSlVisit_entry cap ctx 1 g (hentries _ (List.mem_cons_self ..))
          rw [if_neg (by rw [hfirst]; exact Bool.noConfusion)] at hvisit
          have hfound := @runComponents_found cap g { ctx with found := true }
          rw [← SlCtx.with_found hfound] at hrun
          obtain ⟨hstop, hafter⟩ := ih (List.cons_ne_nil _ _) (fun su hsu => hentries su (List.mem_cons_of_mem _ hsu)) hrun
          constructor
          · apply StopsLast.cons
            · intro hfalse
              rw [hvisit] at hfalse
              cases hfalse
            · rw [hvisit]
              exact hstop
          · show after (rrSlVisit cap) (rrSlVisit cap ctx (slEntry 1 g)).2 (slEntries (g' :: gs)) = final
            rw [hvisit]
            exact hafter

/-! ## Targets -/

theorem rrSlVisit_other {su : List UInt8} (h : isSl su = false) : rrSlVisit cap ctx su = (true, ctx) := by
  unfold rrSlVisit
  rw [if_pos (Or.inl h)]

theorem not_isSl_of_isCe {su : List UInt8} (h : isCe su = true) : isSl su = false := by
  unfold isCe at h
  unfold isSl
  rw [decide_eq_true_iff] at h
  rw [decide_eq_false_iff_not]
  omega

theorem pathText_noZero {root : Bool} {comps : List Text} (h : ∀ c ∈ comps, 0 ∉ c) : 0 ∉ pathText root comps := by
  unfold pathText
  cases comps with
  | nil => cases root <;> decide
  | cons c comps =>
      rw [intercalate_cons]
      simp only [List.mem_append, List.mem_flatten, List.mem_map, not_or]
      refine ⟨by cases root <;> decide, h c (List.mem_cons_self ..), ?_⟩
      rintro ⟨l, ⟨d, hd, rfl⟩, hzero⟩
      rcases List.mem_cons.mp hzero with hzero | hzero
      · exact absurd hzero (by decide)
      · exact h d (List.mem_cons_of_mem _ hd) hzero

theorem LinkRecord.run {iso : Image} (R : LinkRecord iso) (hcap : R.target.length < cap) :
    ∃ needSep, runComponents cap ⟨[], true, false⟩ R.groups.flatten = (true, ⟨R.target, true, needSep⟩) := by
  have hcomps : ∀ c ∈ R.comps, c ≠ [] ∧ 47 ∉ c := fun c hc => ⟨(R.names c hc).1, (R.names c hc).2.2⟩
  have hroot : runComponents cap ⟨[], true, false⟩ (rootRecord R.root) =
      (true, ⟨if R.root = true then [47] else [], true, false⟩) := by
    unfold rootRecord
    cases hr : R.root with
    | false => rfl
    | true =>
        have htwo : ¬ cap < 2 := by
          unfold LinkRecord.target pathText at hcap
          rw [hr, if_pos rfl, List.length_append, List.length_singleton] at hcap
          omega
        rw [if_pos rfl, runComponents_cons, rrSlComponent_root htwo]
        rfl
  have hpath := @slAdd_path ⟨if R.root = true then [47] else [], true, false⟩ R.comps hcomps rfl
  have hrecords := @runComponents_encoded cap R.comps R.records R.encoded ⟨if R.root = true then [47] else [], true, false⟩
    (by rw [hpath]; exact hcap)
  have hfound := @runComponents_found cap R.records ⟨if R.root = true then [47] else [], true, false⟩
  rw [R.spread, runComponents_append, hroot, if_neg Bool.noConfusion, hrecords]
  rw [hrecords] at hfound
  revert hpath hfound
  generalize R.comps.foldl slAdd ⟨if R.root = true then [47] else [], true, false⟩ = c
  intro hpath hfound
  obtain ⟨out, found, needSep⟩ := c
  obtain rfl : found = true := hfound
  obtain rfl : out = R.target := hpath
  exact ⟨needSep, rfl⟩

/-- The text is the target, however it is recorded, if the walk comes to the `SL` entries. -/
theorem sl_target {iso : Image} (R : LinkRecord iso) {cap : Nat} (hcap : R.target.length < cap)
    (hreach : R.area.InReach isSl 0 ceMaxBytes) :
    isoDirRecordSlCe iso R.bytes cap = (decide (R.target ≠ []), R.target) := by
  obtain ⟨needSep, hrun⟩ := R.run hcap
  have hentries : ∀ su ∈ slEntries R.groups, IsEntry su := by
    intro su hsu
    rw [← R.entries] at hsu
    exact R.stored.isEntry R.holds.isEntry su (List.mem_filter.mp hsu).1
  obtain ⟨hstop, hafter⟩ := @slEntries_run cap R.groups R.found ⟨[], false, false⟩ _ hentries hrun
  have hctx : (walkRecordSu iso R.bytes (rrSlVisit cap) ⟨[], false, false⟩).ctx = ⟨R.target, true, needSep⟩ := by
    rw [← R.entries] at hstop hafter
    have hskip : ∀ ctx su, isSl su = false → rrSlVisit cap ctx su = (true, ctx) := fun ctx su h => rrSlVisit_other h
    rw [R.toSuRecord.walk, run_after hskip R.stored (fun su h => not_isSl_of_isCe h) hreach hstop]
    exact hafter
  have htext : cText R.target = R.target := by
    have hzero : 0 ∉ R.target := pathText_noZero fun c hc => (R.names c hc).2.1
    unfold cText
    rw [List.takeWhile_eq_self_iff]
    intro c hc
    exact decide_eq_true fun h => hzero (h ▸ hc)
  unfold isoDirRecordSlCe
  dsimp only []
  rw [hctx, htext]
  rfl

/-! ## A link in two areas -/

def twoIso : Image := imageOf 7 (slEntry 0 [(0, [98]), (4, [])]) (by decide)

/-- The record of a link to `/ab/..`, with the first component in two fragments. -/
def twoLink : LinkRecord twoIso where
  bytes := fileRecord (slEntry 1 [(8, []), (1, [97])] ++ ceEntry 7 10)
  area := .more [slEntry 1 [(8, []), (1, [97])]] (ceEntry 7 10) (.last [slEntry 0 [(0, [98]), (4, [])]]) []
  enabled := rfl
  whole := by decide
  long := by decide
  fits := by decide
  holds := by
    have hbytes : ((fileRecord (slEntry 1 [(8, []), (1, [97])] ++ ceEntry 7 10)).take
          (recLen (fileRecord (slEntry 1 [(8, []), (1, [97])] ++ ceEntry 7 10)))).drop
        (isoSuaOffset (fileRecord (slEntry 1 [(8, []), (1, [97])] ++ ceEntry 7 10)) + twoIso.suspSkip) =
          slEntry 1 [(8, []), (1, [97])] ++ (ceEntry 7 10 ++ []) := by decide
    rw [hbytes]
    apply Area.entry (by decide) (by decide)
    exact Area.entry (by decide) (by decide) (Area.blank (by decide))
  stored := by
    have hread := @rrReadBytes_imageOf 7 (slEntry 0 [(0, [98]), (4, [])]) (by decide) (by decide)
    have hbuf : Area (slEntry 0 [(0, [98]), (4, [])] ++ []) [slEntry 0 [(0, [98]), (4, [])]] :=
      Area.entry (by decide) (by decide) (Area.blank (by decide))
    obtain ⟨hblock, hoffset, hlength⟩ := ceEntry_fields 7 10
    apply Stored.more (by decide) (by decide) (by decide) _ hbuf (Stored.last (by decide))
    rw [hblock, hoffset, hlength]
    exact hread
  root := true
  comps := [[97, 98], [46, 46]]
  records := [(1, [97]), (0, [98]), (4, [])]
  groups := [[(8, []), (1, [97])], [(0, [98]), (4, [])]]
  names := by decide
  encoded := Encoded.cons (Pieces.split [[97]] [98]) (Encoded.cons Pieces.parent Encoded.nil)
  spread := rfl
  entries := by decide
  found := List.cons_ne_nil _ _

theorem sl_target_two : isoDirRecordSlCe twoIso twoLink.bytes 256 = (decide (twoLink.target ≠ []), twoLink.target) := by
  refine @sl_target twoIso twoLink 256 (by decide) (Or.inr ⟨?_, ?_, trivial⟩)
  · decide
  · exact fun su hsu => absurd hsu List.not_mem_nil

/-! ## Entries out of reach -/

/-- A chain of `CE` entries, one in each sector, down to an `SL` entry in sector 7. -/
def chainBytes : Nat → List UInt8
  | 0 => slEntry 0 [(0, [97])] ++ List.replicate 20 0
  | n + 1 => ceEntry (UInt8.ofNat (n + 7)) 28

def chainArea : Nat → SuArea
  | 0 => .last [slEntry 0 [(0, [97])]]
  | n + 1 => .more [] (ceEntry (UInt8.ofNat (n + 7)) 28) (chainArea n) []

theorem chainBytes_length (n : Nat) : (chainBytes n).length = 28 := by
  cases n with
  | zero => rfl
  | succ n => rfl

def chainIso : Image where
  read := fun lba => some (chainBytes (lba.toNat - 7) ++ List.replicate (sectorSize - 28) 0)
  suspEnabled := true
  suspSkip := 0
  size := by
    intro lba s hs
    cases hs
    rw [List.length_append, List.length_replicate, chainBytes_length]
    decide

theorem chainArea_bytes (n : Nat) : Area (chainBytes n) (chainArea n).own := by
  cases n with
  | zero =>
      apply Area.entry (by decide) (by decide)
      exact Area.blank (by decide)
  | succ n =>
      have hce : ∀ b : UInt8, IsEntry (ceEntry b 28) ∧ isSt (ceEntry b 28) = false := fun b => ⟨⟨show 4 ≤ 28 by decide, rfl⟩, rfl⟩
      obtain ⟨hentry, hst⟩ := hce (UInt8.ofNat (n + 7))
      rw [show chainBytes (n + 1) = ceEntry (UInt8.ofNat (n + 7)) 28 ++ [] from (List.append_nil _).symm]
      exact Area.entry hentry (fun h => absurd (hst.symm.trans h) Bool.noConfusion) (Area.blank rfl)

theorem chainArea_stored {n : Nat} (h : n < 200) : Stored chainIso (chainArea n) := by
  induction n with
  | zero => exact Stored.last (by decide)
  | succ n ih =>
      have hblock : (UInt8.ofNat (n + 7)).toNat = n + 7 := by
        rw [UInt8.toNat_ofNat']
        exact Nat.mod_eq_of_lt (by omega)
      have hread : rrReadBytes chainIso (n + 7) 0 (chainBytes n).length = some (chainBytes n) := by
        apply rrReadBytes_start
        · show some (chainBytes ((UInt32.ofNat (n + 7)).toNat - 7) ++ _) = _
          rw [UInt32.toNat_ofNat', Nat.mod_eq_of_lt (by omega), Nat.add_sub_cancel]
        · intro hnil
          have := chainBytes_length n
          rw [hnil] at this
          cases this
      obtain ⟨hblockField, hoffset, hlength⟩ := ceEntry_fields (UInt8.ofNat (n + 7)) 28
      apply Stored.more (fun su hsu => absurd hsu List.not_mem_nil) rfl (fun su hsu => absurd hsu List.not_mem_nil) _
        (chainArea_bytes n) (ih (by omega))
      rw [hblockField, hoffset, hlength, hblock]
      rw [chainBytes_length] at hread
      exact hread

/-- The record of a link to `a`, whose `SL` entry stands in the ninth continuation. -/
def chainLink : LinkRecord chainIso where
  bytes := fileRecord (chainBytes 9)
  area := chainArea 9
  enabled := rfl
  whole := by decide
  long := by decide
  fits := by decide
  holds := by
    have hbytes : ((fileRecord (chainBytes 9)).take (recLen (fileRecord (chainBytes 9)))).drop
        (isoSuaOffset (fileRecord (chainBytes 9)) + chainIso.suspSkip) = chainBytes 9 := by decide
    rw [hbytes]
    exact chainArea_bytes 9
  stored := chainArea_stored (by decide)
  root := false
  comps := [[97]]
  records := [(0, [97])]
  groups := [[(0, [97])]]
  names := by decide
  encoded := Encoded.cons (Pieces.split [] [97]) Encoded.nil
  spread := rfl
  entries := by decide
  found := List.cons_ne_nil _ _

def earlyIso : Image := imageOf 7 (slEntry 0 [(0, [98])]) (by decide)

/-- The record of a link to `a/b`, whose `CE` entry stands before its own `SL` entry. -/
def earlyLink : LinkRecord earlyIso where
  bytes := fileRecord (ceEntry 7 8 ++ slEntry 1 [(0, [97])])
  area := .more [] (ceEntry 7 8) (.last [slEntry 0 [(0, [98])]]) [slEntry 1 [(0, [97])]]
  enabled := rfl
  whole := by decide
  long := by decide
  fits := by decide
  holds := by
    have hbytes : ((fileRecord (ceEntry 7 8 ++ slEntry 1 [(0, [97])])).take
          (recLen (fileRecord (ceEntry 7 8 ++ slEntry 1 [(0, [97])])))).drop
        (isoSuaOffset (fileRecord (ceEntry 7 8 ++ slEntry 1 [(0, [97])])) + earlyIso.suspSkip) =
          ceEntry 7 8 ++ (slEntry 1 [(0, [97])] ++ []) := by decide
    rw [hbytes]
    apply Area.entry (by decide) (by decide)
    exact Area.entry (by decide) (by decide) (Area.blank (by decide))
  stored := by
    have hread := @rrReadBytes_imageOf 7 (slEntry 0 [(0, [98])]) (by decide) (by decide)
    have hbuf : Area (slEntry 0 [(0, [98])] ++ []) [slEntry 0 [(0, [98])]] :=
      Area.entry (by decide) (by decide) (Area.blank (by decide))
    obtain ⟨hblock, hoffset, hlength⟩ := ceEntry_fields 7 8
    apply Stored.more (by decide) (by decide) (by decide) _ hbuf (Stored.last (by decide))
    rw [hblock, hoffset, hlength]
    exact hread
  root := false
  comps := [[97], [98]]
  records := [(0, [97]), (0, [98])]
  groups := [[(0, [97])], [(0, [98])]]
  names := by decide
  encoded := Encoded.cons (Pieces.split [] [97]) (Encoded.cons (Pieces.split [] [98]) Encoded.nil)
  spread := rfl
  entries := by decide
  found := List.cons_ne_nil _ _

/-- A target that is nine continuations away is not found, and one whose continuation is announced too early
comes out in the wrong order. -/
theorem sl_target_missed : isoDirRecordSlCe chainIso chainLink.bytes 256 = (false, []) ∧ chainLink.target = [97] ∧
    isoDirRecordSlCe earlyIso earlyLink.bytes 256 = (true, [98, 47, 97]) ∧ earlyLink.target = [97, 47, 98] := by
  refine ⟨?_, by decide, ?_, by decide⟩
  · have hrun : (chainArea 9).run (rrSlVisit 256) 0 ceMaxBytes ⟨[], false, false⟩ = ⟨[], false, false⟩ := by decide +kernel
    have hwalk := @SuRecord.walk SlCtx chainIso (rrSlVisit 256) chainLink.toSuRecord ⟨[], false, false⟩
    rw [show chainLink.toSuRecord.area = chainArea 9 from rfl, hrun] at hwalk
    unfold isoDirRecordSlCe
    dsimp only []
    rw [hwalk]
    rfl
  · have hvisit : ∀ (ctx : SlCtx) (flags c : UInt8), rrSlVisit 256 ctx (slEntry flags [(0, [c])]) =
        if (runComponents 256 { ctx with found := true } [(0, [c])]).1 = false then
          runComponents 256 { ctx with found := true } [(0, [c])]
        else (flags.toNat.testBit 0, (runComponents 256 { ctx with found := true } [(0, [c])]).2) :=
      fun ctx flags c => rrSlVisit_entry ⟨show 4 ≤ 8 by decide, rfl⟩
    have hrun : earlyLink.area.run (rrSlVisit 256) 0 ceMaxBytes ⟨[], false, false⟩ = ⟨[98, 47, 97], true, true⟩ := by
      have hce : rrSlVisit 256 ⟨[], false, false⟩ (ceEntry 7 8) = (true, ⟨[], false, false⟩) := by decide
      unfold earlyLink
      simp only [SuArea.run, runEntries, hce, hvisit]
      decide +kernel
    have hwalk := @SuRecord.walk SlCtx earlyIso (rrSlVisit 256) earlyLink.toSuRecord ⟨[], false, false⟩
    rw [hrun] at hwalk
    unfold isoDirRecordSlCe
    dsimp only []
    rw [hwalk]
    rfl

end Guppy.Iso
