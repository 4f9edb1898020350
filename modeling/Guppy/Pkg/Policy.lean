import Guppy.Pkg.Version
import Mathlib

set_option autoImplicit false

/-! # The order of the Debian policy

The policy describes the comparison of versions by their parts. A version is an epoch, an upstream
version and a revision; each of the last two is cut into parts that have no digits and parts that
have only digits, in turn. The parts without digits are compared byte by byte, a tilde before the end
of the part, the end before the letters and the letters before all other bytes, and the digits are
compared as numbers. `deb_version_compare` never cuts anything; that it decides in the same way is
`debVersionCompare_policy`.
-/

namespace Guppy.Pkg

open Vfs LexSeq Digits

/-! ## The specification -/

def isLetter (c : UInt8) : Bool := (65 ≤ c ∧ c ≤ 90) ∨ (97 ≤ c ∧ c ≤ 122)

/-- Where a byte, or the end of a part, stands. -/
def rank : Option UInt8 → ℕ ×ₗ ℕ
  | none => toLex (1, 0)
  | some c => if c = 126 then toLex (0, 0) else if isLetter c = true then toLex (2, c.toNat) else toLex (3, c.toNat)

/-- The comparison of two parts without digits. -/
def comparePart : Text → Text → Ordering
  | [], [] => .eq
  | [], c :: _ => cmp (rank none) (rank (some c))
  | c :: _, [] => cmp (rank (some c)) (rank none)
  | c :: s, d :: t => (cmp (rank (some c)) (rank (some d))).then (comparePart s t)

/-- The part without digits that a text starts with. -/
def initialPart (t : Text) : Text := t.takeWhile (fun c => !isDigit c)

/-- What comes behind it. -/
def afterPart (t : Text) : Text := t.dropWhile (fun c => !isDigit c)

theorem afterPart_shrinks {t : Text} : ((afterPart t).dropWhile isDigit).length ≤ t.length ∧
    (t ≠ [] → ((afterPart t).dropWhile isDigit).length < t.length) := by
  have hle : ∀ {p : UInt8 → Bool} {t : Text}, (t.dropWhile p).length ≤ t.length := (List.dropWhile_suffix _).length_le
  unfold afterPart
  refine ⟨le_trans hle hle, fun hne => ?_⟩
  cases t with
  | nil => exact absurd rfl hne
  | cons c t =>
      by_cases hc : isDigit c = true
      · rw [List.dropWhile_cons_of_neg (by simp [hc]), List.dropWhile_cons_of_pos hc]
        exact Nat.lt_succ_of_le hle
      · rw [List.dropWhile_cons_of_pos (by simpa using hc)]
        exact Nat.lt_succ_of_le (le_trans hle hle)

/-- The comparison of upstream versions and of revisions. -/
def policyCompare (a b : Text) : Ordering :=
  if a = [] ∧ b = [] then .eq
  else
    (comparePart (initialPart a) (initialPart b)).then
      ((cmp (digitsValue ((afterPart a).takeWhile isDigit)) (digitsValue ((afterPart b).takeWhile isDigit))).then
        (policyCompare ((afterPart a).dropWhile isDigit) ((afterPart b).dropWhile isDigit)))
  termination_by a.length + b.length
  decreasing_by
    rename_i hne
    have ha := @afterPart_shrinks a
    have hb := @afterPart_shrinks b
    by_cases hnil : a = []
    · have := hb.2 (fun h => hne ⟨hnil, h⟩)
      omega
    · have := ha.2 hnil
      omega

/-- A version: what stands before the first colon is its epoch, and what stands behind the last dash
its revision. -/
structure Version where
  epoch : Option Text
  upstream : Text
  revision : Option Text
  epoch_decimal : ∀ e, epoch = some e → e ≠ [] ∧ (∀ c ∈ e, isDigit c = true) ∧ digitsValue e ≤ 18446744073709551615
  upstream_mandatory : upstream ≠ []
  upstream_short : upstream.length < 256
  no_colon : epoch = none → 58 ∉ upstream
  no_dash : revision = none → 45 ∉ upstream
  revision_no_dash : ∀ r, revision = some r → 45 ∉ r

namespace Version

/-- `[epoch:]upstream[-revision]` -/
def text (v : Version) : Text :=
  v.epoch.elim [] (fun e => e ++ [58]) ++ (v.upstream ++ v.revision.elim [] (fun r => 45 :: r))

def epochNumber (v : Version) : Nat := v.epoch.elim 0 digitsValue

/-- The order of the policy: the epochs as numbers, then the upstream versions, then the revisions, a
revision that is absent being like `0`. -/
def compare (v w : Version) : Ordering :=
  (cmp v.epochNumber w.epochNumber).then
    ((policyCompare v.upstream w.upstream).then (policyCompare (v.revision.getD [48]) (w.revision.getD [48])))

end Version

/-- The relations of a dependency. -/
inductive Relation
  | earlier
  | earlierOrEqual
  | equal
  | laterOrEqual
  | later
  deriving DecidableEq

namespace Relation

def op : Relation → Text
  | earlier => [60, 60]
  | earlierOrEqual => [60, 61]
  | equal => [61]
  | laterOrEqual => [62, 61]
  | later => [62, 62]

def holds : Relation → Ordering → Bool
  | earlier, o => o = .lt
  | earlierOrEqual, o => o ≠ .gt
  | equal, o => o = .eq
  | laterOrEqual, o => o ≠ .lt
  | later, o => o = .gt

end Relation

/-! ## Parts -/

/-- Two comparisons that decide alike. -/
theorem cmp_congr {α β : Type} [LinearOrder α] [LinearOrder β] {a b : α} {c d : β} (h₁ : a < b ↔ c < d)
    (h₂ : b < a ↔ d < c) : cmp a b = cmp c d := by
  rcases lt_trichotomy a b with h | h | h
  · rw [(cmp_eq_lt_iff _ _).mpr h, (cmp_eq_lt_iff _ _).mpr (h₁.mp h)]
  · have heq : c = d := le_antisymm (not_lt.mp (fun hd => absurd (h₂.mpr hd) (by rw [h]; exact lt_irrefl b)))
      (not_lt.mp (fun hc => absurd (h₁.mpr hc) (by rw [h]; exact lt_irrefl b)))
    rw [(cmp_eq_eq_iff _ _).mpr h, (cmp_eq_eq_iff _ _).mpr heq]
  · rw [(cmp_eq_gt_iff _ _).mpr h, (cmp_eq_gt_iff _ _).mpr (h₂.mp h)]

/-- The rank of the end, or of a byte that is not a digit, and its order in the code. -/
theorem rank_cases {x : Option UInt8} (h : ∀ c, x = some c → isDigit c = false) :
    (rank x = toLex (0, 0) ∧ orderChar x = -1) ∨ (rank x = toLex (1, 0) ∧ orderChar x = 0) ∨
      (∃ n : ℕ, rank x = toLex (2, n) ∧ orderChar x = n ∧ 65 ≤ n ∧ n < 256) ∨
      ∃ n : ℕ, rank x = toLex (3, n) ∧ orderChar x = n + 256 := by
  cases x with
  | none => exact Or.inr (Or.inl ⟨rfl, rfl⟩)
  | some c =>
      have hd := h c rfl
      unfold rank orderChar
      dsimp only []
      by_cases htilde : c = 126
      · left
        rw [if_pos htilde, if_pos htilde]
        exact ⟨rfl, rfl⟩
      · rw [if_neg htilde, if_neg htilde]
        right; right
        by_cases hl : isLetter c = true
        · left
          have halnum : isAlnum c = true := by
            unfold isAlnum
            rw [decide_eq_true_iff]
            exact Or.inr (of_decide_eq_true hl)
          have h65 : 65 ≤ c.toNat := by
            rcases of_decide_eq_true hl with ⟨h₁, -⟩ | ⟨h₁, -⟩
            · exact UInt8.le_iff_toNat_le.mp h₁
            · exact le_trans (by decide) (UInt8.le_iff_toNat_le.mp h₁)
          rw [if_pos hl, if_pos halnum]
          exact ⟨c.toNat, rfl, rfl, h65, c.toNat_lt⟩
        · right
          have halnum : ¬ isAlnum c = true := by
            intro h
            rcases of_decide_eq_true h with h | h
            · rw [hd] at h
              cases h
            · exact hl (decide_eq_true h)
          rw [if_neg hl, if_neg halnum]
          exact ⟨c.toNat, rfl, rfl⟩

/-- Ranks are compared as the orders of the code. -/
theorem cmp_rank {x y : Option UInt8} (hx : ∀ c, x = some c → isDigit c = false)
    (hy : ∀ c, y = some c → isDigit c = false) : cmp (rank x) (rank y) = cmp (orderChar x) (orderChar y) := by
  apply cmp_congr
  all_goals
    rcases rank_cases hx with ⟨hr, ho⟩ | ⟨hr, ho⟩ | ⟨n, hr, ho, hn⟩ | ⟨n, hr, ho⟩ <;>
      rcases rank_cases hy with ⟨hs, hp⟩ | ⟨hs, hp⟩ | ⟨m, hs, hp, hm⟩ | ⟨m, hs, hp⟩ <;>
        · rw [hr, hs, ho, hp, Prod.Lex.toLex_lt_toLex]
          dsimp only []
          omega

theorem key_head_zero {t : Text} (h : startsNonDigit t = false) : ∃ s, key t = cons 0 s := ⟨_, key_of_digits h⟩

/-- The keys of two texts agree with the comparison of their first parts, as far as that decides. -/
theorem cmp_key_append {s : Text} : ∀ {t ra rb : Text}, (∀ c ∈ s, isDigit c = false) → (∀ c ∈ t, isDigit c = false) →
    startsNonDigit ra = false → startsNonDigit rb = false →
    cmp (key (s ++ ra)) (key (t ++ rb)) = (comparePart s t).then (cmp (key ra) (key rb)) := by
  induction s with
  | nil =>
      intro t ra rb hs ht hra hrb
      cases t with
      | nil => rfl
      | cons d t =>
          have hd := ht d (List.mem_cons_self ..)
          obtain ⟨u, hu⟩ := key_head_zero hra
          have hrank : cmp (rank none) (rank (some d)) = cmp 0 (orderChar (some d)) :=
            cmp_rank (fun c hc => by cases hc) (fun c hc => by cases hc; exact hd)
          have hne : cmp 0 (orderChar (some d)) ≠ .eq := by
            rw [Ne, cmp_eq_eq_iff]
            rcases orderChar_nonDigit hd with h | h <;> omega
          rw [List.nil_append, List.cons_append, key_of_nonDigit hd, hu, cmp_cons, comparePart, hrank]
          cases hcmp : cmp 0 (orderChar (some d)) with
          | lt => rfl
          | eq => exact absurd hcmp hne
          | gt => rfl
  | cons c s ih =>
      intro t ra rb hs ht hra hrb
      have hc := hs c (List.mem_cons_self ..)
      cases t with
      | nil =>
          obtain ⟨u, hu⟩ := key_head_zero hrb
          have hrank : cmp (rank (some c)) (rank none) = cmp (orderChar (some c)) 0 :=
            cmp_rank (fun d hd => by cases hd; exact hc) (fun d hd => by cases hd)
          have hne : cmp (orderChar (some c)) 0 ≠ .eq := by
            rw [Ne, cmp_eq_eq_iff]
            rcases orderChar_nonDigit hc with h | h <;> omega
          rw [List.nil_append, List.cons_append, key_of_nonDigit hc, hu, cmp_cons, comparePart, hrank]
          cases hcmp : cmp (orderChar (some c)) 0 with
          | lt => rfl
          | eq => exact absurd hcmp hne
          | gt => rfl
      | cons d t =>
          have hd := ht d (List.mem_cons_self ..)
          have hrank : cmp (rank (some c)) (rank (some d)) = cmp (orderChar (some c)) (orderChar (some d)) :=
            cmp_rank (fun e he => by cases he; exact hc) (fun e he => by cases he; exact hd)
          have htail := @ih t ra rb (fun e he => hs e (List.mem_cons_of_mem _ he))
            (fun e he => ht e (List.mem_cons_of_mem _ he)) hra hrb
          rw [List.cons_append, List.cons_append, key_of_nonDigit hc, key_of_nonDigit hd, cmp_cons, comparePart, hrank,
            htail, Ordering.then_assoc]

theorem initialPart_spec (t : Text) : initialPart t ++ afterPart t = t ∧ (∀ c ∈ initialPart t, isDigit c = false) ∧
    startsNonDigit (afterPart t) = false := by
  refine ⟨List.takeWhile_append_dropWhile, fun c hc => ?_, ?_⟩
  · have := List.mem_takeWhile_imp hc
    simpa using this
  · have := List.head?_dropWhile_not (fun c => !isDigit c) t
    unfold startsNonDigit afterPart
    cases hhead : (t.dropWhile (fun c => !isDigit c)).head? with
    | none => rfl
    | some c =>
        rw [hhead] at this
        simpa using this

/-- The order of the policy is that of the keys. -/
theorem policyCompare_eq (n : Nat) : ∀ {a b : Text}, a.length + b.length ≤ n → policyCompare a b = cmp (key a) (key b) := by
  induction n with
  | zero =>
      intro a b hn
      obtain rfl : a = [] := List.length_eq_zero_iff.mp (by omega)
      obtain rfl : b = [] := List.length_eq_zero_iff.mp (by omega)
      rw [policyCompare, if_pos ⟨rfl, rfl⟩, cmp_self_eq_eq]
  | succ n ih =>
      intro a b hn
      rw [policyCompare]
      by_cases hnil : a = [] ∧ b = []
      · rw [if_pos hnil, hnil.1, hnil.2, cmp_self_eq_eq]
      rw [if_neg hnil]
      obtain ⟨hsplita, hparta, hresta⟩ := initialPart_spec a
      obtain ⟨hsplitb, hpartb, hrestb⟩ := initialPart_spec b
      have hshort : ((afterPart a).dropWhile isDigit).length + ((afterPart b).dropWhile isDigit).length ≤ n := by
        have ha := @afterPart_shrinks a
        have hb := @afterPart_shrinks b
        by_cases hane : a = []
        · have := hb.2 (fun h => hnil ⟨hane, h⟩)
          omega
        · have := ha.2 hane
          omega
      have hvalues : ∀ x y : Nat, cmp (x : Int) (y : Int) = cmp x y := fun x y => cmp_congr (by omega) (by omega)
      calc (comparePart (initialPart a) (initialPart b)).then
            ((cmp (digitsValue ((afterPart a).takeWhile isDigit)) (digitsValue ((afterPart b).takeWhile isDigit))).then
              (policyCompare ((afterPart a).dropWhile isDigit) ((afterPart b).dropWhile isDigit)))
          = (comparePart (initialPart a) (initialPart b)).then (cmp (key (afterPart a)) (key (afterPart b))) := by
            rw [ih hshort, key_of_digits hresta, key_of_digits hrestb, cmp_cons, cmp_cons, hvalues, cmp_self_eq_eq]
            rfl
        _ = cmp (key (initialPart a ++ afterPart a)) (key (initialPart b ++ afterPart b)) :=
            (cmp_key_append hparta hpartb hresta hrestb).symm
        _ = cmp (key a) (key b) := by rw [hsplita, hsplitb]

theorem revisionCompare_policy (a b : Text) : revisionCompare a b = sign (policyCompare a b) := by
  rw [revisionCompare_eq, policyCompare_eq _ le_rfl]

/-! ## Splitting a version -/

theorem takeWhile_ne_append {c : UInt8} {a b : Text} (h : c ∉ a) : (a ++ c :: b).takeWhile (· ≠ c) = a := by
  rw [List.takeWhile_append_of_pos (fun d hd => by simpa using fun heq : d = c => h (heq ▸ hd)),
    List.takeWhile_cons_of_neg (by simp), List.append_nil]

theorem not_mem_digits {e : Text} {c : UInt8} (h : ∀ d ∈ e, isDigit d = true) (hc : isDigit c = false) : c ∉ e := by
  intro hmem
  rw [h c hmem] at hc
  cases hc

/-- The epoch is split off at the first colon. -/
theorem parseEpoch_text (v : Version) : parseEpoch v.text =
    (v.epochNumber, v.upstream ++ v.revision.elim [] (fun r => 45 :: r)) := by
  unfold parseEpoch Version.text Version.epochNumber
  dsimp only []
  cases hepoch : v.epoch with
  | some e =>
      obtain ⟨-, hdigits, hmax⟩ := v.epoch_decimal e hepoch
      have hcolon := not_mem_digits hdigits (show isDigit 58 = false by decide)
      rw [Option.elim_some, Option.elim_some, List.append_assoc, List.singleton_append, takeWhile_ne_append hcolon, if_pos,
        Nat.min_eq_left hmax, ← List.drop_drop, List.drop_left]
      · rfl
      · exact ⟨List.mem_append_right _ (List.mem_cons_self ..), List.all_eq_true.mpr hdigits⟩
  | none =>
      rw [Option.elim_none, Option.elim_none, List.nil_append, if_neg]
      rintro ⟨hmem, hall⟩
      have hup := v.no_colon hepoch
      cases hrev : v.revision with
      | none =>
          rw [hrev, Option.elim_none, List.append_nil] at hmem
          exact hup hmem
      | some r =>
          -- the dash comes before the colon
          rw [hrev, Option.elim_some, List.takeWhile_append_of_pos (fun d hd => by simpa using fun heq : d = 58 => hup (heq ▸ hd)),
            List.takeWhile_cons_of_pos (by decide)] at hall
          have hdash := List.all_eq_true.mp hall 45 (List.mem_append_right _ (List.mem_cons_self ..))
          exact absurd hdash (by decide)

/-- The revision is split off at the last dash. -/
theorem splitRevision_text (v : Version) :
    splitRevision (v.upstream ++ v.revision.elim [] (fun r => 45 :: r)) = (v.upstream, v.revision) := by
  unfold splitRevision
  cases hrev : v.revision with
  | none =>
      rw [Option.elim_none, List.append_nil, if_neg (v.no_dash hrev)]
  | some r =>
      have hdash : 45 ∉ r.reverse := fun h => v.revision_no_dash r hrev (List.mem_reverse.mp h)
      have hreverse : (v.upstream ++ 45 :: r).reverse = r.reverse ++ 45 :: v.upstream.reverse := by simp
      rw [Option.elim_some, if_pos (List.mem_append_right _ (List.mem_cons_self ..))]
      dsimp only []
      rw [hreverse, takeWhile_ne_append hdash, List.reverse_reverse, List.take_left']
      rw [List.length_append, List.length_cons]
      omega

theorem text_ne_nil (v : Version) : v.text ≠ [] := by
  unfold Version.text
  intro h
  rw [List.append_eq_nil_iff, List.append_eq_nil_iff] at h
  exact v.upstream_mandatory h.2.1

/-! ## The comparison of the code -/

theorem debVersionCompare_eq_policy (v w : Version) : debVersionCompare v.text w.text = sign (v.compare w) := by
  have hv := v.upstream_short
  have hw := w.upstream_short
  unfold debVersionCompare Version.compare
  rw [parseEpoch_text, parseEpoch_text, sign_then, sign_then]
  dsimp only []
  rw [splitRevision_text, splitRevision_text]
  dsimp only []
  rw [List.take_of_length_le (by omega), List.take_of_length_le (by omega), revisionCompare_policy, revisionCompare_policy]
  by_cases heq : v.epochNumber = w.epochNumber
  · rw [if_neg (not_not.mpr heq), heq, sign_cmp_self, if_neg (not_not.mpr rfl)]
  · rw [if_pos heq, if_pos (sign_cmp_ne_zero heq), sign_cmp_of_ne heq]

theorem debVersionSatisfies_eq_policy (v w : Version) (r : Relation) :
    debVersionSatisfies v.text r.op w.text = r.holds (v.compare w) := by
  unfold debVersionSatisfies
  rw [debVersionCompare_eq_policy, if_neg]
  · dsimp only []
    cases r <;> cases v.compare w <;> rfl
  · rintro (h | h)
    · cases r <;> cases h
    · exact text_ne_nil w h

/-- `deb_version_compare` and `deb_version_satisfies` follow the order of the policy. -/
theorem debVersion_policy (v w : Version) :
    (debVersionCompare v.text w.text).sign = sign (v.compare w) ∧
      ∀ r : Relation, debVersionSatisfies v.text r.op w.text = r.holds (v.compare w) := by
  refine ⟨?_, debVersionSatisfies_eq_policy v w⟩
  rw [debVersionCompare_eq_policy, sign_sign]

end Guppy.Pkg
