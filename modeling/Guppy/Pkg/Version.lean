import Guppy.Lib.Digits
import Guppy.Lib.LexSeq
import Guppy.Pkg.Depends
import Mathlib.Data.List.TakeWhile

set_option autoImplicit false

/-! # Versions are ordered by a key

`verrevcmp` walks through two texts at once. What it looks at is a sequence of numbers that each text
has for itself: the orders of the bytes up to the first digit, a zero, the value of the digits, and
so on, with zeros behind the end. The comparison is the lexicographic one of these sequences
(`revisionCompare_eq`), and the comparison of versions is that of the epoch and the sequences of the
two parts (`debVersionCompare_eq`). So it is a total preorder.
-/

namespace Guppy.Pkg

open Vfs LexSeq Digits

/-! ## The key of a text -/

/-- What `verrevcmp` looks at. -/
def key : Text → Seq Int
  | [] => const 0
  | c :: t =>
      if isDigit c = true then
        cons 0 (cons (digitsValue ((c :: t).takeWhile isDigit)) (key ((c :: t).dropWhile isDigit)))
      else cons (orderChar (some c)) (key t)
  termination_by t => t.length
  decreasing_by
    · rename_i hc
      rw [List.dropWhile_cons_of_pos hc]
      exact Nat.lt_succ_of_le (List.dropWhile_suffix _).length_le
    · exact Nat.lt_succ_self _

theorem key_nil : key [] = const 0 := by
  rw [key]

theorem key_of_nonDigit {c : UInt8} {t : Text} (h : isDigit c = false) :
    key (c :: t) = cons (orderChar (some c)) (key t) := by
  rw [key, if_neg (by simp [h])]

/-- A text that does not start with other bytes than digits: a zero, the value of its digits, and the
rest. -/
theorem key_of_digits {t : Text} (h : startsNonDigit t = false) :
    key t = cons 0 (cons (digitsValue (t.takeWhile isDigit) : Int) (key (t.dropWhile isDigit))) := by
  cases t with
  | nil =>
      rw [List.takeWhile_nil, List.dropWhile_nil, key_nil]
      show const 0 = cons 0 (cons 0 (const 0))
      rw [cons_const, cons_const]
  | cons c t =>
      have hc : isDigit c = true := by simpa [startsNonDigit] using h
      rw [key, if_pos hc]

/-- The first number of the key. -/
def headOrder (t : Text) : Int := if startsNonDigit t = true then orderChar t.head? else 0

theorem key_head (t : Text) : ∃ s, key t = cons (headOrder t) s ∧ (startsNonDigit t = true → s = key t.tail) := by
  by_cases h : startsNonDigit t = true
  · cases t with
    | nil => cases h
    | cons c t =>
        have hc : isDigit c = false := by simpa [startsNonDigit] using h
        refine ⟨key t, ?_, fun _ => rfl⟩
        rw [key_of_nonDigit hc, headOrder, if_pos h]
        rfl
  · have h' : startsNonDigit t = false := by simpa using h
    refine ⟨cons (digitsValue (t.takeWhile isDigit)) (key (t.dropWhile isDigit)), ?_, fun hn => absurd hn h⟩
    rw [headOrder, if_neg h]
    exact key_of_digits h'

/-! ## The orders of bytes -/

/-- A byte that is not a digit is before the end of the text and all digits, or behind them. -/
theorem orderChar_nonDigit {c : UInt8} (h : isDigit c = false) : orderChar (some c) = -1 ∨ 58 ≤ orderChar (some c) := by
  unfold orderChar
  dsimp only []
  split
  · exact Or.inl rfl
  · right
    split
    · rename_i halnum
      have hrange : isDigit c = true ∨ (65 ≤ c ∧ c ≤ 90) ∨ (97 ≤ c ∧ c ≤ 122) := of_decide_eq_true halnum
      have h65 : 65 ≤ c.toNat := by
        rcases hrange with hd | ⟨h₁, -⟩ | ⟨h₁, -⟩
        · rw [h] at hd
          cases hd
        · exact UInt8.le_iff_toNat_le.mp h₁
        · exact le_trans (by decide) (UInt8.le_iff_toNat_le.mp h₁)
      omega
    · omega

theorem orderChar_digit {c : UInt8} (h : isDigit c = true) : 48 ≤ orderChar (some c) ∧ orderChar (some c) ≤ 57 := by
  have hrange : 48 ≤ c ∧ c ≤ 57 := of_decide_eq_true h
  have hne : c ≠ 126 := by
    rintro rfl
    exact absurd h (by decide)
  have halnum : isAlnum c = true := by simp [isAlnum, h]
  have h₁ := UInt8.le_iff_toNat_le.mp hrange.1
  have h₂ := UInt8.le_iff_toNat_le.mp hrange.2
  unfold orderChar
  dsimp only []
  rw [if_neg hne, if_pos halnum]
  constructor
  · exact_mod_cast h₁
  · exact_mod_cast h₂

/-- The order of a text that does not start with a byte to be ordered: the code takes that of the
digit, the key a zero. -/
theorem orderChar_of_digits {t : Text} (h : startsNonDigit t = false) :
    0 ≤ orderChar t.head? ∧ orderChar t.head? ≤ 57 := by
  cases t with
  | nil => exact ⟨le_rfl, by decide⟩
  | cons c t =>
      have hc : isDigit c = true := by simpa [startsNonDigit] using h
      have := orderChar_digit hc
      exact ⟨le_trans (by decide) this.1, this.2⟩

theorem orderChar_of_nonDigit {t : Text} (h : startsNonDigit t = true) :
    orderChar t.head? = -1 ∨ 58 ≤ orderChar t.head? := by
  cases t with
  | nil => cases h
  | cons c t => exact orderChar_nonDigit (by simpa [startsNonDigit] using h)

/-- While one of the texts has a byte to be ordered, the code decides as the keys do. -/
theorem orderChar_compare {a b : Text} (h : startsNonDigit a = true ∨ startsNonDigit b = true) :
    sign (cmp (orderChar a.head?) (orderChar b.head?)) = sign (cmp (headOrder a) (headOrder b)) ∧
      (orderChar a.head? = orderChar b.head? → startsNonDigit a = true ∧ startsNonDigit b = true) := by
  unfold headOrder
  by_cases ha : startsNonDigit a = true
  · rw [if_pos ha]
    by_cases hb : startsNonDigit b = true
    · rw [if_pos hb]
      exact ⟨rfl, fun _ => ⟨ha, hb⟩⟩
    · have hoa := orderChar_of_nonDigit ha
      have hob := orderChar_of_digits (by simpa using hb)
      rw [if_neg hb]
      rcases hoa with hoa | hoa
      · rw [sign_cmp_of_lt (show orderChar a.head? < orderChar b.head? by omega),
          sign_cmp_of_lt (show orderChar a.head? < 0 by omega)]
        exact ⟨rfl, fun heq => by omega⟩
      · rw [sign_cmp_of_gt (show orderChar b.head? < orderChar a.head? by omega),
          sign_cmp_of_gt (show 0 < orderChar a.head? by omega)]
        exact ⟨rfl, fun heq => by omega⟩
  · have hb : startsNonDigit b = true := h.resolve_left ha
    have hoa := orderChar_of_digits (by simpa using ha)
    have hob := orderChar_of_nonDigit hb
    rw [if_neg ha, if_pos hb]
    rcases hob with hob | hob
    · rw [sign_cmp_of_gt (show orderChar b.head? < orderChar a.head? by omega),
        sign_cmp_of_gt (show orderChar b.head? < 0 by omega)]
      exact ⟨rfl, fun heq => by omega⟩
    · rw [sign_cmp_of_lt (show orderChar a.head? < orderChar b.head? by omega),
        sign_cmp_of_lt (show 0 < orderChar b.head? by omega)]
      exact ⟨rfl, fun heq => by omega⟩

/-! ## The inner loop -/

/-- What the inner loop leaves: a decision, or two texts that go on with digits or end. -/
theorem cmpNonDigits_spec (fuel : Nat) : ∀ {a b : Text}, a.length + b.length ≤ fuel →
    match cmpNonDigits fuel a b with
    | .error c => c = sign (cmp (key a) (key b))
    | .ok (a', b') => startsNonDigit a' = false ∧ startsNonDigit b' = false ∧ cmp (key a) (key b) = cmp (key a') (key b') ∧
        (a' = a ∧ b' = b ∨ a'.length + b'.length < a.length + b.length) := by
  induction fuel with
  | zero =>
      intro a b hfuel
      obtain rfl : a = [] := List.length_eq_zero_iff.mp (by omega)
      obtain rfl : b = [] := List.length_eq_zero_iff.mp (by omega)
      exact ⟨rfl, rfl, rfl, Or.inl ⟨rfl, rfl⟩⟩
  | succ fuel ih =>
      intro a b hfuel
      rw [cmpNonDigits]
      by_cases h : startsNonDigit a = true ∨ startsNonDigit b = true
      · rw [if_pos h]
        obtain ⟨hsign, hboth⟩ := orderChar_compare h
        obtain ⟨s, hs, hstail⟩ := key_head a
        obtain ⟨t, ht, httail⟩ := key_head b
        by_cases hne : orderChar a.head? ≠ orderChar b.head?
        · -- the first numbers of the keys differ in the same way
          rw [if_pos hne]
          show _ = sign (cmp (key a) (key b))
          rw [← sign_cmp_of_ne hne, hs, ht, cmp_cons, sign_then, hsign, if_pos]
          rw [← hsign]
          exact sign_cmp_ne_zero hne
        · rw [if_neg hne]
          have heq := not_not.mp hne
          obtain ⟨ha, hb⟩ := hboth heq
          have hkey : cmp (key a) (key b) = cmp (key a.tail) (key b.tail) := by
            rw [hs, ht, hstail ha, httail hb, cmp_cons, headOrder, headOrder, if_pos ha, if_pos hb, heq, cmp_self_eq_eq]
            rfl
          have hla : a.tail.length + 1 = a.length := by
            cases a with
            | nil => cases ha
            | cons c t => rfl
          have hlb : b.tail.length + 1 = b.length := by
            cases b with
            | nil => cases hb
            | cons c t => rfl
          have hih := @ih a.tail b.tail (by omega)
          cases hres : cmpNonDigits fuel a.tail b.tail with
          | error c =>
              rw [hres] at hih
              have hc : c = sign (cmp (key a.tail) (key b.tail)) := hih
              show c = sign (cmp (key a) (key b))
              rw [hc, hkey]
          | ok p =>
              obtain ⟨a', b'⟩ := p
              rw [hres] at hih
              obtain ⟨h₁, h₂, h₃, h₄⟩ := hih
              refine ⟨h₁, h₂, hkey.trans h₃, Or.inr ?_⟩
              rcases h₄ with ⟨rfl, rfl⟩ | h₄ <;> omega
      · rw [if_neg h]
        rw [not_or] at h
        exact ⟨by simpa using h.1, by simpa using h.2, rfl, Or.inl ⟨rfl, rfl⟩⟩

/-! ## Runs of digits -/

theorem toNat_of_isDigit {c : UInt8} (h : isDigit c = true) : 48 ≤ c.toNat ∧ c.toNat ≤ 57 := by
  have hrange : 48 ≤ c ∧ c ≤ 57 := of_decide_eq_true h
  exact ⟨UInt8.le_iff_toNat_le.mp hrange.1, UInt8.le_iff_toNat_le.mp hrange.2⟩

theorem drop_length_takeWhile (p : UInt8 → Bool) (t : Text) : t.drop (t.takeWhile p).length = t.dropWhile p := by
  have h := @List.drop_left _ (t.takeWhile p) (t.dropWhile p)
  rwa [List.takeWhile_append_dropWhile] at h

/-- Zeros before a number. -/
theorem dropZeros (t : Text) :
    digitsValue ((t.dropWhile (· = 48)).takeWhile isDigit) = digitsValue (t.takeWhile isDigit) ∧
      (t.dropWhile (· = 48)).dropWhile isDigit = t.dropWhile isDigit := by
  induction t with
  | nil => exact ⟨rfl, rfl⟩
  | cons c t ih =>
      by_cases hc : c = 48
      · subst hc
        rw [List.dropWhile_cons_of_pos (by decide), List.takeWhile_cons_of_pos (by decide),
          @List.dropWhile_cons_of_pos _ isDigit _ _ (by decide)]
        exact ⟨ih.1.trans rfl, ih.2⟩
      · rw [List.dropWhile_cons_of_neg (by simpa using hc)]
        exact ⟨rfl, rfl⟩

theorem head_dropZeros {t u : Text} {c : UInt8} (h : (t.dropWhile (· = 48)).takeWhile isDigit = c :: u) : 48 < c.toNat := by
  have hmem : c ∈ (t.dropWhile (· = 48)).takeWhile isDigit := by
    rw [h]
    exact List.mem_cons_self ..
  have hle := (toNat_of_isDigit (List.mem_takeWhile_imp hmem)).1
  have hne : c ≠ 48 := by
    rintro rfl
    have hhead : (t.dropWhile (· = 48)).head? = some 48 := by
      have hpre := List.takeWhile_prefix isDigit (l := t.dropWhile (· = 48))
      rw [h] at hpre
      obtain ⟨v, hv⟩ := hpre
      rw [← hv]
      rfl
    have := List.head?_dropWhile_not (fun c : UInt8 => decide (c = 48)) t
    rw [hhead] at this
    exact absurd this (by decide)
  have : c.toNat ≠ 48 := fun heq => hne (UInt8.toNat_inj.mp heq)
  omega

/-- A longer run of digits is a larger number when it does not start with a zero. -/
theorem digitsValue_lt {a b : Text} (ha : ∀ c ∈ a, isDigit c = true) (hb : ∀ c u, b = c :: u → 48 < c.toNat)
    (h : a.length < b.length) : digitsValue a < digitsValue b := by
  cases b with
  | nil => cases h
  | cons c u =>
      have hlt : value 10 a < 10 ^ a.length :=
        value_lt (by decide) (fun c hc => Nat.lt_succ_of_le (toNat_of_isDigit (ha c hc)).2)
      calc digitsValue a < 10 ^ a.length := hlt
        _ ≤ 10 ^ u.length := Nat.pow_le_pow_right (by decide) (Nat.le_of_lt_succ h)
        _ ≤ digitsValue (c :: u) := pow_le_value u (hb c u rfl)

/-- `strncmp`; the byte behind the end of a text is a zero. -/
def strncmp : Nat → Text → Text → Int
  | 0, _, _ => 0
  | n + 1, a, b =>
      if a.headD 0 ≠ b.headD 0 then ((a.headD 0).toNat : Int) - (b.headD 0).toNat
      else if a.headD 0 = 0 then 0 else strncmp n a.tail b.tail

theorem strncmp_foldl {da : Text} : ∀ {db ra rb : Text} {u v : Nat}, da.length = db.length →
    (∀ c ∈ da, isDigit c = true) → (∀ c ∈ db, isDigit c = true) →
    sign (cmp (da.foldl (fun v c => v * 10 + (c.toNat - 48)) u) (db.foldl (fun v c => v * 10 + (c.toNat - 48)) v)) =
      if u ≠ v then sign (cmp u v) else (strncmp da.length (da ++ ra) (db ++ rb)).sign := by
  induction da with
  | nil =>
      intro db ra rb u v hlen _ _
      obtain rfl : db = [] := List.length_eq_zero_iff.mp hlen.symm
      by_cases huv : u = v
      · rw [if_neg (not_not.mpr huv), huv]
        exact sign_cmp_self v
      · rw [if_pos huv]
        rfl
  | cons c da ih =>
      intro db ra rb u v hlen hda hdb
      cases db with
      | nil => cases hlen
      | cons d db =>
          obtain ⟨hc₁, hc₂⟩ := toNat_of_isDigit (hda c (List.mem_cons_self ..))
          obtain ⟨hd₁, hd₂⟩ := toNat_of_isDigit (hdb d (List.mem_cons_self ..))
          have hih := @ih db ra rb (u * 10 + (c.toNat - 48)) (v * 10 + (d.toNat - 48)) (Nat.succ.inj hlen)
            (fun e he => hda e (List.mem_cons_of_mem _ he)) (fun e he => hdb e (List.mem_cons_of_mem _ he))
          rw [List.foldl_cons, List.foldl_cons, hih]
          rcases Nat.lt_trichotomy u v with huv | huv | huv
          · -- the numbers before these digits decide
            rw [if_pos (by omega), if_pos (by omega), sign_cmp_of_lt huv, sign_cmp_of_lt (by omega)]
          · subst huv
            rw [if_neg (not_not.mpr rfl)]
            show _ = (if c ≠ d then (c.toNat : Int) - d.toNat
              else if c = 0 then 0 else strncmp da.length (da ++ ra) (db ++ rb)).sign
            by_cases hcd : c = d
            · subst hcd
              have hzero : c ≠ 0 := by
                rintro rfl
                exact absurd hc₁ (by decide)
              rw [if_neg (not_not.mpr rfl), if_neg (not_not.mpr rfl), if_neg hzero]
            · have hne : c.toNat ≠ d.toNat := fun heq => hcd (UInt8.toNat_inj.mp heq)
              rw [if_pos (by omega), if_pos hcd]
              rcases Nat.lt_or_gt_of_ne hne with hlt | hlt
              · rw [sign_cmp_of_lt (by omega), Int.sign_eq_neg_one_of_neg (by omega)]
              · rw [sign_cmp_of_gt (by omega), Int.sign_eq_one_of_pos (by omega)]
          · rw [if_pos (by omega), if_pos (by omega), sign_cmp_of_gt huv, sign_cmp_of_gt (by omega)]

/-- On runs of digits of one length `strncmp` decides as the values do. -/
theorem strncmp_digits {da db ra rb : Text} (hlen : da.length = db.length) (hda : ∀ c ∈ da, isDigit c = true)
    (hdb : ∀ c ∈ db, isDigit c = true) :
    (strncmp da.length (da ++ ra) (db ++ rb)).sign = sign (cmp (digitsValue da) (digitsValue db)) := by
  have h := @strncmp_foldl da db ra rb 0 0 hlen hda hdb
  rw [if_neg (not_not.mpr rfl)] at h
  exact h.symm

/-- The rounds of `verrevcmp` with the comparison of the digits that the source has. -/
theorem verrevcmp_source (fuel : Nat) (a b : Text) : verrevcmp (fuel + 1) a b =
    if a = [] ∧ b = [] then 0
    else
      match cmpNonDigits (a.length + b.length) a b with
      | .error c => c
      | .ok (a, b) =>
          let a := a.dropWhile (· = 48)
          let b := b.dropWhile (· = 48)
          let da := a.takeWhile isDigit
          let db := b.takeWhile isDigit
          if da.length ≠ db.length then (if da.length < db.length then -1 else 1)
          else
            let c := strncmp da.length a b
            if c ≠ 0 then (if c < 0 then -1 else 1) else verrevcmp fuel (a.drop da.length) (b.drop db.length) := by
  rw [verrevcmp]
  split
  · rfl
  cases cmpNonDigits (a.length + b.length) a b with
  | error c => rfl
  | ok p =>
      dsimp only []
      generalize p.1.dropWhile (· = 48) = a'
      generalize p.2.dropWhile (· = 48) = b'
      by_cases hlen : (a'.takeWhile isDigit).length = (b'.takeWhile isDigit).length
      · rw [if_neg (not_not.mpr hlen), if_neg (not_not.mpr hlen)]
        have hcmp := @strncmp_digits _ _ (a'.dropWhile isDigit) (b'.dropWhile isDigit) hlen
          (fun c hc => List.mem_takeWhile_imp hc) (fun c hc => List.mem_takeWhile_imp hc)
        rw [List.takeWhile_append_dropWhile, List.takeWhile_append_dropWhile] at hcmp
        rcases Nat.lt_trichotomy (digitsValue (a'.takeWhile isDigit)) (digitsValue (b'.takeWhile isDigit)) with hv | hv | hv
        · have hneg := Int.sign_eq_neg_one_iff_neg.mp (hcmp.trans (sign_cmp_of_lt hv))
          rw [if_pos hv.ne, if_pos hv, if_pos hneg.ne, if_pos hneg]
        · rw [hv, sign_cmp_self, Int.sign_eq_zero_iff_zero] at hcmp
          rw [if_neg (not_not.mpr hv), if_neg (not_not.mpr hcmp)]
        · have hpos := Int.sign_eq_one_iff_pos.mp (hcmp.trans (sign_cmp_of_gt hv))
          rw [if_pos hv.ne', if_neg hv.not_gt, if_pos hpos.ne', if_neg hpos.not_gt]
      · rw [if_pos hlen, if_pos hlen]

/-! ## The comparison -/

theorem verrevcmp_eq (fuel : Nat) : ∀ {a b : Text}, a.length + b.length < fuel →
    verrevcmp fuel a b = sign (cmp (key a) (key b)) := by
  induction fuel with
  | zero => exact fun h => absurd h (Nat.not_lt_zero _)
  | succ fuel ih =>
      intro a b hfuel
      rw [verrevcmp]
      by_cases hnil : a = [] ∧ b = []
      · rw [if_pos hnil, hnil.1, hnil.2, sign_cmp_self]
      rw [if_neg hnil]
      have hspec := cmpNonDigits_spec (a.length + b.length) (le_refl (a.length + b.length))
      cases hres : cmpNonDigits (a.length + b.length) a b with
      | error c =>
          rw [hres] at hspec
          exact hspec
      | ok p =>
          obtain ⟨a', b'⟩ := p
          rw [hres] at hspec
          conv_lhs => dsimp only []
          obtain ⟨ha, hb, hcmp, hlen⟩ := hspec
          obtain ⟨hva, hra⟩ := dropZeros a'
          obtain ⟨hvb, hrb⟩ := dropZeros b'
          have hda : ∀ c ∈ (a'.dropWhile (· = 48)).takeWhile isDigit, isDigit c = true :=
            fun c hc => List.mem_takeWhile_imp hc
          have hdb : ∀ c ∈ (b'.dropWhile (· = 48)).takeWhile isDigit, isDigit c = true :=
            fun c hc => List.mem_takeWhile_imp hc
          rw [drop_length_takeWhile, drop_length_takeWhile, hra, hrb]
          -- the values of the runs come next in the keys
          have hkeys : sign (cmp (key a) (key b)) =
              if sign (cmp (digitsValue (a'.takeWhile isDigit) : Int) (digitsValue (b'.takeWhile isDigit))) ≠ 0 then
                sign (cmp (digitsValue (a'.takeWhile isDigit) : Int) (digitsValue (b'.takeWhile isDigit)))
              else sign (cmp (key (a'.dropWhile isDigit)) (key (b'.dropWhile isDigit))) := by
            rw [hcmp, key_of_digits ha, key_of_digits hb, cmp_cons, cmp_cons, cmp_self_eq_eq, ← sign_then]
            rfl
          rw [hkeys]
          by_cases hruns : ((a'.dropWhile (· = 48)).takeWhile isDigit).length =
              ((b'.dropWhile (· = 48)).takeWhile isDigit).length
          · rw [if_neg (not_not.mpr hruns), hva, hvb]
            by_cases hval : digitsValue (a'.takeWhile isDigit) = digitsValue (b'.takeWhile isDigit)
            · rw [if_neg (not_not.mpr hval), hval, sign_cmp_self, if_neg (not_not.mpr rfl)]
              -- something was read of one of the texts
              apply ih
              have hshrink : ∀ {t : Text}, startsNonDigit t = false → t ≠ [] → (t.dropWhile isDigit).length < t.length := by
                intro t ht hne
                cases t with
                | nil => exact absurd rfl hne
                | cons c t =>
                    have hc : isDigit c = true := by simpa [startsNonDigit] using ht
                    rw [List.dropWhile_cons_of_pos hc]
                    exact Nat.lt_succ_of_le (List.dropWhile_suffix _).length_le
              have hla : (a'.dropWhile isDigit).length ≤ a'.length := (List.dropWhile_suffix _).length_le
              have hlb : (b'.dropWhile isDigit).length ≤ b'.length := (List.dropWhile_suffix _).length_le
              rcases hlen with ⟨rfl, rfl⟩ | hlen
              · by_cases hane : a' = []
                · have := hshrink hb (fun hbne => hnil ⟨hane, hbne⟩)
                  omega
                · have := hshrink ha hane
                  omega
              · omega
            · have hne : (digitsValue (a'.takeWhile isDigit) : Int) ≠ digitsValue (b'.takeWhile isDigit) := by
                exact_mod_cast hval
              rw [if_pos hval, if_pos (sign_cmp_ne_zero hne), sign_cmp_of_ne hne]
              simp only [Nat.cast_lt]
          · rw [if_pos hruns]
            rcases Nat.lt_or_gt_of_ne hruns with hlt | hlt
            · have hval := digitsValue_lt hda (fun c u h => head_dropZeros h) hlt
              rw [hva, hvb] at hval
              rw [if_pos hlt, sign_cmp_of_lt (by exact_mod_cast hval)]
              rfl
            · have hval := digitsValue_lt hdb (fun c u h => head_dropZeros h) hlt
              rw [hva, hvb] at hval
              rw [if_neg (by omega), sign_cmp_of_gt (by exact_mod_cast hval)]
              rfl

theorem revisionCompare_eq (a b : Text) : revisionCompare a b = sign (cmp (key a) (key b)) :=
  verrevcmp_eq _ (Nat.lt_succ_self _)

/-- The key of a version: the epoch, the sequence of the upstream part and that of the revision. -/
noncomputable def versionKey (t : Text) : ℕ ×ₗ (Seq Int ×ₗ Seq Int) :=
  toLex ((parseEpoch t).1, toLex (key ((splitRevision (parseEpoch t).2).1.take 255),
    key ((splitRevision (parseEpoch t).2).2.getD [48])))

theorem debVersionCompare_eq (a b : Text) : debVersionCompare a b = sign (cmp (versionKey a) (versionKey b)) := by
  rw [versionKey, versionKey, cmp_pair, cmp_pair, sign_then, sign_then, ← revisionCompare_eq, ← revisionCompare_eq]
  rw [debVersionCompare]
  conv_lhs => dsimp only []
  by_cases hne : (parseEpoch a).1 = (parseEpoch b).1
  · rw [if_neg (not_not.mpr hne), hne, sign_cmp_self, if_neg (not_not.mpr rfl)]
  · rw [if_pos hne, if_pos (sign_cmp_ne_zero hne), sign_cmp_of_ne hne]

/-- `deb_version_compare` is a total preorder: it is reflexive, the sign changes with the order of
the arguments, and it is transitive. -/
theorem debVersionCompare_preorder (a b c : Text) :
    debVersionCompare a a = 0 ∧ (debVersionCompare b a).sign = -(debVersionCompare a b).sign ∧
      (debVersionCompare a b ≤ 0 → debVersionCompare b c ≤ 0 → debVersionCompare a c ≤ 0) := by
  refine ⟨?_, ?_, fun hab hbc => ?_⟩
  · exact (debVersionCompare_eq a a).trans (sign_cmp_self _)
  · rw [debVersionCompare_eq, debVersionCompare_eq, sign_sign, sign_sign]
    exact sign_cmp_swap _ _
  · rw [debVersionCompare_eq, sign_cmp_le_zero] at hab hbc ⊢
    exact le_trans hab hbc

end Guppy.Pkg
