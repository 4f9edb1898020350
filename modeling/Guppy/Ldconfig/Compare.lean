import Guppy.Lib.BinarySearch
import Guppy.Pkg.Depends

set_option autoImplicit false

/-! # The order of the library cache

`cache_libcmp` of `src/pkg_ldconfig.c` compares two names byte by byte, but runs of digits by their values in 64 bits;
a digit is larger than any other byte, and the end of a name is smaller. `ent_cmp` sorts the entries by it in reverse,
then by flags and path. Both compare as keys do (`libcmp_sign`, `entCmp_sign`): the keys of names are sequences of
numbers.
-/

namespace Guppy.Ldconfig

open Vfs (Text)
open Pkg (isDigit)
open LexSeq

/-! ## The code -/

/-- `ldent_t` -/
structure Ldent where
  soname : Text
  path : Text
  flags : Int32
  deriving DecidableEq

/-- The loop over the digits of a number, in 64 bits; the text behind them. -/
def readNumber : Text → UInt64 → UInt64 × Text
  | [], v => (v, [])
  | c :: t, v => if isDigit c then readNumber t (v * 10 + UInt64.ofNat (c.toNat - 48)) else (v, c :: t)

/-- The rounds of `cache_libcmp`; each reads something of the first name. -/
def libcmpFrom : Nat → Text → Text → Int
  | _, [], q => 0 - (q.headD 0).toNat
  | 0, c :: _, q => c.toNat - (q.headD 0).toNat
  | fuel + 1, c :: p, q =>
      if isDigit c then
        if isDigit (q.headD 0) then
          let (v₁, p') := readNumber (c :: p) 0
          let (v₂, q') := readNumber q 0
          if v₁ ≠ v₂ then if v₁ < v₂ then -1 else 1
          else libcmpFrom fuel p' q'
        else 1
      else if isDigit (q.headD 0) then -1
      else if c ≠ q.headD 0 then c.toNat - (q.headD 0).toNat
      else libcmpFrom fuel p q.tail

/-- `cache_libcmp` -/
def cacheLibcmp (p q : Text) : Int := libcmpFrom p.length p q

/-- `strcmp` -/
def strcmp : Text → Text → Int
  | [], q => 0 - (q.headD 0).toNat
  | c :: p, q => if c ≠ q.headD 0 then c.toNat - (q.headD 0).toNat else strcmp p q.tail

/-- `ent_cmp` -/
def entCmp (a b : Ldent) : Int :=
  let r := cacheLibcmp b.soname a.soname
  if r ≠ 0 then r
  else if a.flags < b.flags then 1
  else if a.flags > b.flags then -1
  else strcmp a.path b.path

/-! ## Keys -/

theorem length_readNumber (t : Text) : ∀ v, (readNumber t v).2.length ≤ t.length := by
  induction t with
  | nil => exact fun _ => le_rfl
  | cons c t ih =>
      intro v
      rw [readNumber]
      split
      · exact (ih _).trans (Nat.le_succ _)
      · exact le_rfl

theorem readNumber_digit {c : UInt8} {t : Text} (hc : isDigit c = true) (v : UInt64) :
    readNumber (c :: t) v = readNumber t (v * 10 + UInt64.ofNat (c.toNat - 48)) := by
  rw [readNumber, if_pos hc]

theorem readNumber_lt {c : UInt8} {t : Text} (hc : isDigit c = true) (v : UInt64) :
    (readNumber (c :: t) v).2.length < (c :: t).length := by
  rw [readNumber_digit hc]
  exact Nat.lt_succ_of_le (length_readNumber t _)

theorem mem_readNumber {t : Text} {d : UInt8} : ∀ {v : UInt64}, d ∈ (readNumber t v).2 → d ∈ t := by
  induction t with
  | nil => exact fun h => h
  | cons c t ih =>
      intro v h
      rw [readNumber] at h
      split at h
      · exact List.mem_cons_of_mem _ (ih h)
      · exact h

/-- The key of a name: a byte counts as its value, a number as one above all bytes, and the end as zero. -/
noncomputable def libKey : Text → Seq ℕ
  | [] => const 0
  | c :: t =>
      if h : isDigit c = true then cons (256 + (readNumber (c :: t) 0).1.toNat) (libKey (readNumber (c :: t) 0).2)
      else cons c.toNat (libKey t)
termination_by t => t.length
decreasing_by
  · exact readNumber_lt h 0
  · simp

theorem libKey_nil : libKey [] = const 0 := by rw [libKey]

theorem libKey_digit {c : UInt8} {t : Text} (h : isDigit c = true) :
    libKey (c :: t) = cons (256 + (readNumber (c :: t) 0).1.toNat) (libKey (readNumber (c :: t) 0).2) := by
  rw [libKey, dif_pos h]

theorem libKey_byte {c : UInt8} {t : Text} (h : ¬ isDigit c = true) : libKey (c :: t) = cons c.toNat (libKey t) := by
  rw [libKey, dif_neg h]

/-- The key of a text that is compared byte by byte. -/
def byteKey : Text → Seq ℕ
  | [] => const 0
  | c :: t => cons c.toNat (byteKey t)

theorem sign_sub (a b : ℕ) : ((a : Int) - b).sign = sign (cmp a b) := by
  rcases lt_trichotomy a b with h | rfl | h
  · rw [sign_cmp_of_lt h, Int.sign_eq_neg_one_of_neg (by omega)]
  · rw [sign_cmp_self, Int.sub_self, Int.sign_zero]
  · rw [sign_cmp_of_gt h, Int.sign_eq_one_of_pos (by omega)]

theorem sign_cmp_cons_of_eq {x : ℕ} (s t : Seq ℕ) : sign (cmp (cons x s) (cons x t)) = sign (cmp s t) := by
  rw [cmp_cons, cmp_self_eq_eq]
  rfl

theorem sign_cmp_cons_of_ne {x y : ℕ} (h : x ≠ y) (s t : Seq ℕ) : sign (cmp (cons x s) (cons y t)) = sign (cmp x y) := by
  rw [cmp_cons, sign_then, if_pos (sign_cmp_ne_zero h)]

/-- The key of a text that is read on as if its end were a zero byte. -/
theorem byteKey_eq (q : Text) : byteKey q = cons (q.headD 0).toNat (byteKey q.tail) := by
  cases q with
  | nil => exact (cons_const 0).symm
  | cons c q => rfl

theorem strcmp_sign (p : Text) : ∀ {q : Text}, 0 ∉ p → 0 ∉ q → (strcmp p q).sign = sign (cmp (byteKey p) (byteKey q)) := by
  induction p with
  | nil =>
      intro q _ hq
      rw [strcmp, byteKey]
      refine (sign_sub 0 _).trans ?_
      cases q with
      | nil => rw [byteKey, sign_cmp_self]; rfl
      | cons d q =>
          have hd : (0 : ℕ) ≠ d.toNat := fun h => hq (by
            rw [show d = 0 from UInt8.toNat_inj.mp h.symm]
            exact List.mem_cons_self)
          rw [byteKey, ← cons_const 0, sign_cmp_cons_of_ne hd]
          rfl
  | cons c p ih =>
      intro q hp hq
      rw [strcmp, byteKey, byteKey_eq q]
      by_cases hc : c = q.headD 0
      · rw [if_neg (not_not.mpr hc), ih (fun h => hp (List.mem_cons_of_mem _ h)) (fun h => hq (List.mem_of_mem_tail h)),
          ← hc, sign_cmp_cons_of_eq]
      · have hne : c.toNat ≠ (q.headD 0).toNat := fun h => hc (UInt8.toNat_inj.mp h)
        rw [if_pos hc, sign_sub, sign_cmp_cons_of_ne hne]

/-- The key of a name that does not start with a digit. -/
theorem libKey_eq {q : Text} (h : ¬ isDigit (q.headD 0) = true) : libKey q = cons (q.headD 0).toNat (libKey q.tail) := by
  cases q with
  | nil =>
      show libKey [] = cons 0 (libKey [])
      rw [libKey_nil]
      exact (cons_const 0).symm
  | cons c q => exact libKey_byte h

theorem exists_of_digit {q : Text} (h : isDigit (q.headD 0) = true) : ∃ d q', q = d :: q' ∧ isDigit d = true := by
  cases q with
  | nil => exact absurd h (by decide)
  | cons d q => exact ⟨d, q, rfl, h⟩

/-- The rounds compare as the keys of the names do. -/
theorem libcmpFrom_sign (fuel : ℕ) : ∀ {p q : Text}, p.length ≤ fuel → 0 ∉ p → 0 ∉ q →
    (libcmpFrom fuel p q).sign = sign (cmp (libKey p) (libKey q)) := by
  have hnil (fuel : ℕ) {q : Text} (hq : 0 ∉ q) : (libcmpFrom fuel [] q).sign = sign (cmp (libKey []) (libKey q)) := by
    have hcode : libcmpFrom fuel [] q = 0 - (q.headD 0).toNat := by cases fuel <;> rfl
    rw [hcode, libKey_nil, ← cons_const 0]
    refine (sign_sub 0 _).trans ?_
    by_cases hdigit : isDigit (q.headD 0) = true
    · obtain ⟨d, q', rfl, hd⟩ := exists_of_digit hdigit
      have hpos : 0 < d.toNat := Nat.pos_of_ne_zero fun h => hq (by
        rw [show d = 0 from UInt8.toNat_inj.mp h]
        exact List.mem_cons_self)
      rw [libKey_digit hd, sign_cmp_cons_of_ne (by omega), sign_cmp_of_lt (show 0 < ((d :: q').headD 0).toNat from hpos),
        sign_cmp_of_lt (by omega)]
    · rw [libKey_eq hdigit]
      cases q with
      | nil =>
          rw [List.tail_nil, libKey_nil]
          show sign (cmp 0 0) = sign (cmp (cons 0 (const 0)) (cons 0 (const 0)))
          rw [sign_cmp_self, sign_cmp_self]
      | cons d q =>
          have hd : (0 : ℕ) ≠ ((d :: q).headD 0).toNat := fun h => hq (by
            rw [show d = 0 from UInt8.toNat_inj.mp h.symm]
            exact List.mem_cons_self)
          rw [sign_cmp_cons_of_ne hd]
  induction fuel with
  | zero =>
      intro p q hlen _ hq
      obtain rfl : p = [] := List.length_eq_zero_iff.mp (by omega)
      exact hnil 0 hq
  | succ fuel ih =>
      intro p q hlen hp hq
      cases p with
      | nil => exact hnil _ hq
      | cons c p =>
          rw [libcmpFrom]
          by_cases hc : isDigit c = true
          · rw [if_pos hc, libKey_digit hc]
            by_cases hdigit : isDigit (q.headD 0) = true
            · -- two numbers
              obtain ⟨d, q', rfl, hd⟩ := exists_of_digit hdigit
              have hshort := readNumber_lt hc (t := p) 0
              rw [if_pos hdigit, libKey_digit hd]
              dsimp only []
              by_cases hsame : (readNumber (c :: p) 0).1 = (readNumber (d :: q') 0).1
              · rw [if_neg (not_not.mpr hsame), ih (by simp at hlen hshort; omega) (fun h => hp (mem_readNumber h))
                  (fun h => hq (mem_readNumber h)), hsame, sign_cmp_cons_of_eq]
              · have hne : (readNumber (c :: p) 0).1.toNat ≠ (readNumber (d :: q') 0).1.toNat :=
                  fun h => hsame (UInt64.toNat_inj.mp h)
                rw [if_pos hsame, sign_cmp_cons_of_ne (by omega), sign_cmp_of_ne (by omega)]
                by_cases hlt : (readNumber (c :: p) 0).1 < (readNumber (d :: q') 0).1
                · rw [if_pos hlt, if_pos (by have := UInt64.lt_iff_toNat_lt.mp hlt; omega)]
                  rfl
                · rw [if_neg hlt, if_neg (by have := mt UInt64.lt_iff_toNat_lt.mpr hlt; omega)]
                  rfl
            · -- a number against a byte or the end
              have := (q.headD 0).toNat_lt
              rw [if_neg hdigit, libKey_eq hdigit, sign_cmp_cons_of_ne (by omega), sign_cmp_of_gt (by omega)]
              rfl
          · rw [if_neg hc, libKey_byte hc]
            have hbyte := c.toNat_lt
            by_cases hdigit : isDigit (q.headD 0) = true
            · obtain ⟨d, q', rfl, hd⟩ := exists_of_digit hdigit
              rw [if_pos hdigit, libKey_digit hd, sign_cmp_cons_of_ne (by omega), sign_cmp_of_lt (by omega)]
              rfl
            · rw [if_neg hdigit, libKey_eq hdigit]
              by_cases hsame : c = q.headD 0
              · rw [if_neg (not_not.mpr hsame), ih (by simpa using hlen) (fun h => hp (List.mem_cons_of_mem _ h))
                  (fun h => hq (List.mem_of_mem_tail h)), ← hsame, sign_cmp_cons_of_eq]
              · have hne : c.toNat ≠ (q.headD 0).toNat := fun h => hsame (UInt8.toNat_inj.mp h)
                rw [if_pos hsame, sign_sub, sign_cmp_cons_of_ne hne]

theorem libcmp_sign {p q : Text} (hp : 0 ∉ p) (hq : 0 ∉ q) :
    (cacheLibcmp p q).sign = sign (cmp (libKey p) (libKey q)) :=
  libcmpFrom_sign p.length le_rfl hp hq

/-! ## Entries -/

/-- An entry whose texts are C strings. -/
structure Ldent.Strings (e : Ldent) : Prop where
  soname : 0 ∉ e.soname
  path : 0 ∉ e.path

/-- The key of an entry: names and flags count downwards. -/
noncomputable def entKey (e : Ldent) : (Seq ℕ)ᵒᵈ ×ₗ (ℤᵒᵈ ×ₗ Seq ℕ) :=
  toLex (OrderDual.toDual (libKey e.soname), toLex (OrderDual.toDual e.flags.toInt, byteKey e.path))

theorem cmp_dual {β : Type} [LinearOrder β] (x y : β) :
    cmp (OrderDual.toDual x) (OrderDual.toDual y) = cmp y x := cmp_toDual x y

theorem entCmp_sign {a b : Ldent} (ha : a.Strings) (hb : b.Strings) :
    (entCmp a b).sign = sign (cmp (entKey a) (entKey b)) := by
  have hname := libcmp_sign hb.soname ha.soname
  have hzero : cacheLibcmp b.soname a.soname = 0 ↔ sign (cmp (libKey b.soname) (libKey a.soname)) = 0 := by
    rw [← hname, Int.sign_eq_zero_iff_zero]
  rw [entKey, entKey, cmp_pair, cmp_pair, cmp_dual, cmp_dual, sign_then, sign_then]
  unfold entCmp
  dsimp only []
  by_cases hr : cacheLibcmp b.soname a.soname = 0
  · rw [if_neg (not_not.mpr hr), if_neg (not_not.mpr (hzero.mp hr))]
    rcases lt_trichotomy a.flags.toInt b.flags.toInt with hlt | heq | hgt
    · rw [if_pos (Int32.lt_iff_toInt_lt.mpr hlt), sign_cmp_of_gt hlt]
      rfl
    · have hsame : a.flags = b.flags := Int32.toInt_inj.mp heq
      have hno : ¬ b.flags < b.flags := by
        rw [Int32.lt_iff_toInt_lt]
        exact lt_irrefl _
      rw [hsame, if_neg hno, if_neg hno, sign_cmp_self, if_neg (not_not.mpr rfl)]
      exact strcmp_sign _ ha.path hb.path
    · rw [if_neg (by rw [Int32.lt_iff_toInt_lt]; omega), if_pos (Int32.lt_iff_toInt_lt.mpr hgt), sign_cmp_of_lt hgt]
      rfl
  · rw [if_pos hr, if_pos (mt hzero.mpr hr), hname]

/-- `cache_libcmp` is a consistent total preorder on names. -/
theorem libcmp_isPreorder : IsPreorder (fun p : Text => 0 ∉ p) cacheLibcmp :=
  isPreorder_of_key fun _ _ hp hq => libcmp_sign hp hq

/-- `ent_cmp` is one on entries. -/
theorem entCmp_isPreorder : IsPreorder Ldent.Strings entCmp :=
  isPreorder_of_key fun _ _ ha hb => entCmp_sign ha hb

end Guppy.Ldconfig
