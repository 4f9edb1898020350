import Guppy.Account.Hash

set_option autoImplicit false

/-! # Password hashes

`account_sha256_crypt` of `src/account_util.c` beside the SHA-256 crypt scheme with its default
number of rounds. The scheme goes through five digests. The first of them takes the password, the
salt, as many bytes of an alternate digest as the password has, and one more piece for each binary
digit of that number. The code leaves 32 bytes out of it when the length is a multiple of 32.
-/

namespace Guppy.Account

open Vfs Sha256

def dollar : UInt8 := 36

/-! ## The scheme -/

namespace Scheme

/-- The first `n` bytes of a digest that is repeated. -/
def repeatTo (n : Nat) (d : List UInt8) : List UInt8 := (List.range n).map (fun i => d.getD (i % d.length) 0)

/-- For each binary digit of `n`, lowest first: the digest for a one and the password for a zero. -/
def binaryPieces (b password : List UInt8) (n : Nat) : List UInt8 :=
  if 0 < n then (if n % 2 = 1 then b else password) ++ binaryPieces b password (n / 2) else []
  termination_by n

def alternate (password salt : Text) : List UInt8 := digest (password ++ salt ++ password)

/-- What the first digest is of. -/
def firstInput (password salt : Text) : List UInt8 :=
  password ++ salt ++ repeatTo password.length (alternate password salt) ++
    binaryPieces (alternate password salt) password password.length

def passwordBytes (password : Text) : List UInt8 :=
  repeatTo password.length (digest (List.replicate password.length password).flatten)

def saltBytes (salt : Text) (first : List UInt8) : List UInt8 :=
  repeatTo salt.length (digest (List.replicate (16 + (first.getD 0 0).toNat) salt).flatten)

/-- What a round makes of the result of the one before. -/
def roundOf (p s : List UInt8) (c : List UInt8) (i : Nat) : List UInt8 :=
  digest ((if i % 2 = 1 then p else c) ++ (if i % 3 = 0 then [] else s) ++ (if i % 7 = 0 then [] else p) ++
    (if i % 2 = 1 then c else p))

def rounds : Nat := 5000

/-- The alphabet of the result: a dot, a slash, the digits and the letters. -/
def alphabet (v : Nat) : UInt8 :=
  if v < 12 then UInt8.ofNat (46 + v) else if v < 38 then UInt8.ofNat (53 + v) else UInt8.ofNat (59 + v)

/-- Three bytes as `n` characters, the lowest six bits first. -/
def encode (b₂ b₁ b₀ : UInt8) (n : Nat) : Text :=
  (List.range n).map (fun k => alphabet ((b₂.toNat * 65536 + b₁.toNat * 256 + b₀.toNat) / 64 ^ k % 64))

/-- The bytes of the digest go ten apart, and the last two with a zero. -/
def encodeDigest (c : List UInt8) : Text :=
  (List.range 10).flatMap (fun i =>
    encode (c.getD (21 * i % 30) 0) (c.getD ((21 * i + 10) % 30) 0) (c.getD ((21 * i + 20) % 30) 0) 4) ++
    encode 0 (c.getD 31 0) (c.getD 30 0) 3

/-- The hash of a password with a salt. -/
def crypt (password salt : Text) : Text :=
  let first := digest (firstInput password salt)
  let c := (List.range rounds).foldl (roundOf (passwordBytes password) (saltBytes salt first)) first
  [36, 53, 36] ++ salt ++ [36] ++ encodeDigest c

end Scheme

/-! ## The code -/

/-- `b64t` -/
def b64t : Text :=
  "./0123456789ABCDEFGHIJKLMNOPQRSTUVWXYZabcdefghijklmnopqrstuvwxyz".toList.map (fun c => UInt8.ofNat c.toNat)

/-- The loop of `b64_24`. -/
def b64Loop : Nat → Nat → Text
  | 0, _ => []
  | n + 1, w => b64t.getD (w % 64) 0 :: b64Loop n (w / 64)

/-- `b64_24` -/
def b64_24 (b2 b1 b0 : UInt8) (n : Nat) : Text := b64Loop n (b2.toNat * 65536 + b1.toNat * 256 + b0.toNat)

/-- The salt as it is used. -/
def saltOf (saltIn : Text) : Text := (saltIn.takeWhile (· ≠ dollar)).take 16

/-- The digest `B` of the code. -/
def digestB (password salt : Text) : List UInt8 := sf (suAll si [password, salt, password])

/-- The loop that adds the whole of `B` for every 32 bytes. -/
def wholeDigests (b : List UInt8) (n : Nat) : List (List UInt8) :=
  if 32 < n then b.take 32 :: wholeDigests b (n - 32) else []
  termination_by n

/-- The loop over the binary digits of the length. -/
def binaryDigits (b password : List UInt8) (n : Nat) : List (List UInt8) :=
  if 0 < n then (if n % 2 = 1 then b.take 32 else password) :: binaryDigits b password (n / 2) else []
  termination_by n

/-- What the first digest is updated with. -/
def firstUpdates (password salt : Text) : List (List UInt8) :=
  [password, salt] ++ wholeDigests (digestB password salt) password.length ++
    [(digestB password salt).take (password.length % 32)] ++ binaryDigits (digestB password salt) password password.length

def digestA (password salt : Text) : List UInt8 := sf (suAll si (firstUpdates password salt))

/-- The bytes that the code makes of a digest, `P` and `S`. -/
def spread (n : Nat) (d : List UInt8) : List UInt8 := (List.range n).map (fun i => d.getD (i % 32) 0)

def bytesP (password : Text) : List UInt8 :=
  spread password.length (sf (suAll si (List.replicate password.length password)))

def bytesS (salt : Text) (a : List UInt8) : List UInt8 :=
  spread salt.length (sf (suAll si (List.replicate (16 + (a.getD 0 0).toNat) salt)))

/-- What a round updates its digest with. -/
def roundUpdates (p s c : List UInt8) (i : Nat) : List (List UInt8) :=
  [if i % 2 = 1 then p else c] ++ (if i % 3 ≠ 0 then [s] else []) ++ (if i % 7 ≠ 0 then [p] else []) ++
    [if i % 2 = 1 then c else p]

def encodeC (c : List UInt8) : Text :=
  b64_24 (c.getD 0 0) (c.getD 10 0) (c.getD 20 0) 4 ++ b64_24 (c.getD 21 0) (c.getD 1 0) (c.getD 11 0) 4 ++
  b64_24 (c.getD 12 0) (c.getD 22 0) (c.getD 2 0) 4 ++ b64_24 (c.getD 3 0) (c.getD 13 0) (c.getD 23 0) 4 ++
  b64_24 (c.getD 24 0) (c.getD 4 0) (c.getD 14 0) 4 ++ b64_24 (c.getD 15 0) (c.getD 25 0) (c.getD 5 0) 4 ++
  b64_24 (c.getD 6 0) (c.getD 16 0) (c.getD 26 0) 4 ++ b64_24 (c.getD 27 0) (c.getD 7 0) (c.getD 17 0) 4 ++
  b64_24 (c.getD 18 0) (c.getD 28 0) (c.getD 8 0) 4 ++ b64_24 (c.getD 9 0) (c.getD 19 0) (c.getD 29 0) 4 ++
  b64_24 0 (c.getD 31 0) (c.getD 30 0) 3

/-- `account_sha256_crypt` into a buffer of `outCap` bytes. -/
def accountSha256Crypt (password saltIn : Text) (outCap : Nat) : Option Text :=
  if outCap < 64 then none
  else
    let salt := saltOf saltIn
    let a := digestA password salt
    let c := (List.range 5000).foldl (fun c i => sf (suAll si (roundUpdates (bytesP password) (bytesS salt a) c i))) a
    let out := [36, 53, 36] ++ salt ++ [36] ++ encodeC c
    if out.length < outCap then some out else none

/-! ## The encoding -/

theorem b64t_eq : b64t = (List.range 64).map Scheme.alphabet := by decide +kernel

theorem b64t_getD {v : Nat} (h : v < 64) : b64t.getD v 0 = Scheme.alphabet v := by
  rw [b64t_eq, List.getD_eq_getElem _ _ (by simpa using h)]
  simp

theorem b64Loop_eq (n : Nat) : ∀ w, b64Loop n w = (List.range n).map (fun k => Scheme.alphabet (w / 64 ^ k % 64)) := by
  induction n with
  | zero => exact fun _ => rfl
  | succ n ih =>
      intro w
      rw [b64Loop, ih, b64t_getD (Nat.mod_lt _ (by decide)), List.range_succ_eq_map, List.map_cons, List.map_map,
        Nat.pow_zero, Nat.div_one]
      congr 1
      refine List.map_congr_left (fun k _ => ?_)
      rw [Function.comp_apply, Nat.div_div_eq_div_mul, ← Nat.pow_succ']

theorem b64_24_eq (b₂ b₁ b₀ : UInt8) (n : Nat) : b64_24 b₂ b₁ b₀ n = Scheme.encode b₂ b₁ b₀ n := b64Loop_eq n _

theorem encodeC_eq (c : List UInt8) : encodeC c = Scheme.encodeDigest c := by
  have hrange : List.range 10 = [0, 1, 2, 3, 4, 5, 6, 7, 8, 9] := by decide
  unfold encodeC Scheme.encodeDigest
  rw [hrange]
  simp only [b64_24_eq, List.flatMap_cons, List.flatMap_nil, List.append_assoc, List.nil_append, Nat.reduceMul,
    Nat.reduceAdd, Nat.reduceMod]

theorem length_encodeC (c : List UInt8) : (encodeC c).length = 43 := by
  have h : ∀ b₂ b₁ b₀ n, (b64_24 b₂ b₁ b₀ n).length = n := by
    intro b₂ b₁ b₀ n
    rw [b64_24_eq, Scheme.encode, List.length_map, List.length_range]
  unfold encodeC
  simp only [List.length_append, h]

/-! ## The digests -/

theorem digestB_eq (password salt : Text) : digestB password salt = Scheme.alternate password salt := by
  unfold digestB Scheme.alternate
  rw [sf_suAll]
  simp

theorem length_alternate (password salt : Text) : (Scheme.alternate password salt).length = 32 := length_digest _

theorem spread_eq {d : List UInt8} (hd : d.length = 32) (n : Nat) : spread n d = Scheme.repeatTo n d := by
  unfold spread Scheme.repeatTo
  rw [hd]

theorem bytesP_eq (password : Text) : bytesP password = Scheme.passwordBytes password := by
  unfold bytesP Scheme.passwordBytes
  rw [sf_suAll, spread_eq (length_digest _)]

theorem bytesS_eq (salt : Text) (a : List UInt8) : bytesS salt a = Scheme.saltBytes salt a := by
  unfold bytesS Scheme.saltBytes
  rw [sf_suAll, spread_eq (length_digest _)]

theorem roundUpdates_eq (p s c : List UInt8) (i : Nat) :
    sf (suAll si (roundUpdates p s c i)) = Scheme.roundOf p s c i := by
  unfold roundUpdates Scheme.roundOf
  rw [sf_suAll]
  congr 1
  simp only [List.flatten_append, List.flatten_singleton, ite_not]
  congr 2
  · congr 1
    split <;> simp
  · split <;> simp

theorem binaryDigits_flatten {b password : List UInt8} (hb : b.length = 32) (n : Nat) :
    (binaryDigits b password n).flatten = Scheme.binaryPieces b password n := by
  induction n using Nat.strong_induction_on with
  | _ n ih =>
      rw [binaryDigits, Scheme.binaryPieces]
      by_cases h : 0 < n
      · rw [if_pos h, if_pos h, List.flatten_cons, ih (n / 2) (by omega), List.take_of_length_le (by omega)]
      · rw [if_neg h, if_neg h, List.flatten_nil]

/-! ## The alternate digest in the first one -/

theorem repeatTo_add {d : List UInt8} (hd : d.length = 32) (m r : Nat) (hr : r ≤ 32) :
    Scheme.repeatTo (32 * m + r) d = Scheme.repeatTo (32 * m) d ++ d.take r := by
  unfold Scheme.repeatTo
  rw [List.range_add, List.map_append, List.map_map]
  congr 1
  apply List.ext_getElem
  · rw [List.length_map, List.length_range, List.length_take]
    omega
  · intro i h₁ h₂
    rw [List.length_map, List.length_range] at h₁
    have hmod : (32 * m + i) % d.length = i := by
      rw [hd]
      omega
    rw [List.getElem_map, List.getElem_range, List.getElem_take, Function.comp_apply, hmod,
      List.getD_eq_getElem _ _ (by omega)]

theorem wholeDigests_flatten {d : List UInt8} (hd : d.length = 32) (n : Nat) :
    (wholeDigests d n).flatten = Scheme.repeatTo (32 * ((n - 1) / 32)) d := by
  induction n using Nat.strong_induction_on with
  | _ n ih =>
      rw [wholeDigests]
      by_cases h : 32 < n
      · -- one more round, at the front here and at the end there
        have hcomm : ∀ m, d ++ Scheme.repeatTo (32 * m) d = Scheme.repeatTo (32 * m) d ++ d := by
          intro m
          induction m with
          | zero => rw [Nat.mul_zero]; simp [Scheme.repeatTo]
          | succ m ihm =>
              rw [Nat.mul_succ, repeatTo_add hd m 32 le_rfl, List.take_of_length_le (by omega), ← List.append_assoc, ihm]
        rw [if_pos h, List.flatten_cons, ih (n - 32) (by omega), List.take_of_length_le (by omega), hcomm,
          show (n - 1) / 32 = (n - 32 - 1) / 32 + 1 by omega, Nat.mul_succ, repeatTo_add hd _ 32 le_rfl,
          List.take_of_length_le (by omega)]
      · rw [if_neg h, show (n - 1) / 32 = 0 by omega]
        rfl

/-- What the first digest of the code is of. -/
theorem firstUpdates_flatten (password salt : Text) :
    (firstUpdates password salt).flatten = password ++ salt ++
      Scheme.repeatTo (32 * ((password.length - 1) / 32) + password.length % 32) (Scheme.alternate password salt) ++
      Scheme.binaryPieces (Scheme.alternate password salt) password password.length := by
  have hlen := length_alternate password salt
  unfold firstUpdates
  rw [digestB_eq, repeatTo_add hlen _ _ (by omega)]
  simp only [List.flatten_append, List.flatten_cons, List.flatten_nil, List.append_nil, binaryDigits_flatten hlen,
    wholeDigests_flatten hlen, List.append_assoc]

theorem length_repeatTo (n : Nat) (d : List UInt8) : (Scheme.repeatTo n d).length = n := by
  rw [Scheme.repeatTo, List.length_map, List.length_range]

/-- The first digest takes what it should, unless the length is a multiple of 32. -/
theorem firstUpdates_eq_iff (password salt : Text) :
    (firstUpdates password salt).flatten = Scheme.firstInput password salt ↔
      password = [] ∨ password.length % 32 ≠ 0 := by
  rw [firstUpdates_flatten, Scheme.firstInput]
  constructor
  · intro h
    have hlen := congrArg List.length h
    simp only [List.length_append, length_repeatTo] at hlen
    by_contra hcon
    rw [not_or, not_not] at hcon
    have : password.length ≠ 0 := fun h0 => hcon.1 (List.length_eq_zero_iff.mp h0)
    omega
  · intro h
    have : 32 * ((password.length - 1) / 32) + password.length % 32 = password.length := by
      rcases h with rfl | h
      · rfl
      · omega
    rw [this]

theorem saltOf_eq {saltIn : Text} (h : saltIn.length ≤ 16) (hd : dollar ∉ saltIn) : saltOf saltIn = saltIn := by
  have htake : saltIn.takeWhile (· ≠ dollar) = saltIn := by
    have := @List.takeWhile_append_of_pos _ (fun c => decide (c ≠ dollar)) saltIn [] (by
      intro c hc
      have : c ≠ dollar := fun heq => hd (heq ▸ hc)
      simpa using this)
    rwa [List.append_nil, List.takeWhile_nil, List.append_nil] at this
  unfold saltOf
  rw [htake, List.take_of_length_le h]

/-- The code makes the hash of the scheme, from the first digest that it should have, exactly when
the length of the password is not a multiple of 32 other than zero. -/
theorem crypt_matches_iff (password : Text) {salt : Text} (h16 : salt.length ≤ 16) (hdollar : dollar ∉ salt) {cap : Nat}
    (hcap : 64 ≤ cap) :
    ((firstUpdates password (saltOf salt)).flatten = Scheme.firstInput password salt ∧
      accountSha256Crypt password salt cap = some (Scheme.crypt password salt)) ↔
      password = [] ∨ password.length % 32 ≠ 0 := by
  rw [saltOf_eq h16 hdollar, firstUpdates_eq_iff]
  refine ⟨And.left, fun h => ⟨h, ?_⟩⟩
  have hfirst : digestA password salt = digest (Scheme.firstInput password salt) := by
    rw [digestA, sf_suAll, (firstUpdates_eq_iff password salt).mpr h]
  unfold accountSha256Crypt
  rw [if_neg (by omega), saltOf_eq h16 hdollar]
  dsimp only []
  rw [hfirst, bytesP_eq, bytesS_eq]
  simp only [roundUpdates_eq]
  rw [if_pos]
  · rw [encodeC_eq]
    rfl
  · simp only [List.length_append, length_encodeC, List.length_cons, List.length_nil]
    omega

/-- A password of one character. -/
theorem crypt_matches_iff_one : accountSha256Crypt [97] [115] 64 = some (Scheme.crypt [97] [115]) :=
  ((@crypt_matches_iff [97] [115] (by decide) (by decide) 64 (by decide)).mpr (Or.inr (by decide))).2

/-- For a password of 32 characters the first digest lacks the alternate one. -/
theorem crypt_length_32 : (firstUpdates (List.replicate 32 97) (saltOf [115])).flatten ≠
    Scheme.firstInput (List.replicate 32 97) [115] := by
  intro h
  rw [saltOf_eq (by decide) (by decide)] at h
  rcases (firstUpdates_eq_iff _ _).mp h with h | h
  · cases h
  · exact h (by decide)

end Guppy.Account
