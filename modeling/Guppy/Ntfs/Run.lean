import Guppy.Lib.LittleEndian

set_option autoImplicit false

/-! # Mapping pairs

`ntfs_encode_single_run` of `src/mkfs_ntfs_core.c` writes the one run of a file as a mapping pair: a byte whose
halves count the bytes of the two numbers that follow, the number of clusters and the first cluster. A reader of
mapping pairs takes the second number as a signed one, since it is the distance from the run before; so does
the checker in `tests/ntfs-check`.
-/

namespace Guppy.Ntfs

/-! ## The encoder -/

/-- The loop that counts the bytes of `v`, from `n` on and at most `room` times. -/
def byteCount (v : Nat) : (room n : Nat) → Nat
  | 0, n => n
  | room + 1, n => if v >>> (8 * n) ≠ 0 then byteCount v room (n + 1) else n

/-- `ntfs_encode_single_run`, with room for `cap` bytes -/
def ntfsEncodeSingleRun (cap : Nat) (clusters : UInt64) (lcnDelta : Int64) : Option (List UInt8) :=
  if cap < 4 ∨ clusters = 0 ∨ lcnDelta < 0 then none
  else
    let lcn := lcnDelta.toUInt64.toNat
    let lenBytes := byteCount clusters.toNat 7 1
    let offBytes := byteCount lcn 7 1
    if 1 + lenBytes + offBytes + 1 > cap then none
    else some (UInt8.ofNat (offBytes <<< 4 ||| lenBytes) ::
      (leBytes lenBytes clusters.toNat ++ (leBytes offBytes lcn ++ [0])))

/-! ## The reader -/

/-- The runs of a list of mapping pairs, each with its clusters and its first cluster, and the bytes behind the
terminator; `lcn` is the first cluster of the run before. -/
def decodeRuns : (fuel : Nat) → (lcn : Int) → List UInt8 → Option (List (Nat × Int) × List UInt8)
  | 0, _, _ => none
  | _, _, [] => none
  | fuel + 1, lcn, header :: t =>
      if header = 0 then some ([], t)
      else
        let lenBytes := header.toNat % 16
        let offBytes := header.toNat / 16
        if t.length < lenBytes + offBytes then none
        else
          let start := lcn + leSigned ((t.drop lenBytes).take offBytes)
          (decodeRuns fuel start (t.drop (lenBytes + offBytes))).map
            fun (runs, rest) => ((leValue (t.take lenBytes), start) :: runs, rest)

/-- A list of mapping pairs. Each pair takes a byte at least, so that the length is fuel enough. -/
def decodePairs (t : List UInt8) : Option (List (Nat × Int) × List UInt8) := decodeRuns t.length 0 t

/-! ## Counting bytes -/

/-- `n` bytes hold `v`, and no fewer do. -/
structure Bytes (v n : Nat) : Prop where
  pos : 1 ≤ n
  le : n ≤ 8
  holds : v < 256 ^ n
  least : n = 1 ∨ 256 ^ (n - 1) ≤ v

theorem shiftRight_ne_zero {v n : Nat} : v >>> (8 * n) ≠ 0 ↔ 256 ^ n ≤ v := by
  have hpow : 2 ^ (8 * n) = 256 ^ n := by rw [Nat.pow_mul]
  rw [Nat.shiftRight_eq_div_pow, hpow, Nat.ne_zero_iff_zero_lt, Nat.div_pos_iff]
  constructor
  · exact fun h => h.2
  · exact fun h => ⟨Nat.pos_of_ne_zero (by positivity), h⟩

theorem byteCount_spec {v : Nat} (hv : v < 256 ^ 8) (room : Nat) : ∀ n, 1 ≤ n → n + room = 8 →
    (n = 1 ∨ 256 ^ (n - 1) ≤ v) → Bytes v (byteCount v room n) := by
  induction room with
  | zero =>
      intro n hpos hsum hleast
      have h8 : n = 8 := by omega
      subst h8
      exact ⟨by rw [byteCount]; omega, by rw [byteCount], hv, hleast⟩
  | succ room ih =>
      intro n hpos hsum hleast
      rw [byteCount]
      by_cases hmore : v >>> (8 * n) ≠ 0
      · rw [if_pos hmore]
        exact ih (n + 1) (by omega) (by omega) (Or.inr (by simpa using shiftRight_ne_zero.mp hmore))
      · rw [if_neg hmore]
        exact ⟨hpos, by omega, by have := mt shiftRight_ne_zero.mpr hmore; omega, hleast⟩

theorem bytes_byteCount {v : Nat} (hv : v < 2 ^ 64) : Bytes v (byteCount v 7 1) :=
  byteCount_spec (by simpa using hv) 7 1 (by omega) (by omega) (Or.inl rfl)

/-- The top bit of the last byte is clear unless the number has the length of whole bytes. -/
theorem Bytes.top_clear {v n : Nat} (h : Bytes v n) :
    2 * v < 256 ^ n ↔ ∀ k, ¬ (2 ^ (8 * k + 7) ≤ v ∧ v < 2 ^ (8 * k + 8)) := by
  have hpow (k : Nat) : 2 ^ (8 * k + 8) = 256 ^ (k + 1) := by
    rw [show 8 * k + 8 = 8 * (k + 1) by omega, Nat.pow_mul]
  have hhalf (k : Nat) : 2 * 2 ^ (8 * k + 7) = 256 ^ (k + 1) := by
    rw [← hpow, Nat.pow_succ 2 (8 * k + 7), Nat.mul_comm]
  constructor
  · rintro hclear k ⟨hlow, hhigh⟩
    rw [hpow] at hhigh
    by_cases hk : k + 1 < n
    · -- a shorter number than the first byte allows
      have : 256 ^ (k + 1) ≤ 256 ^ (n - 1) := Nat.pow_le_pow_right (by omega) (by omega)
      rcases h.least with hone | hleast <;> omega
    · have : 256 ^ n ≤ 256 ^ (k + 1) := Nat.pow_le_pow_right (by omega) (by omega)
      have := hhalf k
      omega
  · intro hno
    obtain ⟨k, rfl⟩ : ∃ k, n = k + 1 := ⟨n - 1, by have := h.pos; omega⟩
    have hk := hno k
    rw [hpow] at hk
    have := hhalf k
    have := h.holds
    omega

/-! ## Reading a run back -/

theorem header_halves : ∀ len : Fin 9, ∀ off : Fin 9, 1 ≤ off.val →
    UInt8.ofNat (off.val <<< 4 ||| len.val) ≠ 0 ∧ (UInt8.ofNat (off.val <<< 4 ||| len.val)).toNat % 16 = len.val ∧
      (UInt8.ofNat (off.val <<< 4 ||| len.val)).toNat / 16 = off.val := by
  decide

/-- A mapping pair and a terminator are read as the run that they say. -/
theorem decodeRuns_pair {len off v w : Nat} (hlen : Bytes v len) (hoff : Bytes w off) (fuel : Nat) (rest : List UInt8) :
    decodeRuns (fuel + 2) 0 (UInt8.ofNat (off <<< 4 ||| len) :: (leBytes len v ++ (leBytes off w ++ 0 :: rest))) =
      some ([(v, leSigned (leBytes off w))], rest) := by
  obtain ⟨hne, hlow, hhigh⟩ := header_halves ⟨len, by have := hlen.le; omega⟩ ⟨off, by have := hoff.le; omega⟩ hoff.pos
  dsimp only at hne hlow hhigh
  have htake : (leBytes len v ++ (leBytes off w ++ 0 :: rest)).take len = leBytes len v := by
    apply List.take_left'
    exact length_leBytes len v
  have hdrop : (leBytes len v ++ (leBytes off w ++ 0 :: rest)).drop len = leBytes off w ++ 0 :: rest := by
    apply List.drop_left'
    exact length_leBytes len v
  have hbehind : (leBytes off w ++ 0 :: rest).drop off = 0 :: rest := by
    apply List.drop_left'
    exact length_leBytes off w
  have hmiddle : (leBytes off w ++ 0 :: rest).take off = leBytes off w := by
    apply List.take_left'
    exact length_leBytes off w
  rw [decodeRuns]
  dsimp only []
  rw [if_neg hne, hlow, hhigh, if_neg (by simp), hdrop, hmiddle, htake, ← List.drop_drop, hdrop, hbehind,
    leValue_leBytes, Nat.mod_eq_of_lt hlen.holds, decodeRuns, if_pos rfl]
  simp

/-- The encoder writes a pair of numbers in as many bytes as they need. -/
theorem ntfsEncodeSingleRun_some {cap : Nat} {clusters : UInt64} {lcnDelta : Int64} {out : List UInt8}
    (h : ntfsEncodeSingleRun cap clusters lcnDelta = some out) : clusters ≠ 0 ∧ 0 ≤ lcnDelta.toInt ∧
      ∃ len off, Bytes clusters.toNat len ∧ Bytes lcnDelta.toInt.toNat off ∧
        out = UInt8.ofNat (off <<< 4 ||| len) ::
          (leBytes len clusters.toNat ++ (leBytes off lcnDelta.toInt.toNat ++ [0])) := by
  unfold ntfsEncodeSingleRun at h
  by_cases hbad : cap < 4 ∨ clusters = 0 ∨ lcnDelta < 0
  · rw [if_pos hbad] at h
    cases h
  · rw [if_neg hbad] at h
    have hnonneg : 0 ≤ lcnDelta := Int64.not_lt.mp fun hneg => hbad (Or.inr (Or.inr hneg))
    have hint : 0 ≤ lcnDelta.toInt := by simpa using Int64.le_iff_toInt_le.mp hnonneg
    have hlcn : lcnDelta.toUInt64.toNat = lcnDelta.toInt.toNat := by
      rw [Int64.toNat_toUInt64_of_le hnonneg, Int64.toNat_toInt]
    dsimp only [] at h
    rw [hlcn] at h
    by_cases hcap : 1 + byteCount clusters.toNat 7 1 + byteCount lcnDelta.toInt.toNat 7 1 + 1 > cap
    · rw [if_pos hcap] at h
      cases h
    · rw [if_neg hcap] at h
      have hlt := lcnDelta.toInt_lt
      exact ⟨fun h0 => hbad (Or.inr (Or.inl h0)), hint, _, _, bytes_byteCount clusters.toNat_lt,
        bytes_byteCount (by omega), (Option.some.inj h).symm⟩

/-- With room for two numbers of 8 bytes, only an empty run and a negative cluster are refused. -/
theorem ntfsEncodeSingleRun_isSome {cap : Nat} {clusters : UInt64} {lcnDelta : Int64} (hcap : 18 ≤ cap)
    (hclusters : clusters ≠ 0) (hlcn : 0 ≤ lcnDelta) : (ntfsEncodeSingleRun cap clusters lcnDelta).isSome := by
  have hlen := (bytes_byteCount clusters.toNat_lt).le
  have hoff := (bytes_byteCount lcnDelta.toUInt64.toNat_lt).le
  unfold ntfsEncodeSingleRun
  rw [if_neg]
  · dsimp only []
    rw [if_neg (by omega)]
    rfl
  · rintro (h | h | h)
    · omega
    · exact hclusters h
    · exact Int64.not_le.mpr h hlcn

theorem length_run_le {cap : Nat} {clusters : UInt64} {lcnDelta : Int64} {out : List UInt8}
    (h : ntfsEncodeSingleRun cap clusters lcnDelta = some out) : out.length ≤ 18 := by
  obtain ⟨-, -, len, off, hlen, hoff, rfl⟩ := ntfsEncodeSingleRun_some h
  have := hlen.le
  have := hoff.le
  simp
  omega

/-- A run that the encoder wrote is read as its clusters, and its first cluster as a signed number. -/
theorem decodePairs_encoded {cap : Nat} {clusters : UInt64} {lcnDelta : Int64} {out : List UInt8}
    (h : ntfsEncodeSingleRun cap clusters lcnDelta = some out) : ∃ off, Bytes lcnDelta.toInt.toNat off ∧
      ∀ rest, decodePairs (out ++ rest) =
        some ([(clusters.toNat, leSigned (leBytes off lcnDelta.toInt.toNat))], rest) := by
  obtain ⟨-, -, len, off, hlen, hoff, rfl⟩ := ntfsEncodeSingleRun_some h
  refine ⟨off, hoff, fun rest => ?_⟩
  have hlist : UInt8.ofNat (off <<< 4 ||| len) :: (leBytes len clusters.toNat ++
      (leBytes off lcnDelta.toInt.toNat ++ [0])) ++ rest = UInt8.ofNat (off <<< 4 ||| len) ::
      (leBytes len clusters.toNat ++ (leBytes off lcnDelta.toInt.toNat ++ 0 :: rest)) := by simp
  have hlength : (UInt8.ofNat (off <<< 4 ||| len) :: (leBytes len clusters.toNat ++
      (leBytes off lcnDelta.toInt.toNat ++ 0 :: rest))).length = len + off + rest.length + 2 := by
    simp
    omega
  rw [hlist, decodePairs, hlength]
  exact decodeRuns_pair hlen hoff (len + off + rest.length) rest

/-- A run is read back as it was exactly when the first cluster does not need all the bits of its bytes. -/
theorem ntfsEncodeSingleRun_decodes {cap : Nat} {clusters : UInt64} {lcnDelta : Int64} {out : List UInt8}
    (h : ntfsEncodeSingleRun cap clusters lcnDelta = some out) :
    (∀ rest, decodePairs (out ++ rest) = some ([(clusters.toNat, lcnDelta.toInt)], rest)) ↔
      ∀ k, ¬ (2 ^ (8 * k + 7) ≤ lcnDelta.toInt ∧ lcnDelta.toInt < 2 ^ (8 * k + 8)) := by
  obtain ⟨off, hoff, hdecode⟩ := decodePairs_encoded h
  obtain ⟨-, hnonneg, -⟩ := ntfsEncodeSingleRun_some h
  obtain ⟨lcn, hlcn⟩ := Int.eq_ofNat_of_zero_le hnonneg
  rw [hlcn, Int.toNat_natCast] at hoff
  rw [hlcn, Int.toNat_natCast] at hdecode
  have hsigned := (leSigned_leBytes hoff.holds).trans hoff.top_clear
  rw [hlcn]
  constructor
  · intro hsame
    have hback : leSigned (leBytes off lcn) = lcn := by
      have := (hdecode []).symm.trans (hsame [])
      simpa using this
    intro k hk
    exact hsigned.mp hback k (by exact_mod_cast hk)
  · intro hclear rest
    rw [hdecode rest, hsigned.mpr (fun k hk => hclear k (by exact_mod_cast hk))]

theorem ntfsEncodeSingleRun_decodes_four :
    (∀ rest, decodePairs ([0x11, 4, 4, 0] ++ rest) = some ([(4, 4)], rest)) ↔
      ∀ k, ¬ ((2 : Int) ^ (8 * k + 7) ≤ 4 ∧ (4 : Int) < 2 ^ (8 * k + 8)) :=
  @ntfsEncodeSingleRun_decodes 24 4 4 [0x11, 4, 4, 0] (by decide)

/-- One cluster at cluster 128: the byte `0x80` is read as -128. -/
theorem run_at_128_misread : ntfsEncodeSingleRun 24 1 128 = some [0x11, 1, 0x80, 0] ∧
    decodePairs [0x11, 1, 0x80, 0] = some ([(1, -128)], []) := by
  decide

end Guppy.Ntfs
