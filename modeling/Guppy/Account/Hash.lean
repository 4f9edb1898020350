import Guppy.Lib.Sha256
import Guppy.Vfs.Path
import Mathlib.Data.List.GetD

set_option autoImplicit false

/-! # The hash of the account tools

The SHA-256 of `src/account_util.c`: a context takes the message in pieces of any size, and works
it in a block at a time. Whatever the pieces, the result is the digest of the bytes that were put
in (`sf_suAll`).
-/

namespace Guppy.Account

open Sha256

/-- `K` -/
def K : List UInt32 :=
  [0x428a2f98, 0x71374491, 0xb5c0fbcf, 0xe9b5dba5, 0x3956c25b, 0x59f111f1, 0x923f82a4, 0xab1c5ed5,
   0xd807aa98, 0x12835b01, 0x243185be, 0x550c7dc3, 0x72be5d74, 0x80deb1fe, 0x9bdc06a7, 0xc19bf174,
   0xe49b69c1, 0xefbe4786, 0x0fc19dc6, 0x240ca1cc, 0x2de92c6f, 0x4a7484aa, 0x5cb0a9dc, 0x76f988da,
   0x983e5152, 0xa831c66d, 0xb00327c8, 0xbf597fc7, 0xc6e00bf3, 0xd5a79147, 0x06ca6351, 0x14292967,
   0x27b70a85, 0x2e1b2138, 0x4d2c6dfc, 0x53380d13, 0x650a7354, 0x766a0abb, 0x81c2c92e, 0x92722c85,
   0xa2bfe8a1, 0xa81a664b, 0xc24b8b70, 0xc76c51a3, 0xd192e819, 0xd6990624, 0xf40e3585, 0x106aa070,
   0x19a4c116, 0x1e376c08, 0x2748774c, 0x34b0bcb5, 0x391c0cb3, 0x4ed8aa4a, 0x5b9cca4f, 0x682e6ff3,
   0x748f82ee, 0x78a5636f, 0x84c87814, 0x8cc70208, 0x90befffa, 0xa4506ceb, 0xbef9a3f7, 0xc67178f2]

/-- The words of a block, as far as `tr` has them after `n` rounds of its second loop. -/
def words (b : List UInt8) : Nat → List UInt32
  | 0 => (List.range 16).map (fun i => wordOf (b.drop (4 * i)))
  | n + 1 =>
      let w := words b n
      let i := n + 16
      let s0 := rotr (w.getD (i - 15) 0) 7 ^^^ rotr (w.getD (i - 15) 0) 18 ^^^ (w.getD (i - 15) 0 >>> 3)
      let s1 := rotr (w.getD (i - 2) 0) 17 ^^^ rotr (w.getD (i - 2) 0) 19 ^^^ (w.getD (i - 2) 0 >>> 10)
      w ++ [w.getD (i - 16) 0 + s0 + w.getD (i - 7) 0 + s1]

/-- A round of the third loop of `tr`. -/
def trRound (w : List UInt32) (s : State) (i : Nat) : State :=
  let S1 := rotr s.e 6 ^^^ rotr s.e 11 ^^^ rotr s.e 25
  let ch := (s.e &&& s.f) ^^^ ((~~~s.e) &&& s.g)
  let t1 := s.h + S1 + ch + K.getD i 0 + w.getD i 0
  let S0 := rotr s.a 2 ^^^ rotr s.a 13 ^^^ rotr s.a 22
  let maj := (s.a &&& s.b) ^^^ (s.a &&& s.c) ^^^ (s.b &&& s.c)
  let t2 := S0 + maj
  { h := s.g, g := s.f, f := s.e, e := s.d + t1, d := s.c, c := s.b, b := s.a, a := t1 + t2 }

/-- `tr` -/
def tr (s : State) (b : List UInt8) : State := s.add ((List.range 64).foldl (trRound (words b 48)) s)

/-- `sha256_ctx`, with the bytes of the block that are in use. -/
structure Ctx where
  h : State
  total : Nat
  block : List UInt8
  used_lt : block.length < 64

/-- `si` -/
def si : Ctx :=
  ⟨⟨0x6a09e667, 0xbb67ae85, 0x3c6ef372, 0xa54ff53a, 0x510e527f, 0x9b05688c, 0x1f83d9ab, 0x5be0cd19⟩, 0, [], by decide⟩

/-- The loop of `su`: the state and the block after the bytes. -/
def suLoop (h : State) (block : List UInt8) (hlt : block.length < 64) (d : List UInt8) :
    State × {block : List UInt8 // block.length < 64} :=
  if hd : d.length = 0 then (h, ⟨block, hlt⟩)
  else
    let k := if d.length < 64 - block.length then d.length else 64 - block.length
    if hfull : (block ++ d.take k).length = 64 then suLoop (tr h (block ++ d.take k)) [] (by decide) (d.drop k)
    else suLoop h (block ++ d.take k) (by grind) (d.drop k)
  termination_by d.length
  decreasing_by all_goals grind

/-- `su` -/
def su (c : Ctx) (d : List UInt8) : Ctx :=
  let r := suLoop c.h c.block c.used_lt d
  ⟨r.1, (c.total + d.length) % 2 ^ 64, r.2.1, r.2.2⟩

/-- `sf` -/
def sf (c : Ctx) : List UInt8 :=
  let bits := c.total * 8 % 2 ^ 64
  let block := c.block ++ [128]
  let (h, block) :=
    if 56 < block.length then (tr c.h (block ++ List.replicate (64 - block.length) (0 : UInt8)), []) else (c.h, block)
  (tr h (block ++ List.replicate (56 - block.length) (0 : UInt8) ++
    (List.range 8).map (fun j => UInt8.ofNat (bits >>> (8 * (7 - j)))))).bytes

/-- Several calls of `su`. -/
def suAll (c : Ctx) (ds : List (List UInt8)) : Ctx := ds.foldl su c

/-! ## A block -/

theorem K_eq : K = (List.range 64).map roundWord := by decide +kernel

theorem si_h : si.h = initial := by decide +kernel

theorem words_spec (b : List UInt8) (n : Nat) : (words b n).length = n + 16 ∧
    ∀ t, t < n + 16 → (words b n).getD t 0 = schedule b t := by
  induction n with
  | zero =>
      refine ⟨rfl, fun t ht => ?_⟩
      rw [schedule, if_pos (by omega), words, List.getD_eq_getElem _ _ (by simpa using ht)]
      simp
  | succ n ih =>
      obtain ⟨hlen, hget⟩ := ih
      refine ⟨by rw [words, List.length_append, hlen]; rfl, fun t ht => ?_⟩
      rw [words]
      by_cases hlt : t < n + 16
      · rw [List.getD_append _ _ _ _ (by omega)]
        exact hget t hlt
      · -- the new word
        obtain rfl : t = n + 16 := by omega
        rw [List.getD_append_right _ _ _ _ (by omega), hlen, Nat.sub_self, List.getD_cons_zero,
          hget _ (by omega), hget _ (by omega), hget _ (by omega), hget _ (by omega)]
        conv_rhs => rw [schedule, if_neg (by omega)]
        unfold smallSigma0 smallSigma1
        ac_rfl

theorem K_getD {t : Nat} (ht : t < 64) : K.getD t 0 = roundWord t := by
  rw [K_eq, List.getD_eq_getElem _ _ (by simpa using ht)]
  simp

/-- The rounds, with the words that the schedule has. -/
theorem foldl_trRound {b : List UInt8} {w : List UInt32} (hw : ∀ t, t < 64 → w.getD t 0 = schedule b t) (l : List Nat) :
    ∀ (s : State), (∀ t ∈ l, t < 64) →
      l.foldl (trRound w) s = l.foldl (fun s t => round s (roundWord t) (schedule b t)) s := by
  induction l with
  | nil =>
      intro s _
      rw [List.foldl_nil, List.foldl_nil]
  | cons t l ih =>
      intro s hl
      have ht : t < 64 := hl t (List.mem_cons_self ..)
      have hstep : trRound w s t = round s (roundWord t) (schedule b t) := by
        unfold trRound Sha256.round bigSigma0 bigSigma1 ch maj
        rw [K_getD ht, hw t ht]
      rw [List.foldl_cons, List.foldl_cons, hstep]
      exact ih _ (fun t ht => hl t (List.mem_cons_of_mem _ ht))

theorem tr_eq (s : State) (b : List UInt8) : tr s b = compress s b := by
  have hw : ∀ t, t < 64 → (words b 48).getD t 0 = schedule b t := fun t ht => (words_spec b 48).2 t (by omega)
  exact congrArg s.add (foldl_trRound hw _ s (fun t ht => List.mem_range.mp ht))

/-! ## A message -/

/-- The context after a message: the whole blocks are worked in, and the rest is kept. -/
structure Took (c : Ctx) (msg : List UInt8) : Prop where
  split : ∃ n full, full.length = 64 * n ∧ msg = full ++ c.block ∧ c.h = process initial full
  total : c.total = msg.length % 2 ^ 64

theorem took_si : Took si [] := ⟨⟨0, [], rfl, rfl, si_h.trans (process_short (by decide)).symm⟩, rfl⟩

theorem suLoop_spec (m : Nat) : ∀ {d : List UInt8} {h : State} {block full : List UInt8} {n : Nat} (_ : d.length = m)
    (hlt : block.length < 64), full.length = 64 * n → h = process initial full →
    ∃ n' full', full'.length = 64 * n' ∧ full ++ block ++ d = full' ++ (suLoop h block hlt d).2.1 ∧
      (suLoop h block hlt d).1 = process initial full' := by
  induction m using Nat.strong_induction_on with
  | _ m ih =>
      intro d h block full n hm hlt hfull hh
      rw [suLoop]
      split
      · rename_i hd
        obtain rfl : d = [] := List.length_eq_zero_iff.mp hd
        exact ⟨n, full, hfull, List.append_nil _, hh⟩
      · rename_i hd
        dsimp only []
        obtain ⟨k, hk⟩ : ∃ k, (if d.length < 64 - block.length then d.length else 64 - block.length) = k := ⟨_, rfl⟩
        simp only [hk]
        have hdrop : (d.drop k).length < m := by
          rw [List.length_drop]
          split at hk <;> omega
        have hjoin : full ++ block ++ d = full ++ (block ++ d.take k) ++ d.drop k := by
          rw [← List.append_assoc full block, List.append_assoc (full ++ block), List.take_append_drop]
        split
        · rename_i hfull64
          -- the block is full, and it is worked in
          have hlen' : (full ++ (block ++ d.take k)).length = 64 * (n + 1) := by
            rw [List.length_append, hfull, hfull64]
            ring
          have hone := @process_block (process initial full) _ [] hfull64
          rw [List.append_nil, @process_short _ [] (by decide)] at hone
          have hh' : tr h (block ++ d.take k) = process initial (full ++ (block ++ d.take k)) := by
            rw [process_append n hfull, hone, tr_eq, hh]
          obtain ⟨n', full', h₁, h₂, h₃⟩ := ih _ hdrop rfl (show ([] : List UInt8).length < 64 by decide) hlen' hh'
          refine ⟨n', full', h₁, ?_, h₃⟩
          rw [hjoin, ← h₂, List.append_nil]
        · rename_i hnot
          have hlt' : (block ++ d.take k).length < 64 := by
            rw [List.length_append, List.length_take] at hnot ⊢
            split at hk <;> omega
          obtain ⟨n', full', h₁, h₂, h₃⟩ := ih _ hdrop rfl hlt' hfull hh
          exact ⟨n', full', h₁, hjoin.trans h₂, h₃⟩

theorem took_su {c : Ctx} {msg : List UInt8} (h : Took c msg) (d : List UInt8) : Took (su c d) (msg ++ d) := by
  obtain ⟨⟨n, full, hfull, hmsg, hh⟩, htotal⟩ := h
  obtain ⟨n', full', h₁, h₂, h₃⟩ := suLoop_spec d.length rfl c.used_lt hfull hh
  refine ⟨⟨n', full', h₁, hmsg ▸ h₂, h₃⟩, ?_⟩
  show (c.total + d.length) % 2 ^ 64 = _
  rw [htotal, List.length_append, Nat.mod_add_mod]

theorem took_suAll (ds : List (List UInt8)) : ∀ {c : Ctx} {msg : List UInt8}, Took c msg →
    Took (suAll c ds) (msg ++ ds.flatten) := by
  induction ds with
  | nil =>
      intro c msg h
      rwa [List.flatten_nil, List.append_nil]
  | cons d ds ih =>
      intro c msg h
      rw [List.flatten_cons, ← List.append_assoc]
      exact ih (took_su h d)

theorem lengthBytes_mod (n : Nat) :
    (List.range 8).map (fun j => UInt8.ofNat ((n % 2 ^ 64) >>> (8 * (7 - j)))) = lengthBytes n := by
  unfold lengthBytes
  refine List.map_congr_left (fun j hj => ?_)
  have hj8 : j < 8 := List.mem_range.mp hj
  rw [← UInt8.toNat_inj, UInt8.toNat_ofNat', UInt8.toNat_ofNat', Nat.shiftRight_eq_div_pow]
  rw [show 256 ^ (7 - j) = 2 ^ (8 * (7 - j)) by rw [Nat.pow_mul]]
  obtain ⟨m, hm⟩ : ∃ m, 64 = 8 * (7 - j) + (8 + m) := ⟨8 * j, by omega⟩
  rw [hm, Nat.pow_add 2 (8 * (7 - j)), Nat.mod_mul_right_div_self, Nat.mod_mod_of_dvd]
  exact ⟨2 ^ m, Nat.pow_add ..⟩

/-- The digest of the bytes that were put in. -/
theorem sf_took {c : Ctx} {msg : List UInt8} (h : Took c msg) : sf c = digest msg := by
  obtain ⟨⟨n, full, hfull, hmsg, hh⟩, htotal⟩ := h
  have hlt := c.used_lt
  have hlen : msg.length = 64 * n + c.block.length := by rw [hmsg, List.length_append, hfull]
  have hbits : (List.range 8).map (fun j => UInt8.ofNat ((c.total * 8 % 2 ^ 64) >>> (8 * (7 - j)))) =
      lengthBytes (8 * msg.length) := by
    rw [← lengthBytes_mod, htotal, Nat.mod_mul_mod, Nat.mul_comm]
  have hmod : msg.length % 64 = c.block.length := by omega
  have hlb : (lengthBytes (8 * msg.length)).length = 8 := by
    rw [lengthBytes, List.length_map, List.length_range]
  obtain ⟨z, hz⟩ : ∃ z, z = (119 - c.block.length) % 64 := ⟨_, rfl⟩
  have hpad : process initial (pad msg) = process c.h (c.block ++ [128] ++ List.replicate z 0 ++ lengthBytes (8 * msg.length)) := by
    rw [hh, ← process_append n hfull, pad, hmod, ← hz, hmsg]
    simp only [List.append_assoc]
  have hone : ∀ (s : State) (block : List UInt8), block.length = 64 → process s block = tr s block := by
    intro s block hblock
    have := @process_block s block [] hblock
    rwa [List.append_nil, @process_short _ [] (by decide), ← tr_eq] at this
  have hused : (c.block ++ [128]).length = c.block.length + 1 := by rw [List.length_append, List.length_singleton]
  unfold sf digest
  dsimp only []
  rw [hbits, hpad, hused]
  by_cases hbig : 56 < c.block.length + 1
  · -- the length does not fit, and the padding takes another block
    have hgroup : c.block ++ [128] ++ List.replicate z 0 ++ lengthBytes (8 * msg.length) =
        c.block ++ [128] ++ List.replicate (64 - (c.block.length + 1)) 0 ++
          (List.replicate 56 0 ++ lengthBytes (8 * msg.length)) := by
      rw [show z = 64 - (c.block.length + 1) + 56 by omega, ← List.replicate_append_replicate]
      simp only [List.append_assoc]
    have hfirst : (c.block ++ [128] ++ List.replicate (64 - (c.block.length + 1)) (0 : UInt8)).length = 64 := by
      rw [List.length_append, List.length_replicate, hused]
      omega
    have hlast : (List.replicate 56 (0 : UInt8) ++ lengthBytes (8 * msg.length)).length = 64 := by
      rw [List.length_append, List.length_replicate, hlb]
    rw [if_pos hbig]
    dsimp only []
    rw [List.length_nil, Nat.sub_zero, List.nil_append, hgroup, process_block hfirst, ← tr_eq, hone _ _ hlast]
  · have hz' : z = 56 - (c.block.length + 1) := by omega
    rw [if_neg hbig]
    dsimp only []
    rw [hused, hz', hone]
    rw [List.length_append, List.length_append, List.length_replicate, hused, hlb]
    omega

/-- Whatever the pieces. -/
theorem sf_suAll (ds : List (List UInt8)) : sf (suAll si ds) = digest ds.flatten := by
  have := took_suAll ds took_si
  rw [List.nil_append] at this
  exact sf_took this

end Guppy.Account
