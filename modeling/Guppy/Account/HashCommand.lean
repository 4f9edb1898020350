import Guppy.Account.Hash

set_option autoImplicit false

/-! # The hash command

The `sha256` command has a SHA-256 of its own in `src/cmd_sha256.c`. Its context keeps a block of 64
bytes, of which the first `used` are waiting, and what is behind them is left from earlier blocks. It
goes through the same states as the context of the account tools (`Same`), so the two have the same
digest, which is that of the whole message (`sha256_pieces`).
-/

namespace Guppy.Account

open Sha256

/-! ## The command's own functions -/

/-- `k256` -/
def k256 : List UInt32 :=
  [0x428a2f98, 0x71374491, 0xb5c0fbcf, 0xe9b5dba5, 0x3956c25b, 0x59f111f1, 0x923f82a4, 0xab1c5ed5,
   0xd807aa98, 0x12835b01, 0x243185be, 0x550c7dc3, 0x72be5d74, 0x80deb1fe, 0x9bdc06a7, 0xc19bf174,
   0xe49b69c1, 0xefbe4786, 0x0fc19dc6, 0x240ca1cc, 0x2de92c6f, 0x4a7484aa, 0x5cb0a9dc, 0x76f988da,
   0x983e5152, 0xa831c66d, 0xb00327c8, 0xbf597fc7, 0xc6e00bf3, 0xd5a79147, 0x06ca6351, 0x14292967,
   0x27b70a85, 0x2e1b2138, 0x4d2c6dfc, 0x53380d13, 0x650a7354, 0x766a0abb, 0x81c2c92e, 0x92722c85,
   0xa2bfe8a1, 0xa81a664b, 0xc24b8b70, 0xc76c51a3, 0xd192e819, 0xd6990624, 0xf40e3585, 0x106aa070,
   0x19a4c116, 0x1e376c08, 0x2748774c, 0x34b0bcb5, 0x391c0cb3, 0x4ed8aa4a, 0x5b9cca4f, 0x682e6ff3,
   0x748f82ee, 0x78a5636f, 0x84c87814, 0x8cc70208, 0x90befffa, 0xa4506ceb, 0xbef9a3f7, 0xc67178f2]

/-- A round of the third loop of `sha256_transform`. -/
def transformRound (w : List UInt32) (s : State) (i : Nat) : State :=
  let s1 := rotr s.e 6 ^^^ rotr s.e 11 ^^^ rotr s.e 25
  let ch := (s.e &&& s.f) ^^^ ((~~~s.e) &&& s.g)
  let t1 := s.h + s1 + ch + k256.getD i 0 + w.getD i 0
  let s0 := rotr s.a 2 ^^^ rotr s.a 13 ^^^ rotr s.a 22
  let maj := (s.a &&& s.b) ^^^ (s.a &&& s.c) ^^^ (s.b &&& s.c)
  let t2 := s0 + maj
  { h := s.g, g := s.f, f := s.e, e := s.d + t1, d := s.c, c := s.b, b := s.a, a := t1 + t2 }

/-- `sha256_transform`. Its first two loops are those of `tr`. -/
def sha256Transform (s : State) (block : List UInt8) : State :=
  s.add ((List.range 64).foldl (transformRound (words block 48)) s)

/-- `memcpy` into a block. -/
def copyInto (block : List UInt8) (off : Nat) (d : List UInt8) : List UInt8 :=
  block.take off ++ d ++ block.drop (off + d.length)

/-- `sha256_ctx_t` between two calls -/
structure Sha256Ctx where
  h : State
  total : Nat
  block : List UInt8
  used : Nat
  size : block.length = 64
  used_lt : used < 64

/-- `sha256_init`; the block is what it was. -/
def sha256Init (block : {b : List UInt8 // b.length = 64}) : Sha256Ctx :=
  ⟨⟨0x6a09e667, 0xbb67ae85, 0x3c6ef372, 0xa54ff53a, 0x510e527f, 0x9b05688c, 0x1f83d9ab, 0x5be0cd19⟩, 0, block.1, 0,
    block.2, by decide⟩

theorem length_copyInto {block d : List UInt8} {n : Nat} (h : n + d.length ≤ block.length) :
    (copyInto block n d).length = block.length := by
  unfold copyInto
  rw [List.length_append, List.length_append, List.length_take, List.length_drop]
  omega

/-- The loop of `sha256_update`. -/
def updateLoop (c : Sha256Ctx) (data : List UInt8) : Sha256Ctx :=
  if hd : data.length = 0 then c
  else
    let n := if data.length < 64 - c.used then data.length else 64 - c.used
    have hn : (data.take n).length = n ∧ c.used + n ≤ 64 ∧ 0 < n := by
      have := c.used_lt
      simp only [n, List.length_take]
      split <;> omega
    have hsize : (copyInto c.block c.used (data.take n)).length = 64 := by
      rw [length_copyInto (by rw [c.size]; omega), c.size]
    if hfull : c.used + n = 64 then
      let block := copyInto c.block c.used (data.take n)
      updateLoop ⟨sha256Transform c.h block, c.total, block, 0, hsize, by decide⟩ (data.drop n)
    else updateLoop ⟨c.h, c.total, copyInto c.block c.used (data.take n), c.used + n, hsize, by omega⟩ (data.drop n)
  termination_by data.length
  decreasing_by
    all_goals
      rw [List.length_drop]
      omega

/-- `sha256_update` -/
def sha256Update (c : Sha256Ctx) (data : List UInt8) : Sha256Ctx :=
  updateLoop { c with total := (c.total + data.length) % 2 ^ 64 } data

/-- `sha256_final` -/
def sha256Final (c : Sha256Ctx) : List UInt8 :=
  let bits := c.total * 8 % 2 ^ 64
  let block := copyInto c.block c.used [0x80]
  let used := c.used + 1
  let (h, block, used) :=
    if 56 < used then
      let block := copyInto block used (List.replicate (64 - used) 0)
      (sha256Transform c.h block, block, 0)
    else (c.h, block, used)
  let block := copyInto block used (List.replicate (56 - used) 0)
  let block := copyInto block 56 ((List.range 8).map (fun j => UInt8.ofNat (bits >>> (8 * (7 - j)))))
  (sha256Transform h block).bytes

/-! ## Side by side -/

theorem sha256Transform_eq : sha256Transform = tr := by
  have hk : k256 = K := rfl
  funext s b
  unfold sha256Transform tr transformRound trRound
  rw [hk]

/-- The two contexts have the same state and the same bytes waiting. -/
structure Same (c : Sha256Ctx) (a : Ctx) : Prop where
  h : c.h = a.h
  total : c.total = a.total
  waiting : c.block.take c.used = a.block

theorem Same.used {c : Sha256Ctx} {a : Ctx} (s : Same c a) : a.block.length = c.used := by
  have hsize := c.size
  have hlt := c.used_lt
  rw [← s.waiting, List.length_take]
  omega

theorem take_copyInto {block d : List UInt8} {n : Nat} (h : n ≤ block.length) :
    (copyInto block n d).take (n + d.length) = block.take n ++ d := by
  have hlen : (block.take n ++ d).length = n + d.length := by
    rw [List.length_append, List.length_take]
    omega
  unfold copyInto
  rw [← hlen, List.take_left]

theorem copyInto_end {block d : List UInt8} {n : Nat} (h : n + d.length = block.length) :
    copyInto block n d = block.take n ++ d := by
  unfold copyInto
  rw [h, List.drop_length, List.append_nil]

theorem updateLoop_same (m : Nat) : ∀ {c : Sha256Ctx} {data : List UInt8} {block : List UInt8} (hlt : block.length < 64),
    data.length = m → c.block.take c.used = block →
    (updateLoop c data).h = (suLoop c.h block hlt data).1 ∧ (updateLoop c data).total = c.total ∧
      (updateLoop c data).block.take (updateLoop c data).used = (suLoop c.h block hlt data).2.1 := by
  induction m using Nat.strong_induction_on with
  | _ m ih =>
      intro c data block hlt hm hblock
      have hsize := c.size
      have hused := c.used_lt
      have hlen : block.length = c.used := by
        rw [← hblock, List.length_take]
        omega
      rw [updateLoop, suLoop]
      by_cases hd : data.length = 0
      · rw [dif_pos hd, dif_pos hd]
        exact ⟨rfl, rfl, hblock⟩
      · rw [dif_neg hd, dif_neg hd]
        simp only [hlen]
        obtain ⟨k, hk⟩ : ∃ k, (if data.length < 64 - c.used then data.length else 64 - c.used) = k := ⟨_, rfl⟩
        simp only [hk]
        have htake : (data.take k).length = k := by
          rw [List.length_take]
          split at hk <;> omega
        have hdrop : (data.drop k).length < m := by
          rw [List.length_drop]
          split at hk <;> omega
        have hcopied : (copyInto c.block c.used (data.take k)).length = 64 := by
          rw [length_copyInto, hsize]
          rw [htake, hsize]
          split at hk <;> omega
        have hjoined : (block ++ data.take k).length = c.used + k := by rw [List.length_append, htake, hlen]
        by_cases hfull : c.used + k = 64
        · -- both contexts work the same block in
          have hcopy : copyInto c.block c.used (data.take k) = block ++ data.take k := by
            rw [copyInto_end (by rw [htake, hfull, hsize]), hblock]
          rw [dif_pos hfull, dif_pos (hjoined.trans hfull)]
          have hnext := @ih _ hdrop ⟨sha256Transform c.h (copyInto c.block c.used (data.take k)), c.total, _, 0, hcopied,
            by decide⟩ (data.drop k) [] (by decide) rfl rfl
          rw [← hcopy, ← sha256Transform_eq]
          exact hnext
        · have hcopy := @take_copyInto c.block (data.take k) c.used (by omega)
          rw [htake, hblock] at hcopy
          have hroom : c.used + k < 64 := by split at hk <;> omega
          rw [dif_neg hfull, dif_neg (by rw [hjoined]; exact hfull)]
          exact @ih _ hdrop ⟨c.h, c.total, _, c.used + k, hcopied, hroom⟩ (data.drop k) _
            (by rw [hjoined]; exact hroom) rfl hcopy

theorem same_init (block : {b : List UInt8 // b.length = 64}) : Same (sha256Init block) si := ⟨rfl, rfl, rfl⟩

theorem Same.update {c : Sha256Ctx} {a : Ctx} (s : Same c a) (data : List UInt8) : Same (sha256Update c data) (su a data) := by
  obtain ⟨hh, htotal, hwaiting⟩ := @updateLoop_same _ { c with total := (c.total + data.length) % 2 ^ 64 } data a.block
    a.used_lt rfl s.waiting
  refine ⟨?_, ?_, hwaiting.trans ?_⟩
  · show _ = (suLoop a.h a.block a.used_lt data).1
    rw [← s.h]
    exact hh
  · show _ = (a.total + data.length) % 2 ^ 64
    rw [← s.total]
    exact htotal
  · show _ = (suLoop a.h a.block a.used_lt data).2.1
    rw [← s.h]

theorem Same.updates (ds : List (List UInt8)) : ∀ {c : Sha256Ctx} {a : Ctx}, Same c a →
    Same (ds.foldl sha256Update c) (suAll a ds) := by
  induction ds with
  | nil => exact id
  | cons d ds ih => exact fun s => ih (s.update d)

theorem Same.final {c : Sha256Ctx} {a : Ctx} (s : Same c a) : sha256Final c = sf a := by
  have hsize := c.size
  have hused := c.used_lt
  have hlen := s.used
  -- the block with the byte that ends the message
  have hmark : (copyInto c.block c.used [128]).take (c.used + 1) = a.block ++ [128] ∧
      (copyInto c.block c.used [128]).length = 64 := by
    have htake := @take_copyInto c.block [128] c.used (by omega)
    rw [s.waiting] at htake
    exact ⟨htake, by rw [length_copyInto (by rw [List.length_singleton]; omega), hsize]⟩
  have hblock : (a.block ++ [128]).length = c.used + 1 := by rw [List.length_append, hlen, List.length_singleton]
  -- the last block, whatever was in the buffer behind its first bytes
  have hlast : ∀ (block waiting bytes : List UInt8) (n : Nat), block.length = 64 → n ≤ 56 → block.take n = waiting →
      bytes.length = 8 →
      copyInto (copyInto block n (List.replicate (56 - n) 0)) 56 bytes = waiting ++ List.replicate (56 - n) 0 ++ bytes := by
    intro block waiting bytes n hblock hn hwaiting hbytes
    have hlen56 : n + (List.replicate (56 - n) (0 : UInt8)).length = 56 := by
      rw [List.length_replicate]
      omega
    have htake := @take_copyInto block (List.replicate (56 - n) (0 : UInt8)) n (by omega)
    rw [hlen56, hwaiting] at htake
    rw [copyInto_end (by rw [length_copyInto (by omega)]; omega), htake]
  have hbits : ∀ bits : Nat, ((List.range 8).map (fun j => UInt8.ofNat (bits >>> (8 * (7 - j))))).length = 8 := by
    intro bits
    rw [List.length_map, List.length_range]
  unfold sha256Final sf
  dsimp only []
  rw [hblock, s.h, s.total, sha256Transform_eq]
  by_cases hbig : 56 < c.used + 1
  · -- no room for the length
    have hfill : c.used + 1 + (List.replicate (64 - (c.used + 1)) (0 : UInt8)).length = (copyInto c.block c.used [128]).length := by
      rw [List.length_replicate, hmark.2]
      omega
    rw [if_pos hbig, if_pos hbig]
    dsimp only []
    rw [copyInto_end hfill, hmark.1, hlast _ [] _ 0 _ (by decide) rfl (hbits _), List.length_nil]
    rw [List.length_append, hblock, List.length_replicate]
    omega
  · rw [if_neg hbig, if_neg hbig]
    dsimp only []
    rw [hlast _ _ _ _ hmark.2 (by omega) hmark.1 (hbits _), hblock]

/-- Whatever the pieces and whatever is in the buffer, the two implementations give the digest of the
whole message. -/
theorem sha256_pieces (ds : List (List UInt8)) (block : {b : List UInt8 // b.length = 64}) :
    sf (suAll si ds) = digest ds.flatten ∧ sha256Final (ds.foldl sha256Update (sha256Init block)) = sf (suAll si ds) := by
  constructor
  · exact sf_suAll ds
  · exact ((same_init block).updates ds).final

end Guppy.Account
