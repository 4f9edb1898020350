import Guppy.Archive.AcceptBlocks
import Guppy.Block.Crc

set_option autoImplicit false

/-! # Members of gzip files

`gu_gzip_decode_member` of `src/gu_gzip.c` unpacks an index that is packed with `gzip`. It goes over the optional parts of the header,
and compares the size and the checksum of what it unpacks with the trailer. It accepts the members that RFC 1952 allows and
nothing else, but for those of no byte and of four gigabytes and more, and unpacks them to their data (`decode_ok_iff`).
-/

namespace Guppy.Archive.Gzip

open Inflate (inflateRaw)
open Deflate (Deflates)
open Block (crc32Bytes IsCrc32)

/-! ## The decoder -/

def gzFhcrc : Nat := 0x02
def gzFextra : Nat := 0x04
def gzFname : Nat := 0x08
def gzFcomment : Nat := 0x10
def gzReserved : Nat := 0xE0

/-- `LONG_MAX` -/
def longMax : Nat := 9223372036854775807

/-- `skip_zstr` with so many bytes to the limit: the position behind the next zero byte. -/
def skipZstr (buf : List UInt8) : Nat → Nat → Option Nat
  | 0, _ => none
  | k + 1, pos => if buf.getD pos 0 = 0 then some (pos + 1) else skipZstr buf k (pos + 1)

/-- The part of a header behind `FEXTRA`. -/
def skipExtra (buf : List UInt8) (payloadEnd pos : Nat) : Option Nat :=
  if payloadEnd < pos + 2 then none
  else
    let xlen := (buf.getD pos 0).toNat ||| ((buf.getD (pos + 1) 0).toNat <<< 8)
    if payloadEnd < pos + 2 + xlen then none else some (pos + 2 + xlen)

/-- The header CRC is not looked at. -/
def skipHcrc (payloadEnd pos : Nat) : Option Nat := if payloadEnd < pos + 2 then none else some (pos + 2)

/-- A part of the header that its flag announces. -/
def skipPart (flags flag : Nat) (skip : Nat → Option Nat) (pos : Nat) : Option Nat :=
  if flags &&& flag ≠ 0 then skip pos else some pos

/-- Where the payload starts, unless the header is malformed. -/
def payloadStart (input : List UInt8) (flags payloadEnd : Nat) : Option Nat :=
  (skipPart flags gzFextra (skipExtra input payloadEnd) 10).bind fun pos =>
    (skipPart flags gzFname (fun pos => skipZstr input (payloadEnd - pos) pos) pos).bind fun pos =>
      (skipPart flags gzFcomment (fun pos => skipZstr input (payloadEnd - pos) pos) pos).bind fun pos =>
        (skipPart flags gzFhcrc (skipHcrc payloadEnd) pos).bind fun pos => if payloadEnd < pos then none else some pos

/-- The payload unpacked into a buffer of the size that the trailer gives, and checked. -/
def inflateMember (payload : List UInt8) (expectedCrc expectedSize : Nat) : Except String (List UInt8) :=
  match inflateRaw payload expectedSize with
  | .error (.code (-2)) _ => .error "gzip output exceeds ISIZE"
  | .error _ _ => .error "corrupt deflate payload"
  | .ok written t =>
      if written ≠ expectedSize then .error "corrupt deflate payload"
      else if crc32Bytes t.out ≠ expectedCrc then .error "gzip CRC32 mismatch"
      else .ok t.out

/-- `gu_gzip_decode_member`: the contents of the stream that it returns. -/
def guGzipDecodeMember (file : List UInt8) (off len : Nat) : Except String (List UInt8) :=
  if len < 18 ∨ longMax < off then .error "invalid gzip member range"
  else
    let input := (file.drop off).take len
    if input.length ≠ len then .error "short read in gzip member"
    else if input.getD 0 0 ≠ 0x1f ∨ input.getD 1 0 ≠ 0x8b ∨ input.getD 2 0 ≠ 8 then .error "not a gzip/deflate stream"
    else
      let flags := (input.getD 3 0).toNat
      if flags &&& gzReserved ≠ 0 then .error "unsupported gzip header flags"
      else
        match payloadStart input flags (len - 8) with
        | none => .error "malformed gzip header"
        | some pos =>
            let expectedCrc := leValue ((input.drop (len - 8)).take 4)
            let expectedSize := leValue ((input.drop (len - 4)).take 4)
            if expectedSize = 0 then .error "zero/4GiB gzip ISIZE is unsupported"
            else inflateMember ((input.drop pos).take (len - 8 - pos)) expectedCrc expectedSize

/-! ## The format -/

/-- A text with its zero byte, where there is one. -/
def zstr : Option (List UInt8) → List UInt8
  | none => []
  | some text => text ++ [0]

/-- The extra field with its length, where there is one. -/
def extraField : Option (List UInt8) → List UInt8
  | none => []
  | some bytes => leBytes 2 bytes.length ++ bytes

/-- A member of a gzip file as RFC 1952 has it. The payload is any deflate stream for the data; what is behind the last block
of it is not looked at. -/
structure Member where
  text : Bool
  /-- the time, the extra flags and the system -/
  stamp : List UInt8
  stamp_length : stamp.length = 6
  extra : Option (List UInt8)
  extra_lt : ∀ e ∈ extra, e.length < 65536
  name : Option (List UInt8)
  name_zero : ∀ n ∈ name, 0 ∉ n
  comment : Option (List UInt8)
  comment_zero : ∀ c ∈ comment, 0 ∉ c
  headerCrc : Option (UInt8 × UInt8)
  payload : List UInt8
  data : List UInt8
  deflates : Deflates payload data
  crc : Nat
  isCrc : IsCrc32 data crc

namespace Member

variable (m : Member)

def flags : Nat :=
  m.text.toNat + 2 * m.headerCrc.isSome.toNat + 4 * m.extra.isSome.toNat + 8 * m.name.isSome.toNat + 16 * m.comment.isSome.toNat

def fixedHeader : List UInt8 := [0x1f, 0x8b, 8, UInt8.ofNat m.flags] ++ m.stamp

def hcrcField : List UInt8 := m.headerCrc.elim [] fun b => [b.1, b.2]

def optional : List UInt8 := extraField m.extra ++ (zstr m.name ++ (zstr m.comment ++ m.hcrcField))

/-- The bytes of a member; the size is kept in 32 bits. -/
def bytes : List UInt8 := m.fixedHeader ++ (m.optional ++ (m.payload ++ (leBytes 4 m.crc ++ leBytes 4 m.data.length)))

end Member

/-! ## Skipping the header -/

section

variable {input tail : List UInt8} {pos payloadEnd flags flag : Nat}

theorem getD_of_drop {b : UInt8} (h : input.drop pos = b :: tail) : input.getD pos 0 = b := by
  have hat : input[pos]? = some b := by rw [← Nat.add_zero pos, ← List.getElem?_drop, h]; rfl
  rw [List.getD_eq_getElem?_getD, hat]
  rfl

/-- Behind a part there is the rest. -/
theorem drop_part {part : List UInt8} (h : input.drop pos = part ++ tail) : input.drop (pos + part.length) = tail := by
  rw [← List.drop_drop, h, List.drop_left]

theorem drop_byte {b : UInt8} (h : input.drop pos = b :: tail) : input.drop (pos + 1) = tail := by
  rw [← List.drop_drop, h]
  rfl

theorem skipZstr_eq {text : List UInt8} (h0 : 0 ∉ text) : ∀ {k pos : Nat}, input.drop pos = text ++ 0 :: tail → text.length < k →
    skipZstr input k pos = some (pos + (text.length + 1)) := by
  induction text with
  | nil =>
      intro k pos h hk
      obtain ⟨k, rfl⟩ : ∃ j, k = j + 1 := ⟨k - 1, by omega⟩
      rw [skipZstr, getD_of_drop h, if_pos rfl]
      rfl
  | cons b text ih =>
      intro k pos h hk
      rw [List.length_cons] at hk
      obtain ⟨k, rfl⟩ : ∃ j, k = j + 1 := ⟨k - 1, by omega⟩
      obtain ⟨hb, htext⟩ := not_or.mp (mt List.mem_cons.mpr h0)
      have hnext := @ih htext k (pos + 1) (drop_byte h) (by omega)
      rw [skipZstr, getD_of_drop h, if_neg (Ne.symm hb), hnext, List.length_cons]
      congr 1
      omega

/-- A text of the header is skipped if it is there. -/
theorem skipPart_zstr {o : Option (List UInt8)} (h0 : ∀ n ∈ o, 0 ∉ n) (hflag : flags &&& flag ≠ 0 ↔ o.isSome)
    (h : input.drop pos = zstr o ++ tail) (hend : pos + (zstr o).length ≤ payloadEnd) :
    skipPart flags flag (fun pos => skipZstr input (payloadEnd - pos) pos) pos = some (pos + (zstr o).length) := by
  unfold skipPart
  cases o with
  | none => rw [if_neg (fun hf => absurd (hflag.mp hf) (by simp))]; rfl
  | some text =>
      rw [if_pos (hflag.mpr rfl)]
      rw [zstr, List.length_append, List.length_singleton] at hend
      rw [zstr, List.append_assoc] at h
      rw [zstr, List.length_append, List.length_singleton]
      exact skipZstr_eq (h0 text rfl) h (by omega)

theorem skipPart_extra {o : Option (List UInt8)} (hlt : ∀ e ∈ o, e.length < 65536) (hflag : flags &&& flag ≠ 0 ↔ o.isSome)
    (h : input.drop pos = extraField o ++ tail) (hend : pos + (extraField o).length ≤ payloadEnd) :
    skipPart flags flag (skipExtra input payloadEnd) pos = some (pos + (extraField o).length) := by
  unfold skipPart
  cases o with
  | none => rw [if_neg (fun hf => absurd (hflag.mp hf) (by simp))]; rfl
  | some bytes =>
      rw [if_pos (hflag.mpr rfl)]
      rw [extraField, List.length_append, length_leBytes] at hend ⊢
      have hlow : input.getD pos 0 = UInt8.ofNat bytes.length := getD_of_drop h
      have hhigh : input.getD (pos + 1) 0 = UInt8.ofNat (bytes.length / 256) :=
        getD_of_drop (drop_byte h)
      rw [skipExtra, if_neg (by omega), hlow, hhigh, Inflate.or_shiftLeft_bytes (hlt bytes rfl)]
      dsimp only
      rw [if_neg (by omega), Nat.add_assoc]

theorem skipPart_hcrc {o : Option (UInt8 × UInt8)} (hflag : flags &&& flag ≠ 0 ↔ o.isSome)
    (hend : pos + (o.elim [] fun b => [b.1, b.2]).length ≤ payloadEnd) :
    skipPart flags flag (skipHcrc payloadEnd) pos = some (pos + (o.elim [] fun b => [b.1, b.2]).length) := by
  unfold skipPart
  cases o with
  | none => rw [if_neg (fun hf => absurd (hflag.mp hf) (by simp))]; rfl
  | some b =>
      have hroom : pos + 2 ≤ payloadEnd := hend
      rw [if_pos (hflag.mpr rfl), skipHcrc, if_neg (by omega)]
      rfl

end

/-- The flags say which parts there are, and no reserved one is set. -/
theorem Member.flags_spec (m : Member) : m.flags < 256 ∧ m.flags &&& gzReserved = 0 ∧ (m.flags &&& gzFextra ≠ 0 ↔ m.extra.isSome) ∧
    (m.flags &&& gzFname ≠ 0 ↔ m.name.isSome) ∧ (m.flags &&& gzFcomment ≠ 0 ↔ m.comment.isSome) ∧
    (m.flags &&& gzFhcrc ≠ 0 ↔ m.headerCrc.isSome) := by
  have hall : ∀ t h e n c : Bool, ∀ f, f = t.toNat + 2 * h.toNat + 4 * e.toNat + 8 * n.toNat + 16 * c.toNat →
      f < 256 ∧ f &&& gzReserved = 0 ∧ (f &&& gzFextra ≠ 0 ↔ e = true) ∧ (f &&& gzFname ≠ 0 ↔ n = true) ∧
        (f &&& gzFcomment ≠ 0 ↔ c = true) ∧ (f &&& gzFhcrc ≠ 0 ↔ h = true) := by
    rintro t h e n c f rfl
    revert t h e n c
    decide
  exact hall _ _ _ _ _ _ rfl

/-- The payload starts behind the optional parts. -/
theorem Member.payloadStart_eq (m : Member) {input tail : List UInt8} {payloadEnd : Nat}
    (h : input.drop 10 = m.optional ++ tail) (hend : 10 + m.optional.length ≤ payloadEnd) :
    payloadStart input m.flags payloadEnd = some (10 + m.optional.length) := by
  obtain ⟨-, -, hextra, hname, hcomment, hhcrc⟩ := m.flags_spec
  rw [optional] at h hend
  simp only [List.append_assoc] at h
  simp only [List.length_append] at hend
  have h₂ := drop_part h
  have h₃ := drop_part h₂
  rw [payloadStart, skipPart_extra m.extra_lt hextra h (by omega), Option.bind_some,
    skipPart_zstr m.name_zero hname h₂ (by omega), Option.bind_some,
    skipPart_zstr m.comment_zero hcomment h₃ (by omega), Option.bind_some, skipPart_hcrc hhcrc (by rw [hcrcField] at hend; omega),
    Option.bind_some, optional, hcrcField]
  rw [hcrcField] at hend
  rw [if_neg (by omega)]
  simp only [List.length_append]
  congr 1
  omega

/-- Every member of at least one byte and less than four gigabytes is unpacked to its data, wherever it is in a file. -/
theorem decode_member (m : Member) (hsome : m.data ≠ []) (hsize : m.data.length < 4294967296) {file : List UInt8} {off : Nat}
    (hoff : off ≤ longMax) (hinput : (file.drop off).take m.bytes.length = m.bytes) :
    guGzipDecodeMember file off m.bytes.length = .ok m.data := by
  obtain ⟨hflags, hreserved, -⟩ := m.flags_spec
  have hlen : m.bytes.length = 10 + (m.optional.length + (m.payload.length + 8)) := by
    simp only [Member.bytes, Member.fixedHeader, List.length_append, length_leBytes, m.stamp_length, List.length_cons,
      List.length_nil]
  have hcrc : m.crc = crc32Bytes m.data := m.isCrc.unique (Block.crc32Bytes_isCrc32 m.data) (by decide)
  have hcrc_lt : m.crc < 256 ^ 4 := m.isCrc.lt
  have hsize_lt : m.data.length < 256 ^ 4 := hsize
  -- the parts of the member
  have hfront : m.bytes = (m.fixedHeader ++ (m.optional ++ m.payload)) ++ (leBytes 4 m.crc ++ leBytes 4 m.data.length) := by
    simp only [Member.bytes, List.append_assoc]
  have hfixed : m.fixedHeader.length = 10 := by simp [Member.fixedHeader, m.stamp_length]
  have hbehind : m.bytes.drop 10 = m.optional ++ (m.payload ++ (leBytes 4 m.crc ++ leBytes 4 m.data.length)) :=
    List.drop_left' hfixed
  have htrailer : m.bytes.drop (m.bytes.length - 8) = leBytes 4 m.crc ++ leBytes 4 m.data.length := by
    rw [hlen, hfront]
    exact List.drop_left' (by simp only [List.length_append]; omega)
  have hsizes : m.bytes.drop (m.bytes.length - 4) = leBytes 4 m.data.length := by
    rw [show m.bytes.length - 4 = m.bytes.length - 8 + 4 by omega, ← List.drop_drop, htrailer]
    exact List.drop_left' (length_leBytes 4 _)
  have hstart := m.payloadStart_eq hbehind (show 10 + m.optional.length ≤ m.bytes.length - 8 by omega)
  have hpayload : (m.bytes.drop (10 + m.optional.length)).take (m.bytes.length - 8 - (10 + m.optional.length)) = m.payload := by
    rw [drop_part hbehind]
    exact List.take_left' (by omega)
  have hdata := List.length_pos_iff.mpr hsome
  obtain ⟨t, hinflate, hout⟩ := Inflate.inflateRaw_eq m.deflates (le_refl m.data.length)
  unfold guGzipDecodeMember
  rw [if_neg (by omega), hinput]
  dsimp only
  have hflag : (m.bytes.getD 3 0).toNat = m.flags := by
    show (UInt8.ofNat m.flags).toNat = m.flags
    rw [UInt8.toNat_ofNat']
    omega
  rw [if_neg (by simp), if_neg (fun h => by rcases h with h | h | h <;> exact h rfl), hflag, if_neg (by simp [hreserved]), hstart]
  dsimp only
  rw [htrailer, hsizes, hpayload, List.take_left' (length_leBytes 4 _), List.take_of_length_le (length_leBytes 4 _).le,
    leValue_leBytes, leValue_leBytes, Nat.mod_eq_of_lt hcrc_lt, Nat.mod_eq_of_lt hsize_lt, if_neg (by omega), inflateMember, hinflate]
  dsimp only
  rw [hout, if_neg (by simp), if_neg (by simp [hcrc])]

/-! ## Headers that are accepted -/

section

variable {input : List UInt8} {pos next payloadEnd flags flag : Nat}

theorem drop_eq_getD (h : pos < input.length) : input.drop pos = input.getD pos 0 :: input.drop (pos + 1) := by
  rw [List.drop_eq_getElem_cons h, List.getD_eq_getElem _ _ h]

theorem skipZstr_some {k : Nat} : ∀ {pos : Nat}, pos + k ≤ input.length → skipZstr input k pos = some next →
    ∃ text, 0 ∉ text ∧ input.drop pos = text ++ 0 :: input.drop next ∧ next = pos + (text.length + 1) ∧ next ≤ pos + k := by
  induction k with
  | zero => exact fun _ h => absurd h (by simp [skipZstr])
  | succ k ih =>
      intro pos hlen h
      have hdrop := @drop_eq_getD input pos (by omega)
      rw [skipZstr] at h
      split at h
      · rename_i h0
        rw [h0] at hdrop
        obtain rfl := Option.some.inj h
        exact ⟨[], by simp, hdrop, rfl, by omega⟩
      · rename_i h0
        obtain ⟨text, htext, hrest, hnext, hle⟩ := ih (by omega) h
        refine ⟨input.getD pos 0 :: text, ?_, ?_, ?_, by omega⟩
        · rw [List.mem_cons, not_or]
          exact ⟨Ne.symm h0, htext⟩
        · rw [hdrop, hrest]
          rfl
        · rw [List.length_cons]
          omega

theorem skipPart_zstr_some (hend : payloadEnd ≤ input.length) (hpos : pos ≤ payloadEnd)
    (h : skipPart flags flag (fun pos => skipZstr input (payloadEnd - pos) pos) pos = some next) :
    ∃ o : Option (List UInt8), (flags &&& flag ≠ 0 ↔ o.isSome) ∧ (∀ n ∈ o, 0 ∉ n) ∧ input.drop pos = zstr o ++ input.drop next ∧
      next = pos + (zstr o).length ∧ next ≤ payloadEnd := by
  unfold skipPart at h
  split at h
  · rename_i hflag
    obtain ⟨text, h0, hdrop, hnext, hle⟩ := skipZstr_some (by omega) h
    refine ⟨some text, by simp [hflag], ?_, ?_, ?_, by omega⟩
    · rintro n hn
      rw [← Option.some.inj hn]
      exact h0
    · rw [hdrop, zstr, List.append_assoc]
      rfl
    · rw [zstr, List.length_append, hnext]
      rfl
  · rename_i hflag
    obtain rfl := Option.some.inj h
    exact ⟨none, by simp [not_not.mp hflag], by simp, rfl, rfl, hpos⟩

theorem skipPart_extra_some (hend : payloadEnd ≤ input.length) (hpos : pos ≤ payloadEnd)
    (h : skipPart flags flag (skipExtra input payloadEnd) pos = some next) :
    ∃ o : Option (List UInt8), (flags &&& flag ≠ 0 ↔ o.isSome) ∧ (∀ e ∈ o, e.length < 65536) ∧
      input.drop pos = extraField o ++ input.drop next ∧ next = pos + (extraField o).length ∧ next ≤ payloadEnd := by
  unfold skipPart at h
  split at h
  · rename_i hflag
    rw [skipExtra] at h
    split at h
    · exact absurd h (by simp)
    · rename_i htwo
      have hlt := Inflate.or_bytes_lt (input.getD pos 0) (input.getD (pos + 1) 0)
      have hbytes := Inflate.leBytes_two (input.getD pos 0) (input.getD (pos + 1) 0)
      dsimp only at h
      have hdrop : input.drop pos = input.getD pos 0 :: input.getD (pos + 1) 0 :: input.drop (pos + 2) := by
        rw [drop_eq_getD (by omega), drop_eq_getD (by omega)]
      generalize (input.getD pos 0).toNat ||| (input.getD (pos + 1) 0).toNat <<< 8 = len at h hlt hbytes
      split at h
      · exact absurd h (by simp)
      · rename_i hroom
        obtain rfl := Option.some.inj h
        have hlen : ((input.drop (pos + 2)).take len).length = len := by
          rw [List.length_take, List.length_drop]
          omega
        have htake := List.take_append_drop len (input.drop (pos + 2))
        rw [List.drop_drop] at htake
        refine ⟨some ((input.drop (pos + 2)).take len), by simp [hflag], ?_, ?_, ?_, by omega⟩
        · rintro e he
          rw [← Option.some.inj he, hlen]
          exact hlt
        · rw [extraField, hlen, hbytes, hdrop, List.append_assoc, htake]
          rfl
        · rw [extraField, List.length_append, length_leBytes, hlen, Nat.add_assoc]
  · rename_i hflag
    obtain rfl := Option.some.inj h
    exact ⟨none, by simp [not_not.mp hflag], by simp, rfl, rfl, hpos⟩

theorem skipPart_hcrc_some (hend : payloadEnd ≤ input.length) (hpos : pos ≤ payloadEnd)
    (h : skipPart flags flag (skipHcrc payloadEnd) pos = some next) :
    ∃ o : Option (UInt8 × UInt8), (flags &&& flag ≠ 0 ↔ o.isSome) ∧
      input.drop pos = (o.elim [] fun b => [b.1, b.2]) ++ input.drop next ∧ next ≤ payloadEnd := by
  unfold skipPart at h
  split at h
  · rename_i hflag
    rw [skipHcrc] at h
    split at h
    · exact absurd h (by simp)
    · rename_i htwo
      obtain rfl := Option.some.inj h
      refine ⟨some (input.getD pos 0, input.getD (pos + 1) 0), by simp [hflag], ?_, by omega⟩
      rw [drop_eq_getD (by omega), drop_eq_getD (by omega)]
      rfl
  · rename_i hflag
    obtain rfl := Option.some.inj h
    exact ⟨none, by simp [not_not.mp hflag], rfl, hpos⟩

end

/-- The flags without a reserved one are those of the parts. -/
theorem flags_eq {f : Nat} (hf : f < 256) (hreserved : f &&& gzReserved = 0) {e n c : Option (List UInt8)}
    {h : Option (UInt8 × UInt8)} (he : f &&& gzFextra ≠ 0 ↔ e.isSome) (hn : f &&& gzFname ≠ 0 ↔ n.isSome)
    (hc : f &&& gzFcomment ≠ 0 ↔ c.isSome) (hh : f &&& gzFhcrc ≠ 0 ↔ h.isSome) :
    (f.testBit 0).toNat + 2 * h.isSome.toNat + 4 * e.isSome.toNat + 8 * n.isSome.toNat + 16 * c.isSome.toNat = f := by
  have hall : ∀ f : Fin 256, f.val &&& gzReserved = 0 → (f.val.testBit 0).toNat + 2 * (decide (f.val &&& gzFhcrc ≠ 0)).toNat +
      4 * (decide (f.val &&& gzFextra ≠ 0)).toNat + 8 * (decide (f.val &&& gzFname ≠ 0)).toNat +
        16 * (decide (f.val &&& gzFcomment ≠ 0)).toNat = f.val := by decide +kernel
  have hval := hall ⟨f, hf⟩ hreserved
  dsimp only at hval
  have hbool (p : Prop) [Decidable p] (b : Bool) (h : p ↔ b = true) : decide p = b := by
    cases b with
    | false => exact decide_eq_false fun hp => Bool.false_ne_true (h.mp hp)
    | true => exact decide_eq_true (h.mpr rfl)
  rwa [hbool _ _ he, hbool _ _ hn, hbool _ _ hc, hbool _ _ hh] at hval

/-- The bytes in front of the optional parts. -/
theorem fixed_append_drop {input : List UInt8} (h : 10 ≤ input.length) :
    [input.getD 0 0, input.getD 1 0, input.getD 2 0, input.getD 3 0] ++ (input.drop 4).take 6 ++ input.drop 10 = input := by
  have htake := List.take_append_drop 6 (input.drop 4)
  rw [List.drop_drop] at htake
  rw [List.append_assoc, htake]
  calc [input.getD 0 0, input.getD 1 0, input.getD 2 0, input.getD 3 0] ++ input.drop 4
      = input.drop 0 := by
        rw [@drop_eq_getD input 0 (by omega), @drop_eq_getD input 1 (by omega), @drop_eq_getD input 2 (by omega),
          @drop_eq_getD input 3 (by omega)]
        rfl
    _ = input := List.drop_zero

/-- The bytes behind the header: the payload and the trailer. -/
theorem drop_eq_trailer {input : List UInt8} {pos : Nat} (h : pos + 8 ≤ input.length) :
    input.drop pos = (input.drop pos).take (input.length - 8 - pos) ++
      ((input.drop (input.length - 8)).take 4 ++ (input.drop (input.length - 4)).take 4) := by
  have hpayload := List.take_append_drop (input.length - 8 - pos) (input.drop pos)
  rw [List.drop_drop, show pos + (input.length - 8 - pos) = input.length - 8 by omega] at hpayload
  have htrailer := List.take_append_drop 4 (input.drop (input.length - 8))
  rw [List.drop_drop, show input.length - 8 + 4 = input.length - 4 by omega] at htrailer
  have hlast : (input.drop (input.length - 4)).take 4 = input.drop (input.length - 4) := by
    apply List.take_of_length_le
    rw [List.length_drop]
    omega
  rw [hlast, htrailer, hpayload]

/-- Four bytes are those of their value. -/
theorem leBytes_four {t : List UInt8} {n : Nat} (hlen : t.length = 4) (h : n = leValue t) : leBytes 4 n = t := by
  rw [h, ← hlen, leBytes_leValue]

/-- The optional parts of a header that is accepted. -/
theorem payloadStart_some {input : List UInt8} {f payloadEnd pos : Nat} (hend : payloadEnd ≤ input.length) (hten : 10 ≤ payloadEnd)
    (h : payloadStart input f payloadEnd = some pos) :
    ∃ (e n c : Option (List UInt8)) (o : Option (UInt8 × UInt8)), (f &&& gzFextra ≠ 0 ↔ e.isSome) ∧ (f &&& gzFname ≠ 0 ↔ n.isSome) ∧
      (f &&& gzFcomment ≠ 0 ↔ c.isSome) ∧ (f &&& gzFhcrc ≠ 0 ↔ o.isSome) ∧ (∀ b ∈ e, b.length < 65536) ∧ (∀ b ∈ n, 0 ∉ b) ∧
      (∀ b ∈ c, 0 ∉ b) ∧ input.drop 10 = extraField e ++ (zstr n ++ (zstr c ++ ((o.elim [] fun b => [b.1, b.2]) ++ input.drop pos))) ∧
      pos ≤ payloadEnd := by
  rw [payloadStart, Option.bind_eq_some_iff] at h
  obtain ⟨p₁, h₁, h⟩ := h
  obtain ⟨p₂, h₂, h⟩ := Option.bind_eq_some_iff.mp h
  obtain ⟨p₃, h₃, h⟩ := Option.bind_eq_some_iff.mp h
  obtain ⟨p₄, h₄, h⟩ := Option.bind_eq_some_iff.mp h
  obtain ⟨e, he, hlt, hdrop₁, -, hle₁⟩ := skipPart_extra_some hend hten h₁
  obtain ⟨n, hn, hn0, hdrop₂, -, hle₂⟩ := skipPart_zstr_some hend hle₁ h₂
  obtain ⟨c, hc, hc0, hdrop₃, -, hle₃⟩ := skipPart_zstr_some hend hle₂ h₃
  obtain ⟨o, ho, hdrop₄, hle₄⟩ := skipPart_hcrc_some hend hle₃ h₄
  rw [if_neg (by omega)] at h
  obtain rfl := Option.some.inj h
  exact ⟨e, n, c, o, he, hn, hc, ho, hlt, hn0, hc0, by rw [hdrop₁, hdrop₂, hdrop₃, hdrop₄], hle₄⟩

/-- What is unpacked without an error is a member, and the result is its data. -/
theorem member_of_ok {file : List UInt8} {off len : Nat} {data : List UInt8} (h : guGzipDecodeMember file off len = .ok data) :
    off ≤ longMax ∧ data ≠ [] ∧ data.length < 4294967296 ∧ ∃ m : Member, m.data = data ∧ (file.drop off).take len = m.bytes ∧
      m.bytes.length = len := by
  unfold guGzipDecodeMember at h
  -- every check before the end has been passed
  split at h
  · exact absurd h (by simp)
  rename_i hrange
  dsimp only at h
  generalize (file.drop off).take len = input at h ⊢
  split at h
  · exact absurd h (by simp)
  rename_i hlen
  split at h
  · exact absurd h (by simp)
  rename_i hmagic
  split at h
  · exact absurd h (by simp)
  rename_i hreserved
  split at h
  · exact absurd h (by simp)
  rename_i pos hstart
  split at h
  · exact absurd h (by simp)
  rename_i hzero
  unfold inflateMember at h
  split at h
  · exact absurd h (by simp)
  · exact absurd h (by simp)
  rename_i written t hinflate
  split at h
  · exact absurd h (by simp)
  rename_i hwritten
  split at h
  · exact absurd h (by simp)
  rename_i hcrc
  obtain rfl := Except.ok.inj h
  rw [not_not] at hlen hwritten hcrc hreserved
  rw [not_or, not_or, not_not, not_not, not_not] at hmagic
  rw [not_or] at hrange
  obtain ⟨hdeflates, -, hsize⟩ := Inflate.deflates_of_ok hinflate
  have hten : 10 ≤ len - 8 := by omega
  -- the parts that were skipped and the fields of the trailer make up a member
  obtain ⟨e, n, c, o, he, hn, hc, ho, hlt, hn0, hc0, hdrop, hpos⟩ := payloadStart_some (by omega) hten hstart
  have hfour : ((input.drop (len - 4)).take 4).length = 4 := by
    rw [List.length_take, List.length_drop]
    omega
  have hfour' : ((input.drop (len - 8)).take 4).length = 4 := by
    rw [List.length_take, List.length_drop]
    omega
  have hsize_lt : t.out.length < 4294967296 := by
    have hvalue := leValue_lt ((input.drop (len - 4)).take 4)
    rw [hfour] at hvalue
    omega
  refine ⟨by omega, fun hnil => ?_, hsize_lt, ?_⟩
  · rw [hnil] at hsize
    exact hzero (hwritten.symm.trans hsize)
  let m : Member := ⟨(input.getD 3 0).toNat.testBit 0, (input.drop 4).take 6, by rw [List.length_take, List.length_drop]; omega,
    e, hlt, n, hn0, c, hc0, o, _, t.out, hdeflates, crc32Bytes t.out, Block.crc32Bytes_isCrc32 t.out⟩
  have hflags : m.flags = (input.getD 3 0).toNat := flags_eq (input.getD 3 0).toNat_lt hreserved he hn hc ho
  have hfixed : m.fixedHeader = [input.getD 0 0, input.getD 1 0, input.getD 2 0, input.getD 3 0] ++ (input.drop 4).take 6 := by
    rw [Member.fixedHeader, hflags, UInt8.ofNat_toNat, hmagic.1, hmagic.2.1, hmagic.2.2]
  have hcrcField : leBytes 4 m.crc = (input.drop (len - 8)).take 4 := leBytes_four hfour' hcrc
  have hsizeField : leBytes 4 m.data.length = (input.drop (len - 4)).take 4 := leBytes_four hfour (hsize.symm.trans hwritten)
  have hbehind := @drop_eq_trailer input pos (by omega)
  rw [hlen, ← hcrcField, ← hsizeField] at hbehind
  have hoptional : input.drop 10 = m.optional ++ input.drop pos := by
    rw [hdrop, Member.optional, List.append_assoc, List.append_assoc, List.append_assoc]
    rfl
  have hbytes : input = m.bytes := by
    rw [Member.bytes, hfixed, ← hbehind, ← hoptional]
    exact (fixed_append_drop (by omega)).symm
  exact ⟨m, rfl, hbytes, by rw [← hbytes]; exact hlen⟩

/-- The text `a` in a stored block, under the name `a`. -/
def storedText : Member where
  text := true
  stamp := [0, 0, 0, 0, 0, 3]
  stamp_length := rfl
  extra := none
  extra_lt := by simp
  name := some [0x61]
  name_zero := by decide
  comment := none
  comment_zero := by simp
  headerCrc := none
  payload := [0x01, 0x01, 0x00, 0xfe, 0xff, 0x61]
  data := [0x61]
  deflates := ⟨_, [], rfl,
    .last (@Deflate.Block.stored _ (List.replicate 5 false) [0x61] _ (by decide) rfl (by decide))⟩
  crc := crc32Bytes [0x61]
  isCrc := Block.crc32Bytes_isCrc32 [0x61]

example : guGzipDecodeMember ([0xff] ++ (storedText.bytes ++ [0xff])) 1 storedText.bytes.length = .ok [0x61] := by
  decide +kernel

end Guppy.Archive.Gzip
