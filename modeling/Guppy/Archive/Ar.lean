import Guppy.Archive.Stream
import Guppy.Lib.Digits
import Guppy.Pkg.Depends
import Mathlib.Data.List.DropRight

set_option autoImplicit false

/-! # The outer archive of a package

A Debian package is an `ar` archive with three members: the format version, the control archive
and the data archive. `src/ar_write.c` writes the members, `gu_deb_build_ex` of `src/deb_build.c`
says which and in what order, and `deb_open_fp` of `src/deb.c` finds them again. A member has a
header of 60 bytes with fields that are filled up with blanks, and it starts at an even offset.
-/

namespace Guppy.Archive.Ar

open Vfs Digits Pkg

def space : UInt8 := 32
def newline : UInt8 := 10

/-! ## The writer -/

/-- `gu_ar_write_begin` -/
def guArWriteBegin (out : List UInt8) : Option (List UInt8) := fwrite out [33, 60, 97, 114, 99, 104, 62, 10]

/-- `field`: a value in a field that is filled up with blanks. -/
def field (width : Nat) (value : Text) : Option (List UInt8) :=
  if width < value.length then none else some (value ++ List.replicate (width - value.length) space)

/-- The header of a member. -/
def arHeader (name : Text) (size mode : Nat) : Option (List UInt8) := do
  let nameField ← field 16 (name ++ [slash])
  let date ← field 12 [48]
  let owner ← field 6 [48]
  let group ← field 6 [48]
  let modeField ← field 8 (numeral 8 (mode % 4096))
  let sizeField ← field 10 (numeral 10 size)
  some (nameField ++ date ++ owner ++ group ++ modeField ++ sizeField ++ [96, newline])

/-- `gu_ar_write_member`, with the bytes that the source has to give. -/
def guArWriteMember (out : List UInt8) (name : Text) (src : List UInt8) (size mode : Nat) : Option (List UInt8) := do
  if name.length = 0 ∨ 15 < name.length ∨ slash ∈ name ∨ newline ∈ name ∨ space ∈ name then none
  else
    let header ← arHeader name size mode
    let out ← fwrite out header
    let out ← copyLoop src 0 size out
    if size % 2 ≠ 0 then fwrite out [newline] else some out

/-- `add_member`: the whole of a stream. -/
def addMember (out : List UInt8) (name : Text) (tar : List UInt8) : Option (List UInt8) :=
  guArWriteMember out name tar tar.length 420

/-- `debian-binary` -/
def debianBinary : Text := [100, 101, 98, 105, 97, 110, 45, 98, 105, 110, 97, 114, 121]

/-- `control.tar` -/
def controlTar : Text := [99, 111, 110, 116, 114, 111, 108, 46, 116, 97, 114]

/-- `data.tar` -/
def dataTar : Text := [100, 97, 116, 97, 46, 116, 97, 114]

/-- `.xz` -/
def dotXz : Text := [46, 120, 122]

def suffix (xz : Bool) : Text := if xz = true then dotXz else []

/-- The part of `gu_deb_build_ex` that writes the archive, given the two streams. -/
def guDebBuildEx (xz : Bool) (control data : List UInt8) : Option (List UInt8) := do
  let out ← guArWriteBegin []
  let out ← guArWriteMember out debianBinary [50, 46, 48, 10] 4 420
  let out ← addMember out (controlTar ++ suffix xz) control
  addMember out (dataTar ++ suffix xz) data

/-! ## The reader -/

/-- `deb_member_t` -/
structure DebMember where
  name : Text
  offset : Nat
  size : Nat
  deriving DecidableEq

/-- `deb_package_t` -/
structure DebPackage where
  version : Text
  control : DebMember
  data : DebMember
  deriving DecidableEq

/-- `trim`: the blanks at the end go, and then one slash. -/
def trim (t : Text) : Text :=
  let t := t.rdropWhile isBlank
  if t.getLast? = some slash then t.dropLast else t

/-- The sign before a number. -/
def signOf : Text → Bool × Text
  | 45 :: t => (true, t)
  | 43 :: t => (false, t)
  | t => (false, t)

/-- `strtoull` in base ten: the number and what is left of the text. -/
def strtoull (t : Text) : Nat × Text :=
  let s := signOf (t.dropWhile isBlank)
  let digits := s.2.takeWhile isDigit
  if digits = [] then (0, t)
  else
    let v := min (value 10 digits) 18446744073709551615
    (if s.1 = true then (18446744073709551616 - v) % 18446744073709551616 else v, s.2.dropWhile isDigit)

/-- `dec` -/
def dec (p : List UInt8) : Option Nat :=
  let b := trim (cText p)
  if b = [] then none
  else if (strtoull b).2 ≠ [] then none
  else some (strtoull b).1

/-- What the loop of `deb_open_fp` does with a member whose bytes start at `pos`. -/
def noteMember (file : List UInt8) (pkg : DebPackage) (name : Text) (pos sz : Nat) : Except Int DebPackage :=
  if name = debianBinary then
    let take := if sz < 31 then sz else 31
    if take = 0 then .ok { pkg with version := [] }
    else
      match fread file pos take with
      | none => .error (-8)
      | some bytes => .ok { pkg with version := trim (cText bytes) }
  else if controlTar <+: name then .ok { pkg with control := ⟨name, pos, sz⟩ }
  else if dataTar <+: name then .ok { pkg with data := ⟨name, pos, sz⟩ }
  else .ok pkg

/-- What `deb_open_fp` returns at the end of the file. -/
def accepted (pkg : DebPackage) : Except Int DebPackage :=
  if pkg.version ≠ [] ∧ pkg.control.name ≠ [] ∧ pkg.data.name ≠ [] then .ok pkg else .error (-10)

/-- The loop of `deb_open_fp`. A size that is written with a sign can lead it back, so that it need
not end; there is no result when the fuel is used up. -/
def openLoop (file : List UInt8) : Nat → Nat → DebPackage → Option (Except Int DebPackage)
  | 0, _, _ => none
  | fuel + 1, pos, pkg =>
      if file.length ≤ pos then some (accepted pkg)
      else
        match fread file pos 60 with
        | none => some (.error (-4))
        | some h =>
            if (h.drop 58) ≠ [96, newline] then some (.error (-5))
            else
              match dec ((h.drop 48).take 10) with
              | none => some (.error (-6))
              | some sz =>
                  match noteMember file pkg (trim (cText (h.take 16))) (pos + 60) sz with
                  | .error e => some (.error e)
                  | .ok pkg =>
                      let next := (pos + 60 + sz + sz % 2) % 18446744073709551616
                      if longMax < next then some (.error (-9)) else openLoop file fuel next pkg

/-- `deb_open_fp` -/
def debOpenFp (fuel : Nat) (file : List UInt8) : Option (Except Int DebPackage) :=
  match fread file 0 8 with
  | none => some (.error (-3))
  | some magic =>
      if magic ≠ [33, 60, 97, 114, 99, 104, 62, 10] then some (.error (-3))
      else openLoop file fuel 8 ⟨[], ⟨[], 0, 0⟩, ⟨[], 0, 0⟩⟩

/-! ## Fields -/

/-- The blanks that fill a field go again. -/
theorem rdropWhile_blanks {t : Text} {c : UInt8} (hc : isBlank c = false) (n : Nat) :
    (t ++ [c] ++ List.replicate n space).rdropWhile isBlank = t ++ [c] := by
  induction n with
  | zero => rw [List.replicate_zero, List.append_nil, List.rdropWhile_concat_neg _ _ _ (by simp [hc])]
  | succ n ih =>
      rw [List.replicate_succ', ← List.append_assoc, List.rdropWhile_concat_pos _ _ _ (by decide), ih]

theorem trim_name {name : Text} (n : Nat) : trim (name ++ [slash] ++ List.replicate n space) = name := by
  unfold trim
  rw [rdropWhile_blanks (by decide)]
  dsimp only []
  rw [List.getLast?_concat, if_pos rfl, List.dropLast_concat]

theorem isBlank_of_isDigit {c : UInt8} (hc : isDigit c = true) : isBlank c = false := by
  have hrange : 48 ≤ c ∧ c ≤ 57 := of_decide_eq_true hc
  unfold isBlank
  rw [decide_eq_false_iff_not]
  rintro (rfl | ⟨-, h⟩)
  · exact absurd hrange.1 (by decide)
  · exact absurd (UInt8.le_trans hrange.1 h) (by decide)

theorem trim_digits {t : Text} {c : UInt8} (hc : isDigit c = true) (n : Nat) :
    trim (t ++ [c] ++ List.replicate n space) = t ++ [c] := by
  have hslash : c ≠ slash := by
    rintro rfl
    exact absurd hc (by decide)
  unfold trim
  rw [rdropWhile_blanks (isBlank_of_isDigit hc)]
  dsimp only []
  rw [List.getLast?_concat, if_neg (fun h => hslash (Option.some.inj h))]

theorem field_of_length {width : Nat} {v : Text} (h : v.length ≤ width) :
    field width v = some (v ++ List.replicate (width - v.length) space) ∧
      (v ++ List.replicate (width - v.length) space).length = width := by
  refine ⟨if_neg (by omega), ?_⟩
  rw [List.length_append, List.length_replicate]
  omega

/-- A text of digits is read as the number that it is. -/
theorem strtoull_digits {t : Text} (hne : t ≠ []) (hd : ∀ c ∈ t, isDigit c = true)
    (hv : value 10 t < 18446744073709551616) : strtoull t = (value 10 t, []) := by
  cases t with
  | nil => exact absurd rfl hne
  | cons c t =>
      have hc := hd c (List.mem_cons_self ..)
      have hblank := isBlank_of_isDigit hc
      have hsign : signOf (c :: t) = (false, c :: t) := by
        unfold signOf
        split
        · rename_i heq
          cases heq
          exact absurd hc (by decide)
        · rename_i heq
          cases heq
          exact absurd hc (by decide)
        · rfl
      have htake : (c :: t).takeWhile isDigit = c :: t := by
        have := @List.takeWhile_append_of_pos _ isDigit (c :: t) [] hd
        rwa [List.append_nil, List.takeWhile_nil, List.append_nil] at this
      have hdrop : (c :: t).dropWhile isDigit = [] := by
        rw [List.dropWhile_eq_nil_iff]
        exact hd
      unfold strtoull
      rw [List.dropWhile_cons_of_neg (by simp [hblank]), hsign]
      dsimp only []
      rw [htake, hdrop, if_neg (List.cons_ne_nil c t), if_neg Bool.false_ne_true, Nat.min_eq_left (by omega)]

theorem isDigit_of_mem_numeral {v : Nat} {c : UInt8} (h : c ∈ numeral 10 v) : isDigit c = true := by
  obtain ⟨h₁, h₂⟩ := mem_numeral (by decide) (by decide) h
  unfold isDigit
  rw [decide_eq_true_iff, UInt8.le_iff_toNat_le, UInt8.le_iff_toNat_le]
  exact ⟨h₁, show c.toNat ≤ 57 by omega⟩

theorem numeral_ne_nil (v : Nat) : numeral 10 v ≠ [] := by
  intro h
  have := congrArg List.length h
  rw [length_numeral] at this
  cases this

theorem dec_numeral {size : Nat} (h : size < 18446744073709551616) (n : Nat) :
    dec (numeral 10 size ++ List.replicate n space) = some size := by
  have hvalue : value 10 (numeral 10 size) = size := value_numeral (by decide) (by decide) size
  have hnul : 0 ∉ numeral 10 size ++ List.replicate n space := by
    intro h0
    rcases List.mem_append.mp h0 with h0 | h0
    · exact absurd (isDigit_of_mem_numeral h0) (by decide)
    · exact absurd (List.eq_of_mem_replicate h0) (by decide)
  obtain ⟨t, c, htc⟩ : ∃ t c, numeral 10 size = t ++ [c] :=
    ⟨_, _, (List.dropLast_concat_getLast (numeral_ne_nil size)).symm⟩
  have htrim : trim (numeral 10 size ++ List.replicate n space) = numeral 10 size := by
    have hc : c ∈ numeral 10 size := by
      rw [htc]
      exact List.mem_append_right _ (List.mem_singleton_self c)
    rw [htc]
    exact trim_digits (isDigit_of_mem_numeral hc) n
  have hread := strtoull_digits (numeral_ne_nil size) (fun c hc => isDigit_of_mem_numeral hc) (by rwa [hvalue])
  unfold dec
  rw [cText_self hnul, htrim]
  dsimp only []
  rw [if_neg (numeral_ne_nil size), hread, hvalue]
  rfl

/-! ## Members -/

/-- A header is read back as it was meant. -/
theorem arHeader_spec {name : Text} {size mode : Nat} (hname : name.length ≤ 15) (hnul : 0 ∉ name)
    (hsize : size < 10 ^ 10) :
    ∃ h, arHeader name size mode = some h ∧ h.length = 60 ∧ h.drop 58 = [96, newline] ∧
      dec ((h.drop 48).take 10) = some size ∧ trim (cText (h.take 16)) = name := by
  have hslen : (numeral 10 size).length ≤ 10 := length_numeral_le (by decide) hsize
  have hmlen : (numeral 8 (mode % 4096)).length ≤ 8 :=
    length_numeral_le (by decide) (lt_of_lt_of_le (Nat.mod_lt _ (by decide)) (by decide))
  obtain ⟨f₁, l₁⟩ := @field_of_length 16 (name ++ [slash]) (by rw [List.length_append]; exact Nat.succ_le_succ hname)
  obtain ⟨f₂, l₂⟩ := @field_of_length 12 [48] (by decide)
  obtain ⟨f₃, l₃⟩ := @field_of_length 6 [48] (by decide)
  obtain ⟨f₄, l₄⟩ := @field_of_length 8 _ hmlen
  obtain ⟨f₅, l₅⟩ := @field_of_length 10 _ hslen
  have hdec := @dec_numeral size (lt_trans hsize (by decide)) (10 - (numeral 10 size).length)
  have htrim := @trim_name name (16 - (name ++ [slash]).length)
  have htext : 0 ∉ name ++ [slash] ++ List.replicate (16 - (name ++ [slash]).length) space := by
    rw [List.mem_append, List.mem_append]
    rintro ((h | h) | h)
    · exact hnul h
    · exact absurd (List.mem_singleton.mp h) (by decide)
    · exact absurd (List.eq_of_mem_replicate h) (by decide)
  rw [← cText_self htext] at htrim
  unfold arHeader
  rw [f₁, f₂, f₃, f₄, f₅]
  dsimp only [Option.bind_eq_bind, Option.bind_some]
  generalize name ++ [slash] ++ List.replicate (16 - (name ++ [slash]).length) space = nameField at l₁ htrim ⊢
  generalize ([48] : Text) ++ List.replicate (12 - ([48] : Text).length) space = date at l₂ ⊢
  generalize ([48] : Text) ++ List.replicate (6 - ([48] : Text).length) space = owner at l₃ ⊢
  generalize numeral 8 (mode % 4096) ++ List.replicate (8 - (numeral 8 (mode % 4096)).length) space = modeField at l₄ ⊢
  generalize numeral 10 size ++ List.replicate (10 - (numeral 10 size).length) space = sizeField at l₅ hdec ⊢
  refine ⟨_, rfl, ?_, ?_, ?_, ?_⟩
  · simp only [List.length_append, l₁, l₂, l₃, l₄, l₅, List.length_cons, List.length_nil]
  · rw [List.drop_left']
    simp only [List.length_append, l₁, l₂, l₃, l₄, l₅]
  · rw [List.append_assoc, List.drop_left' (by simp only [List.length_append, l₁, l₂, l₃, l₄]), List.take_left' l₅, hdec]
  · simp only [List.append_assoc]
    rw [List.take_left' l₁, htrim]

/-- A member: its header, its bytes and the byte that makes their number even. -/
theorem guArWriteMember_eq {out src : List UInt8} {name : Text} {mode : Nat}
    (hname : name.length ≠ 0 ∧ name.length ≤ 15 ∧ slash ∉ name ∧ newline ∉ name ∧ space ∉ name) (hnul : 0 ∉ name)
    (hsize : src.length < 10 ^ 10) (hroom : out.length + src.length + 61 ≤ longMax) :
    ∃ h pad, guArWriteMember out name src src.length mode = some (out ++ (h ++ (src ++ pad))) ∧ h.length = 60 ∧
      h.drop 58 = [96, newline] ∧ dec ((h.drop 48).take 10) = some src.length ∧ trim (cText (h.take 16)) = name ∧
      pad.length = src.length % 2 := by
  obtain ⟨h, hh, hlen, hend, hdec, htrim⟩ := @arHeader_spec name src.length mode hname.2.1 hnul hsize
  have hwrite : fwrite out h = some (out ++ h) := fwrite_eq_some.mpr ⟨by omega, rfl⟩
  have hcopy : copyLoop src 0 src.length (out ++ h) = some (out ++ h ++ src) := by
    refine (copyLoop_eq_some src.length).mpr ⟨Or.inr ⟨by omega, ?_⟩, ?_⟩
    · rw [List.length_append]
      omega
    · rw [List.drop_zero, List.take_length]
  have hpad : ∃ pad : List UInt8, pad.length = src.length % 2 ∧
      (if src.length % 2 ≠ 0 then fwrite (out ++ h ++ src) [newline] else some (out ++ h ++ src)) =
        some (out ++ (h ++ (src ++ pad))) := by
    by_cases hodd : src.length % 2 ≠ 0
    · refine ⟨[newline], ?_, ?_⟩
      · rw [List.length_singleton]
        omega
      · rw [if_pos hodd]
        refine fwrite_eq_some.mpr ⟨?_, ?_⟩
        · rw [List.length_append, List.length_append, List.length_singleton]
          omega
        · simp only [List.append_assoc]
    · refine ⟨[], ?_, ?_⟩
      · rw [List.length_nil]
        omega
      · rw [if_neg hodd]
        simp only [List.append_assoc, List.append_nil]
  obtain ⟨pad, hplen, hpad⟩ := hpad
  refine ⟨h, pad, ?_, hlen, hend, hdec, htrim, hplen⟩
  have hgood : ¬ (name.length = 0 ∨ 15 < name.length ∨ slash ∈ name ∨ newline ∈ name ∨ space ∈ name) := by
    rintro (h | h | h | h | h)
    · exact hname.1 h
    · omega
    · exact hname.2.2.1 h
    · exact hname.2.2.2.1 h
    · exact hname.2.2.2.2 h
  unfold guArWriteMember
  rw [if_neg hgood, hh, Option.bind_eq_bind, Option.bind_some, hwrite, Option.bind_some, hcopy, Option.bind_some,
    hpad]

/-- Past a member. -/
theorem openLoop_member {file a h bytes pad rest : List UInt8} {fuel pos : Nat} {pkg pkg' : DebPackage} {name : Text}
    (hfile : file = a ++ (h ++ (bytes ++ pad)) ++ rest) (ha : a.length = pos) (hlen : h.length = 60)
    (hend : h.drop 58 = [96, newline]) (hdec : dec ((h.drop 48).take 10) = some bytes.length)
    (htrim : trim (cText (h.take 16)) = name) (hpad : pad.length = bytes.length % 2)
    (hnote : noteMember file pkg name (pos + 60) bytes.length = .ok pkg') (hmax : file.length ≤ longMax) :
    openLoop file (fuel + 1) pos pkg = openLoop file fuel (a ++ (h ++ (bytes ++ pad))).length pkg' := by
  have htotal : file.length = pos + 60 + bytes.length + bytes.length % 2 + rest.length := by
    rw [hfile]
    simp only [List.length_append, ha, hlen, hpad]
    omega
  have hnext : (pos + 60 + bytes.length + bytes.length % 2) % 18446744073709551616 = (a ++ (h ++ (bytes ++ pad))).length := by
    have hlt : longMax < 18446744073709551616 := by decide
    rw [Nat.mod_eq_of_lt (by omega)]
    simp only [List.length_append, ha, hlen, hpad]
    omega
  have hread : fread file pos 60 = some h := by
    rw [hfile, List.append_assoc, List.append_assoc]
    exact fread_append ha hlen
  rw [openLoop, if_neg (by omega), hread]
  dsimp only []
  rw [if_neg (not_not.mpr hend), hdec]
  dsimp only []
  rw [htrim, hnote]
  dsimp only []
  rw [hnext, if_neg]
  have := congrArg List.length hfile
  rw [List.length_append] at this
  omega

/-! ## The package -/

theorem controlName (xz : Bool) : ((controlTar ++ suffix xz).length ≠ 0 ∧ (controlTar ++ suffix xz).length ≤ 15 ∧
    slash ∉ controlTar ++ suffix xz ∧ newline ∉ controlTar ++ suffix xz ∧ space ∉ controlTar ++ suffix xz) ∧
    0 ∉ controlTar ++ suffix xz := by
  cases xz <;> decide

theorem dataName (xz : Bool) : ((dataTar ++ suffix xz).length ≠ 0 ∧ (dataTar ++ suffix xz).length ≤ 15 ∧
    slash ∉ dataTar ++ suffix xz ∧ newline ∉ dataTar ++ suffix xz ∧ space ∉ dataTar ++ suffix xz) ∧
    0 ∉ dataTar ++ suffix xz := by
  cases xz <;> decide

theorem noteMember_control (xz : Bool) (file : List UInt8) (pkg : DebPackage) (pos sz : Nat) :
    noteMember file pkg (controlTar ++ suffix xz) pos sz = .ok { pkg with control := ⟨controlTar ++ suffix xz, pos, sz⟩ } := by
  unfold noteMember
  rw [if_neg (by cases xz <;> decide), if_pos (List.prefix_append ..)]

theorem noteMember_data (xz : Bool) (file : List UInt8) (pkg : DebPackage) (pos sz : Nat) :
    noteMember file pkg (dataTar ++ suffix xz) pos sz = .ok { pkg with data := ⟨dataTar ++ suffix xz, pos, sz⟩ } := by
  unfold noteMember
  rw [if_neg (by cases xz <;> decide), if_neg (by cases xz <;> decide), if_pos (List.prefix_append ..)]

/-- What is built from two streams is opened again, and the members are found with the names, the
sizes and the offsets that their bytes were written with. -/
theorem debOpenFp_built (xz : Bool) {control data : List UInt8} (hc : control.length < 10 ^ 10)
    (hd : data.length < 10 ^ 10) :
    ∃ file oc od, guDebBuildEx xz control data = some file ∧
      (∀ fuel, 4 ≤ fuel → debOpenFp fuel file = some (.ok ⟨[50, 46, 48],
        ⟨controlTar ++ suffix xz, oc, control.length⟩, ⟨dataTar ++ suffix xz, od, data.length⟩⟩)) ∧
      (file.drop oc).take control.length = control ∧ (file.drop od).take data.length = data := by
  obtain ⟨magic, hmagic⟩ : ∃ m : List UInt8, m = [33, 60, 97, 114, 99, 104, 62, 10] := ⟨_, rfl⟩
  have hmlen : magic.length = 8 := by rw [hmagic]; rfl
  have hbegin : guArWriteBegin [] = some magic := by rw [hmagic]; decide
  have hbig : 30000000000 ≤ longMax := by decide
  norm_num at hc hd
  obtain ⟨h₁, p₁, hw₁, hl₁, he₁, hd₁, ht₁, hp₁⟩ := @guArWriteMember_eq magic [50, 46, 48, 10] debianBinary 420
    (by decide) (by decide) (by decide) (by simp only [hmlen, List.length_cons, List.length_nil]; omega)
  obtain ⟨out₁, hout₁⟩ : ∃ o, o = magic ++ (h₁ ++ ([50, 46, 48, 10] ++ p₁)) := ⟨_, rfl⟩
  have hlen₁ : out₁.length = 72 := by
    rw [hout₁]
    simp only [List.length_append, hmlen, hl₁, hp₁, List.length_cons, List.length_nil]
  obtain ⟨h₂, p₂, hw₂, hl₂, he₂, hd₂, ht₂, hp₂⟩ := @guArWriteMember_eq out₁ control (controlTar ++ suffix xz) 420
    (controlName xz).1 (controlName xz).2 (by norm_num; exact hc) (by omega)
  obtain ⟨out₂, hout₂⟩ : ∃ o, o = out₁ ++ (h₂ ++ (control ++ p₂)) := ⟨_, rfl⟩
  have hlen₂ : out₂.length = 132 + control.length + control.length % 2 := by
    rw [hout₂]
    simp only [List.length_append, hlen₁, hl₂, hp₂]
    omega
  obtain ⟨h₃, p₃, hw₃, hl₃, he₃, hd₃, ht₃, hp₃⟩ := @guArWriteMember_eq out₂ data (dataTar ++ suffix xz) 420
    (dataName xz).1 (dataName xz).2 (by norm_num; exact hd) (by omega)
  obtain ⟨file, hfile⟩ : ∃ o, o = out₂ ++ (h₃ ++ (data ++ p₃)) := ⟨_, rfl⟩
  have hlen₃ : file.length = out₂.length + 60 + data.length + data.length % 2 := by
    rw [hfile]
    simp only [List.length_append, hl₃, hp₃]
    omega
  have hfile₂ : file = out₂ ++ (h₃ ++ (data ++ p₃)) := hfile
  have hfile₁ : file = out₁ ++ ((h₂ ++ (control ++ p₂)) ++ (h₃ ++ (data ++ p₃))) := by
    rw [hfile, hout₂, List.append_assoc]
  rw [← hout₁] at hw₁
  rw [← hout₂] at hw₂
  rw [← hfile] at hw₃
  refine ⟨file, 132, out₂.length + 60, ?_, ?_, ?_, ?_⟩
  · unfold guDebBuildEx addMember
    rw [hbegin, Option.bind_eq_bind, Option.bind_some]
    rw [show guArWriteMember magic debianBinary [50, 46, 48, 10] 4 420 = some out₁ from hw₁, Option.bind_some, hw₂,
      Option.bind_some, hw₃]
  · intro fuel hfuel
    obtain ⟨fuel, rfl⟩ : ∃ k, fuel = k + 4 := ⟨fuel - 4, by omega⟩
    have hstart : fread file 0 8 = some magic := by
      rw [hfile₁, hout₁, List.append_assoc]
      exact fread_append (a := []) rfl hmlen
    have hversion : fread file 68 4 = some [50, 46, 48, 10] := by
      rw [hfile₁, hout₁, List.append_assoc, List.append_assoc, List.append_assoc, ← List.append_assoc]
      exact fread_append (by rw [List.length_append, hmlen, hl₁]) rfl
    have hnote : noteMember file ⟨[], ⟨[], 0, 0⟩, ⟨[], 0, 0⟩⟩ debianBinary (8 + 60) ([50, 46, 48, 10] : Text).length =
        .ok ⟨[50, 46, 48], ⟨[], 0, 0⟩, ⟨[], 0, 0⟩⟩ := by
      unfold noteMember
      rw [if_pos rfl]
      dsimp only []
      rw [if_neg (by decide), show (if ([50, 46, 48, 10] : Text).length < 31 then ([50, 46, 48, 10] : Text).length else 31) = 4
        from rfl, hversion]
      exact congrArg Except.ok (by decide)
    unfold debOpenFp
    rw [hstart]
    dsimp only []
    rw [if_neg (not_not.mpr hmagic)]
    -- the three members, and then the end of the file
    rw [openLoop_member (hfile₁.trans (by rw [hout₁])) hmlen hl₁ he₁ hd₁ ht₁ hp₁ hnote (by omega), ← hout₁]
    rw [openLoop_member (hfile₂.trans (by rw [hout₂])) rfl hl₂ he₂ hd₂ ht₂ hp₂ (noteMember_control xz ..) (by omega),
      ← hout₂]
    rw [@openLoop_member file out₂ h₃ data p₃ [] (fuel + 1) out₂.length _ _ _ (hfile.trans (List.append_nil _).symm) rfl hl₃ he₃ hd₃ ht₃ hp₃
      (noteMember_data xz ..) (by omega), ← hfile, openLoop, if_pos le_rfl, hlen₁]
    unfold accepted
    rw [if_pos]
    refine ⟨List.cons_ne_nil _ _, ?_, ?_⟩
    · exact fun h => (controlName xz).1.1 (congrArg List.length h)
    · exact fun h => (dataName xz).1.1 (congrArg List.length h)
  · rw [hfile₂, hout₂, List.append_assoc, List.append_assoc, List.append_assoc, ← List.append_assoc,
      List.drop_left' (by rw [List.length_append, hlen₁, hl₂]), List.take_left' rfl]
  · rw [hfile, ← List.append_assoc, List.drop_left' (by rw [List.length_append, hl₃]), List.take_left' rfl]

/-- A control archive of an odd size and a data archive of an even one. -/
theorem debOpenFp_built_odd_even : ∃ file oc od, guDebBuildEx true [1, 2, 3] [4, 5] = some file ∧
    (∀ fuel, 4 ≤ fuel → debOpenFp fuel file = some (.ok ⟨[50, 46, 48],
      ⟨controlTar ++ suffix true, oc, 3⟩, ⟨dataTar ++ suffix true, od, 2⟩⟩)) ∧
    (file.drop oc).take 3 = [1, 2, 3] ∧ (file.drop od).take 2 = [4, 5] :=
  @debOpenFp_built true [1, 2, 3] [4, 5] (by decide) (by decide)

end Guppy.Archive.Ar
