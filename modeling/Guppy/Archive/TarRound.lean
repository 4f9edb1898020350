import Guppy.Archive.Tar
import Mathlib.Data.List.GetD
import Mathlib.Tactic.NormNum

set_option autoImplicit false

/-! # What the reader makes of a written archive

A header that was written is read back as it was meant (`entryOf_header`). So the walk reports an
entry, and it goes on at the next header as long as the mask has the whole size: from `2 ^ 32 - 511`
bytes on the walk falls back into the payload.
-/

namespace Guppy.Archive

open Vfs Digits

/-! ## Octal fields -/

theorem oct_eq_some {width v : Nat} {t : List UInt8} (h : oct width v = some t) :
    v < 8 ^ (width - 1) ∧ t = fixed 8 (width - 1) v ++ [0] := by
  unfold oct at h
  split at h
  · cases h
  · rename_i hdiv
    cases h
    refine ⟨?_, rfl⟩
    have hpos : 0 < 8 ^ (width - 1) := by positivity
    by_contra hge
    exact hdiv (fun h => hge ((Nat.div_eq_zero_iff_lt hpos).mp h))

theorem octal_fixed {n v : Nat} (h : v < 8 ^ n) : octal (fixed 8 n v ++ [0]) = v := by
  have hdigit : ∀ c ∈ fixed 8 n v, decide (48 ≤ c ∧ c ≤ 55) = true := by
    intro c hc
    obtain ⟨h₁, h₂⟩ := mem_fixed (by omega) (by omega) hc
    rw [decide_eq_true_iff, UInt8.le_iff_toNat_le, UInt8.le_iff_toNat_le]
    exact ⟨h₁, show c.toNat ≤ 55 by omega⟩
  unfold octal
  cases hf : fixed 8 n v with
  | nil =>
      -- no digits, and the value is zero
      have : n = 0 := by
        have := length_fixed 8 n v
        rw [hf] at this
        exact this.symm
      subst this
      have : v = 0 := by simpa using h
      rw [this]
      decide
  | cons c t =>
      have hc : decide (c = 32 ∨ c = 0) = false := by
        have := hdigit c (by rw [hf]; exact List.mem_cons_self ..)
        rw [decide_eq_true_iff] at this
        rw [decide_eq_false_iff_not]
        rintro (rfl | rfl) <;> exact absurd this (by decide)
      rw [hf] at hdigit
      rw [List.cons_append, List.dropWhile_cons_of_neg (by simp [hc]), ← List.cons_append,
        List.takeWhile_append_of_pos hdigit, List.takeWhile_cons_of_neg (by decide), List.append_nil, ← hf,
        value_fixed (by omega) (by omega), Nat.mod_eq_of_lt h]

/-! ## Names -/

/-- A split that fits. -/
theorem splitSlash_eq_some {path : Text} {i : Nat} (h : splitSlash path = some i) :
    i < path.length ∧ path.getD i 0 = slash ∧ i ≤ 155 ∧ path.length - i - 1 ≤ 100 := by
  have hfold : ∀ (l : List Nat) (found : Option Nat),
      (∀ j, found = some j → j < path.length ∧ path.getD j 0 = slash ∧ j ≤ 155 ∧ path.length - j - 1 ≤ 100) →
      (∀ j ∈ l, j < path.length) → ∀ j, l.foldl (fun found i =>
        if path.getD i 0 = slash ∧ i ≤ 155 ∧ path.length - i - 1 ≤ 100 then some i else found) found = some j →
      j < path.length ∧ path.getD j 0 = slash ∧ j ≤ 155 ∧ path.length - j - 1 ≤ 100 := by
    intro l
    induction l with
    | nil => exact fun found hfound _ => hfound
    | cons k l ih =>
        intro found hfound hl
        refine ih _ ?_ (fun j hj => hl j (List.mem_cons_of_mem _ hj))
        intro j hj
        dsimp only [] at hj
        split at hj
        · rename_i hk
          cases hj
          exact ⟨hl k (List.mem_cons_self ..), hk⟩
        · exact hfound j hj
  exact hfold _ none (fun j hj => by cases hj) (fun j hj => List.mem_range.mp hj) i h

/-- The path of a name and a prefix. -/
def joined (name pre : Text) : Text := if pre = [] then name else pre ++ slash :: name

theorem nameFields_eq_some {path name pre : Text} (h : nameFields path = some (name, pre)) :
    name ≠ [] ∧ name.length ≤ 100 ∧ pre.length ≤ 155 ∧ joined name pre = path := by
  unfold nameFields at h
  split at h
  · cases h
  · rename_i hpath
    split at h
    · cases h
    · split at h
      · rename_i hlen
        cases h
        exact ⟨fun h => hpath (Or.inl h), hlen, Nat.zero_le _, if_pos rfl⟩
      · split at h
        · cases h
        · rename_i i hsplit
          obtain ⟨hi, hslash, h155, h100⟩ := splitSlash_eq_some hsplit
          split at h
          · cases h
          · rename_i hends
            cases h
            have hne : path.take i ≠ [] := by
              intro hnil
              have := congrArg List.length hnil
              rw [List.length_take, List.length_nil] at this
              omega
            refine ⟨?_, by rw [List.length_drop]; omega, by rw [List.length_take]; omega, ?_⟩
            · intro hnil
              have := congrArg List.length hnil
              rw [List.length_drop, List.length_nil] at this
              omega
            · rw [joined, if_neg hne]
              have hget : path[i] = slash := by rwa [List.getD_eq_getElem _ _ hi] at hslash
              rw [← hget, ← List.drop_eq_getElem_cons hi, List.take_append_drop]

theorem mem_joined {name pre : Text} : (∀ c ∈ name, c ∈ joined name pre) ∧ (∀ c ∈ pre, c ∈ joined name pre) := by
  unfold joined
  split
  · rename_i h
    subst h
    exact ⟨fun _ hc => hc, fun _ hc => by cases hc⟩
  · exact ⟨fun c hc => List.mem_append_right _ (List.mem_cons_of_mem _ hc), fun c hc => List.mem_append_left _ hc⟩

/-! ## Headers -/

theorem length_field {n : Nat} {t : List UInt8} (h : t.length ≤ n) : (field n t).length = n := by
  rw [field, List.length_append, List.length_replicate]
  omega

theorem sliceOf_skip {a b : List UInt8} {k o n : Nat} (ha : a.length = k) (h : k ≤ o) :
    sliceOf (a ++ b) o n = sliceOf b (o - k) n := by
  rw [sliceOf, sliceOf, List.drop_append, List.drop_eq_nil_of_le (by omega), ha, List.nil_append]

theorem sliceOf_head {b c : List UInt8} {n : Nat} (hb : b.length = n) : sliceOf (b ++ c) 0 n = b := by
  rw [sliceOf, List.drop_zero, List.take_left' hb]

theorem getD_skip {a b : List UInt8} {k o : Nat} (ha : a.length = k) (h : k ≤ o) :
    (a ++ b).getD o 0 = b.getD (o - k) 0 := by
  rw [List.getD_append_right _ _ _ _ (by omega), ha]

section

variable {name pre mode size chksum : List UInt8} {type : UInt8} (hname : name.length ≤ 100)
  (hpre : pre.length ≤ 155) (hmode : mode.length = 8) (hsize : size.length = 12) (hchk : chksum.length = 8)
include hname hmode hsize hchk

theorem length_headerBlock (hpre : pre.length ≤ 155) :
    (headerBlock name pre mode size type chksum).length = 512 := by
  simp only [headerBlock, List.length_append, length_field hname, length_field hpre, length_fixed,
    List.length_replicate, List.length_cons, List.length_nil, hmode, hsize, hchk]

/-- The fields that the reader takes out of a block. -/
theorem headerBlock_fields (hpre : pre.length ≤ 155) {h : List UInt8}
    (hh : h = headerBlock name pre mode size type chksum) :
    sliceOf h 0 100 = field 100 name ∧ sliceOf h 100 8 = mode ∧ sliceOf h 124 12 = size ∧
      h.getD 156 0 = type ∧ sliceOf h 157 100 = List.replicate 100 0 ∧ sliceOf h 345 155 = field 155 pre ∧
      h.getD 345 0 = (field 155 pre).getD 0 0 := by
  obtain ⟨z, hz⟩ : ∃ z : List UInt8, z = fixed 8 7 0 ++ [0] := ⟨_, rfl⟩
  obtain ⟨t, ht⟩ : ∃ t : List UInt8, t = fixed 8 11 0 ++ [0] := ⟨_, rfl⟩
  have hz8 : z.length = 8 := by rw [hz, List.length_append, length_fixed]; rfl
  have ht12 : t.length = 12 := by rw [ht, List.length_append, length_fixed]; rfl
  have hname' := length_field hname
  have hpre' := length_field hpre
  have hblock : h = field 100 name ++ (mode ++ (z ++ (z ++ (size ++ (t ++ (chksum ++ ([type] ++
      (List.replicate 100 0 ++ ([117, 115, 116, 97, 114, 0, 48, 48] ++ (List.replicate 80 0 ++
        (field 155 pre ++ List.replicate 12 0))))))))))) := by
    rw [hh, headerBlock, ← hz, ← ht]
    simp only [List.append_assoc]
  have hskip : ∀ o n, 157 ≤ o → sliceOf h o n = sliceOf (List.replicate 100 0 ++
      ([117, 115, 116, 97, 114, 0, 48, 48] ++ (List.replicate 80 0 ++ (field 155 pre ++ List.replicate 12 0))))
        (o - 157) n := by
    intro o n ho
    rw [hblock, sliceOf_skip hname' (by omega), sliceOf_skip hmode (by omega), sliceOf_skip hz8 (by omega),
      sliceOf_skip hz8 (by omega), sliceOf_skip hsize (by omega), sliceOf_skip ht12 (by omega),
      sliceOf_skip hchk (by omega), sliceOf_skip (k := 1) rfl (by omega),
      show o - 100 - 8 - 8 - 8 - 12 - 12 - 8 - 1 = o - 157 by omega]
  have hprefix : sliceOf h 345 155 = field 155 pre := by
    rw [hskip 345 155 (by omega), sliceOf_skip (List.length_replicate ..) (by omega), sliceOf_skip (k := 8) rfl (by omega),
      sliceOf_skip (List.length_replicate ..) (by omega)]
    exact sliceOf_head hpre'
  refine ⟨?_, ?_, ?_, ?_, ?_, hprefix, ?_⟩
  · rw [hblock]
    exact sliceOf_head hname'
  · rw [hblock, sliceOf_skip hname' (by omega)]
    exact sliceOf_head hmode
  · rw [hblock, sliceOf_skip hname' (by omega), sliceOf_skip hmode (by omega), sliceOf_skip hz8 (by omega),
      sliceOf_skip hz8 (by omega)]
    exact sliceOf_head hsize
  · rw [hblock, getD_skip hname' (by omega), getD_skip hmode (by omega), getD_skip hz8 (by omega),
      getD_skip hz8 (by omega), getD_skip hsize (by omega), getD_skip ht12 (by omega), getD_skip hchk (by omega)]
    rfl
  · rw [hskip 157 100 (by omega)]
    exact sliceOf_head (List.length_replicate ..)
  · -- the first byte of the prefix
    rw [← hprefix, sliceOf]
    simp [List.getD_eq_getElem?_getD]

end

/-! ## Entries -/

/-- The entry that a header was written for. -/
theorem entryOf_header {path : Text} {size mode o : Nat} {type : UInt8} {h : List UInt8} (hpath : 0 ∉ path)
    (htype : type ≠ 0) (hh : header path size mode type = some h) :
    h.length = 512 ∧ zero h = false ∧ entryOf h o = ⟨path, [], size, mode % 4096, type, o⟩ := by
  simp only [header, Option.bind_eq_bind, Option.bind_eq_some_iff] at hh
  obtain ⟨⟨name, pre⟩, hnames, modeField, hmode, sizeField, hsize, sum, hsum, hblock⟩ := hh
  obtain ⟨hne, h100, h155, hjoin⟩ := nameFields_eq_some hnames
  obtain ⟨hmlt, hmf⟩ := oct_eq_some hmode
  obtain ⟨hslt, hsf⟩ := oct_eq_some hsize
  obtain ⟨-, hcf⟩ := oct_eq_some hsum
  have hmlen : modeField.length = 8 := by rw [hmf, List.length_append, length_fixed]; rfl
  have hslen : sizeField.length = 12 := by rw [hsf, List.length_append, length_fixed]; rfl
  have hclen : (sum ++ [32]).length = 8 := by
    rw [hcf, List.length_append, List.length_append, length_fixed]
    rfl
  have hlen := @length_headerBlock name pre modeField sizeField (sum ++ [32]) type h100 hmlen hslen hclen h155
  obtain ⟨f₁, f₂, f₃, f₄, f₅, f₆, f₇⟩ :=
    headerBlock_fields h100 hmlen hslen hclen h155 (Option.some.inj hblock).symm
  have hname0 : 0 ∉ name := fun h0 => hpath (hjoin ▸ mem_joined.1 0 h0)
  have hpre0 : 0 ∉ pre := fun h0 => hpath (hjoin ▸ mem_joined.2 0 h0)
  have hfirst : (field 155 pre).getD 0 0 ≠ 0 ↔ pre ≠ [] := by
    cases pre with
    | nil => decide
    | cons c t =>
        refine ⟨fun _ => List.cons_ne_nil c t, fun _ h0 => hpre0 ?_⟩
        rw [← show c = 0 from h0]
        exact List.mem_cons_self ..
  refine ⟨(congrArg List.length (Option.some.inj hblock)).symm.trans hlen, ?_, ?_⟩
  · -- the first byte of the name
    cases name with
    | nil => exact absurd rfl hne
    | cons c t =>
        have hc : c ≠ 0 := fun h0 => hname0 (h0 ▸ List.mem_cons_self ..)
        obtain ⟨rest, hrest⟩ : ∃ rest, headerBlock (c :: t) pre modeField sizeField type (sum ++ [32]) = c :: rest :=
          ⟨_, rfl⟩
        rw [← Option.some.inj hblock, hrest, zero, List.all_cons, decide_eq_false hc, Bool.false_and]
  · unfold entryOf
    rw [f₁, f₂, f₃, f₄, f₅, f₆, f₇, if_pos htype, hmf, hsf, octal_fixed hmlt, octal_fixed hslt]
    have hn : cText (field 100 name) = name := cText_padded hname0 _
    have hp : cText (field 155 pre) = pre := cText_padded hpre0 _
    have hl : cText (List.replicate 100 0) = [] := by decide
    rw [hn, hp, hl]
    congr 1
    by_cases hpe : pre = []
    · rw [if_neg (fun hne => (hfirst.mp hne) hpe)]
      rw [← hjoin, joined, if_pos hpe]
    · rw [if_pos (hfirst.mpr hpe), ← hjoin, joined, if_neg hpe, List.take_of_length_le]
      rw [List.length_append, List.length_cons]
      omega

namespace Entry

/-- The path that the reader has to report. -/
def name : Entry → Text
  | .dir path _ => dirName path.text
  | .file path _ _ _ => path.text

def type : Entry → UInt8
  | .dir _ _ => 53
  | .file _ _ _ _ => 48

def mode : Entry → Nat
  | .dir _ mode => mode
  | .file _ _ _ mode => mode

def payload : Entry → List UInt8
  | .dir _ _ => []
  | .file _ src size _ => src.take size

def size (e : Entry) : Nat := e.payload.length

theorem name_noNul (e : Entry) : 0 ∉ e.name := by
  cases e with
  | dir path mode =>
      show 0 ∉ dirName path.text
      unfold dirName
      split
      · exact path.noNul
      · rw [List.mem_append, List.mem_singleton]
        exact fun h => h.elim path.noNul (by decide)
  | file path src size mode => exact path.noNul

/-- The entry as it is to be reported, with its payload at an offset. -/
def described (e : Entry) (dataOffset : Nat) : TarEntry :=
  ⟨e.name, [], e.size, e.mode % 4096, e.type, dataOffset⟩

end Entry

/-- The size of a payload with what fills up its last block. -/
def roundUp (n : Nat) : Nat := n + (512 - n % 512) % 512

/-- The entries of an archive that starts at `start`. -/
def describedFrom : Nat → List Entry → List TarEntry
  | _, [] => []
  | start, e :: es => e.described (start + 512) :: describedFrom (start + 512 + roundUp e.size) es

/-- A header, the payload and the fill. -/
theorem writeEntry_eq_some {out file : List UInt8} {e : Entry} (h : writeEntry out e = some file) :
    file.length ≤ longMax ∧ ∃ block, (∀ o, block.length = 512 ∧ zero block = false ∧ entryOf block o = e.described o) ∧
      file = out ++ (block ++ (e.payload ++ List.replicate (roundUp e.size - e.size) 0)) := by
  cases e with
  | dir path mode =>
      simp only [writeEntry, guTarWriteDir] at h
      split at h
      · cases h
      · simp only [Option.bind_eq_bind, Option.bind_eq_some_iff] at h
        obtain ⟨block, hblock, hwrite⟩ := h
        obtain ⟨hmax, rfl⟩ := fwrite_eq_some.mp hwrite
        refine ⟨by rwa [List.length_append], block, fun o => ?_, ?_⟩
        · exact entryOf_header (Entry.dir path mode).name_noNul (show (53 : UInt8) ≠ 0 by decide) hblock
        · simp [Entry.payload, Entry.size, roundUp]
  | file path src size mode =>
      simp only [writeEntry, guTarWriteFile, Option.bind_eq_bind, Option.bind_eq_some_iff] at h
      obtain ⟨block, hblock, out₁, hwrite₁, out₂, hcopy, hwrite₂⟩ := h
      obtain ⟨-, rfl⟩ := fwrite_eq_some.mp hwrite₁
      obtain ⟨hroom, rfl⟩ := (copyLoop_eq_some size).mp hcopy
      obtain ⟨hmax, rfl⟩ := fwrite_eq_some.mp hwrite₂
      have hsize : (Entry.file path src size mode).size = size := by
        show (src.take size).length = size
        rw [List.length_take]
        omega
      refine ⟨by rwa [List.length_append], block, fun o => ?_, ?_⟩
      · have := @entryOf_header _ _ _ o _ _ path.noNul (by decide) hblock
        unfold Entry.described
        rw [hsize]
        exact this
      · rw [hsize, roundUp, Nat.add_sub_cancel_left, List.drop_zero, List.append_assoc, List.append_assoc]
        rfl

/-! ## The mask -/

theorem padded_eq (size : Nat) : padded size = (size + 511) % 4294967296 / 512 * 512 := by
  have hmask : (4294966784 : Nat) = (2 ^ 23 - 1) <<< 9 := by decide
  unfold padded
  have hshift : (size + 511) % 4294967296 / 512 * 512 = ((size + 511) % 2 ^ 32) >>> 9 <<< 9 := by
    rw [Nat.shiftLeft_eq, Nat.shiftRight_eq_div_pow]
    norm_num
  rw [hshift, hmask]
  apply Nat.eq_of_testBit_eq
  intro i
  simp only [Nat.testBit_and, Nat.testBit_shiftLeft, Nat.testBit_shiftRight, Nat.testBit_mod_two_pow,
    Nat.testBit_two_pow_sub_one]
  by_cases h9 : 9 ≤ i
  · rw [show 9 + (i - 9) = i by omega]
    by_cases h32 : i < 32
    · simp [h9, h32, show i - 9 < 23 by omega]
    · simp [h32, show ¬ i - 9 < 23 by omega]
  · simp [h9]

/-- The mask has the whole size. -/
def Entry.Small (e : Entry) : Prop := e.size + 511 < 4294967296

theorem padded_of_small {n : Nat} (h : n + 511 < 4294967296) : padded n = roundUp n := by
  rw [padded_eq, roundUp, Nat.mod_eq_of_lt h]
  omega

theorem padded_of_large {n : Nat} (h : ¬ n + 511 < 4294967296) : padded n + 512 ≤ n := by
  rw [padded_eq]
  omega

theorem le_roundUp (n : Nat) : n ≤ roundUp n := Nat.le_add_right ..

/-! ## The walk -/

section Walk

variable {file : List UInt8} {off len : Nat}

/-- Past an entry. -/
theorem walkLoop_entry {a rest block : List UInt8} {d : TarEntry} {fuel pos : Nat} {seen : List TarEntry}
    (hfile : file = a ++ (block ++ rest)) (ha : a.length = off + pos) (hblock : block.length = 512)
    (hzero : zero block = false) (hd : entryOf block (off + (pos + 512)) = d)
    (hsize : pos + 512 + d.size ≤ len) (hpad : padded d.size ≤ roundUp d.size)
    (hround : pos + 512 + roundUp d.size ≤ len) (hmax : off + len ≤ longMax) :
    walkLoop file off len collect (fuel + 1) pos seen =
      walkLoop file off len collect fuel (pos + 512 + padded d.size) (seen ++ [d]) := by
  rw [walkLoop, if_pos (by omega), hfile, fread_append ha hblock, ← hfile]
  dsimp only []
  rw [hzero, if_neg Bool.false_ne_true, hd, if_neg (by omega), show collect seen d = (seen ++ [d], false) from rfl]
  dsimp only []
  rw [if_neg Bool.false_ne_true, if_neg (by omega), if_neg (by omega)]

/-- What the walk reports after what it has reported; the first new entry is the one at the
position. -/
theorem walkLoop_extends (fuel : Nat) : ∀ (pos : Nat) (seen : List TarEntry),
    ∃ more, (walkLoop file off len collect fuel pos seen).2 = seen ++ more ∧
      ∀ d ∈ more.head?, d.dataOffset = off + (pos + 512) := by
  induction fuel with
  | zero => exact fun pos seen => ⟨[], (List.append_nil _).symm, fun d hd => by cases hd⟩
  | succ fuel ih =>
      intro pos seen
      have hnone : ∃ more, seen = seen ++ more ∧ ∀ d ∈ more.head?, d.dataOffset = off + (pos + 512) :=
        ⟨[], (List.append_nil _).symm, fun d hd => by cases hd⟩
      unfold walkLoop
      split
      · split
        · exact hnone
        · rename_i h hread
          dsimp only [collect]
          have hone : ∃ more, seen ++ [entryOf h (off + (pos + 512))] = seen ++ more ∧
              ∀ d ∈ more.head?, d.dataOffset = off + (pos + 512) :=
            ⟨[entryOf h (off + (pos + 512))], rfl, fun d hd => by cases hd; rfl⟩
          split
          · exact hnone
          · split
            · exact hnone
            · split
              · exact hone
              · split
                · exact hone
                · split
                  · exact hone
                  · obtain ⟨more, hmore, -⟩ := ih (pos + 512 + padded (entryOf h (off + (pos + 512))).size)
                      (seen ++ [entryOf h (off + (pos + 512))])
                    refine ⟨entryOf h (off + (pos + 512)) :: more, ?_, fun d hd => by cases hd; rfl⟩
                    rw [hmore, List.append_assoc]
                    rfl
      · exact hnone

/-- A block with something in it is reported, or it stops the walk. -/
theorem walkLoop_block {fuel pos : Nat} {seen : List TarEntry} {h : List UInt8} (hpos : pos + 512 ≤ len)
    (hread : fread file (off + pos) 512 = some h) (hend : walkLoop file off len collect (fuel + 1) pos seen = (0, seen)) :
    zero h = true := by
  by_contra hzero
  unfold walkLoop at hend
  rw [if_pos hpos, hread] at hend
  dsimp only [collect] at hend
  rw [if_neg hzero] at hend
  have hlonger : ∀ more, seen ≠ seen ++ [entryOf h (off + (pos + 512))] ++ more := by
    intro more heq
    have := congrArg List.length heq
    simp at this
  split at hend
  · cases hend
  · split at hend
    · exact absurd (congrArg Prod.fst hend) (by simp)
    · split at hend
      · exact absurd (congrArg Prod.fst hend) (by simp)
      · split at hend
        · exact absurd (congrArg Prod.fst hend) (by simp)
        · obtain ⟨more, hmore, -⟩ := @walkLoop_extends file off len fuel
            (pos + 512 + padded (entryOf h (off + (pos + 512))).size) (seen ++ [entryOf h (off + (pos + 512))])
          rw [hend] at hmore
          exact hlonger more hmore

end Walk

theorem writeArchive_eq_some {es : List Entry} : ∀ {out file : List UInt8}, writeArchive out es = some file →
    file.length ≤ longMax ∧ ∃ tail, file = out ++ tail := by
  induction es with
  | nil =>
      intro out file h
      unfold writeArchive guTarWriteEnd at h
      obtain ⟨hmax, hfile⟩ := fwrite_eq_some.mp h
      exact ⟨by rwa [hfile, List.length_append], _, hfile⟩
  | cons e es ih =>
      intro out file h
      unfold writeArchive at h
      split at h
      · cases h
      · rename_i out' hentry
        obtain ⟨-, block, -, rfl⟩ := writeEntry_eq_some hentry
        obtain ⟨hmax, tail, rfl⟩ := ih h
        exact ⟨hmax, _, List.append_assoc ..⟩

/-- The mask has the size of every entry, or the archive ends with an entry that it has not, and
where the walk goes on in the payload of that one is a block of zeros. -/
def Sound : List Entry → Prop
  | [] => True
  | e :: es =>
      (e.Small ∧ Sound es) ∨
        (¬ e.Small ∧ es = [] ∧ zero (sliceOf e.payload ((e.size + 511) % 4294967296 / 512 * 512) 512) = true)

section Written

variable {file rest : List UInt8} {off len : Nat}

theorem walkLoop_written (es : List Entry) : ∀ {out : List UInt8} {fuel pos : Nat} {seen : List TarEntry},
    writeArchive out es = some file → out.length = off + pos → off + len = file.length → (len - pos) / 512 < fuel →
    (walkLoop (file ++ rest) off len collect fuel pos seen = (0, seen ++ describedFrom out.length es) ↔ Sound es) := by
  induction es with
  | nil =>
      intro out fuel pos seen h hout hlen hfuel
      unfold writeArchive guTarWriteEnd at h
      obtain ⟨hmax, hfile⟩ := fwrite_eq_some.mp h
      obtain ⟨fuel, rfl⟩ : ∃ k, fuel = k + 1 := ⟨fuel - 1, by omega⟩
      have hblock : file ++ rest = out ++ (List.replicate 512 0 ++ (List.replicate 512 0 ++ rest)) := by
        rw [hfile, List.append_assoc, show tarBlockSize * 2 = 512 + 512 from rfl, ← List.replicate_append_replicate,
          List.append_assoc]
      have hroom : pos + 512 ≤ len := by
        have := congrArg List.length hfile
        rw [List.length_append, List.length_replicate] at this
        have : tarBlockSize * 2 = 1024 := rfl
        omega
      have hzero : zero (List.replicate 512 (0 : UInt8)) = true := by
        unfold zero
        rw [List.all_eq_true]
        intro c hc
        rw [List.eq_of_mem_replicate hc]
        rfl
      refine ⟨fun _ => trivial, fun _ => ?_⟩
      rw [walkLoop, if_pos hroom, hblock, fread_append hout (List.length_replicate ..)]
      dsimp only []
      rw [if_pos hzero, describedFrom, List.append_nil]
  | cons e es ih =>
      intro out fuel pos seen h hout hlen hfuel
      unfold writeArchive at h
      split at h
      · cases h
      · rename_i out' hentry
        obtain ⟨hmax', block, hblock, hout'⟩ := writeEntry_eq_some hentry
        obtain ⟨hblen, hbzero, hbentry⟩ := hblock (off + (pos + 512))
        obtain ⟨hmax, tail, htail⟩ := writeArchive_eq_some h
        have hround := le_roundUp e.size
        have hlen' : out'.length = off + (pos + 512 + roundUp e.size) := by
          rw [hout']
          simp only [List.length_append, List.length_replicate, hblen, hout]
          have : e.payload.length = e.size := rfl
          omega
        have hfile : file ++ rest = out ++ (block ++ (e.payload ++
            (List.replicate (roundUp e.size - e.size) 0 ++ (tail ++ rest)))) := by
          rw [htail, hout']
          simp only [List.append_assoc]
        have hroom : pos + 512 + roundUp e.size ≤ len := by
          have := congrArg List.length htail
          rw [List.length_append] at this
          omega
        obtain ⟨fuel, rfl⟩ : ∃ k, fuel = k + 1 := ⟨fuel - 1, by omega⟩
        have hpad : padded e.size ≤ roundUp e.size := by
          by_cases hsmall : e.Small
          · rw [padded_of_small hsmall]
          · have := padded_of_large hsmall
            omega
        have hstep := @walkLoop_entry (file ++ rest) off len out _ block (e.described (off + (pos + 512))) fuel pos seen
          hfile hout hblen hbzero hbentry (show pos + 512 + e.size ≤ len by omega) hpad hroom (by omega)
        rw [hstep, describedFrom, hout, Nat.add_assoc off pos 512,
          List.append_cons seen _ (describedFrom (off + (pos + 512) + roundUp e.size) es)]
        by_cases hsmall : e.Small
        · -- the walk is at the next header
          have hpos : pos + 512 + padded (e.described (off + (pos + 512))).size = pos + 512 + roundUp e.size := by
            rw [show (e.described (off + (pos + 512))).size = e.size from rfl, padded_of_small hsmall]
          have := @ih out' fuel (pos + 512 + roundUp e.size) (seen ++ [e.described (off + (pos + 512))]) h hlen' hlen
            (by omega)
          rw [hlen', ← Nat.add_assoc off (pos + 512) (roundUp e.size)] at this
          rw [hpos, this]
          exact ⟨fun hs => Or.inl ⟨hsmall, hs⟩, fun hs => hs.elim (fun h => h.2) (fun h => absurd hsmall h.1)⟩
        · -- the walk is back in the payload
          have hback := padded_of_large hsmall
          have hread : fread (file ++ rest) (off + (pos + 512 + padded e.size)) 512 =
              some (sliceOf e.payload (padded e.size) 512) := by
            have hpay : e.payload.length = e.size := rfl
            have hsplit : e.payload = e.payload.take (padded e.size) ++ (sliceOf e.payload (padded e.size) 512 ++
                e.payload.drop (padded e.size + 512)) := by
              rw [sliceOf, ← List.drop_drop, List.take_append_drop, List.take_append_drop]
            rw [hfile, hsplit, List.append_assoc, List.append_assoc, ← List.append_assoc block, ← List.append_assoc out,
              ← hsplit]
            apply fread_append
            · rw [List.length_append, List.length_append, List.length_take]
              omega
            · rw [sliceOf, List.length_take, List.length_drop]
              omega
          have hsize : (e.described (off + (pos + 512))).size = e.size := rfl
          rw [hsize]
          constructor
          · intro hwalk
            obtain ⟨more, hmore, hhead⟩ := @walkLoop_extends (file ++ rest) off len fuel (pos + 512 + padded e.size)
              (seen ++ [e.described (off + (pos + 512))])
            rw [hwalk] at hmore
            have htl : describedFrom (off + (pos + 512) + roundUp e.size) es = more := List.append_cancel_left hmore
            cases es with
            | nil =>
                refine Or.inr ⟨hsmall, rfl, ?_⟩
                rw [← padded_eq]
                obtain ⟨fuel, rfl⟩ : ∃ k, fuel = k + 1 := ⟨fuel - 1, by omega⟩
                rw [describedFrom, List.append_nil] at hwalk
                exact walkLoop_block (by omega) hread hwalk
            | cons e' es =>
                -- the next entry is reported for a place before its header
                subst htl
                have := hhead _ rfl
                rw [show (e'.described (off + (pos + 512) + roundUp e.size + 512)).dataOffset =
                  off + (pos + 512) + roundUp e.size + 512 from rfl] at this
                omega
          · rintro (⟨h, -⟩ | ⟨-, rfl, hzero⟩)
            · exact absurd h hsmall
            · rw [← padded_eq] at hzero
              obtain ⟨fuel, rfl⟩ : ∃ k, fuel = k + 1 := ⟨fuel - 1, by omega⟩
              rw [walkLoop, if_pos (by omega), hread]
              dsimp only []
              rw [if_pos hzero, describedFrom, List.append_nil]

end Written

theorem guTarWalk_eq {out file : List UInt8} {es : List Entry} (h : writeArchive out es = some file)
    (rest : List UInt8) :
    guTarWalk (file ++ rest) out.length (file.length - out.length) collect [] =
      walkLoop (file ++ rest) out.length (file.length - out.length) collect
        ((file.length - out.length) / 512 + 1) 0 [] := by
  obtain ⟨hmax, tail, htail⟩ := writeArchive_eq_some h
  have hlen : file.length = out.length + tail.length := by rw [htail, List.length_append]
  exact if_neg (by omega)

/-- The walk over an archive that was written reports its entries and succeeds, exactly when the
mask does not lead it astray. The archive may stand in a file, with other bytes before and after. -/
theorem written_archive_walked_iff {out file : List UInt8} {es : List Entry} (h : writeArchive out es = some file)
    (rest : List UInt8) :
    guTarWalk (file ++ rest) out.length (file.length - out.length) collect [] = (0, describedFrom out.length es) ↔
      Sound es := by
  obtain ⟨-, tail, htail⟩ := writeArchive_eq_some h
  have hlen : file.length = out.length + tail.length := by rw [htail, List.length_append]
  rw [guTarWalk_eq h]
  exact walkLoop_written es h rfl (by omega) (by omega)

/-- A directory and a file of three bytes. -/
def twoEntries : List Entry := [.dir ⟨[117], by decide⟩ 493, .file ⟨[117, 47, 97], by decide⟩ [1, 2, 3] 3 420]

theorem written_archive_walked_iff_twoEntries : ∃ file, writeArchive [] twoEntries = some file ∧
    guTarWalk (file ++ []) 0 (file.length - 0) collect [] =
      (0, [⟨[117, 47], [], 0, 493, 53, 512⟩, ⟨[117, 47, 97], [], 3, 420, 48, 1024⟩]) := by
  have hsome : (writeArchive [] twoEntries).isSome = true := by decide +kernel
  obtain ⟨file, hfile⟩ := Option.isSome_iff_exists.mp hsome
  refine ⟨file, hfile, (written_archive_walked_iff hfile []).mpr ?_⟩
  exact Or.inl ⟨by unfold Entry.Small; decide, Or.inl ⟨by unfold Entry.Small; decide, trivial⟩⟩

/-- A file of `2 ^ 32` bytes that are all one. -/
def largeFile : Entry := .file ⟨[97], by decide⟩ (List.replicate 4294967296 1) 4294967296 420

theorem size_largeFile : largeFile.size = 4294967296 := by
  show ((List.replicate 4294967296 (1 : UInt8)).take 4294967296).length = 4294967296
  rw [List.length_take, List.length_replicate, Nat.min_self]

theorem largeFile_not_sound : ¬ Sound [largeFile] := by
  rintro (⟨h, -⟩ | ⟨-, -, h⟩)
  · rw [Entry.Small, size_largeFile] at h
    omega
  · rw [size_largeFile] at h
    have hslice : sliceOf largeFile.payload ((4294967296 + 511) % 4294967296 / 512 * 512) 512 = List.replicate 512 1 := by
      show (((List.replicate 4294967296 (1 : UInt8)).take 4294967296).drop _).take 512 = _
      rw [List.take_replicate, List.drop_replicate, List.take_replicate]
      norm_num
    rw [hslice, zero, List.all_replicate] at h
    exact absurd h (by decide)

/-- An archive of one file is written when there is room for it. -/
theorem writeArchive_file {path : CString} {src : List UInt8} {size mode : Nat}
    (hheader : (header path.text size mode 48).isSome = true) (hsrc : size ≤ src.length)
    (hmax : size + 2048 ≤ longMax) : ∃ file, writeArchive [] [.file path src size mode] = some file := by
  obtain ⟨block, hblock⟩ := Option.isSome_iff_exists.mp hheader
  obtain ⟨hlen, -, -⟩ := @entryOf_header _ _ _ 0 _ _ path.noNul (by decide) hblock
  have hwrite : fwrite [] block = some block := by
    refine fwrite_eq_some.mpr ⟨?_, rfl⟩
    rw [hlen, List.length_nil]
    omega
  have htake : (src.take size).length = size := by
    rw [List.length_take]
    omega
  have hcopy : copyLoop src 0 size block = some (block ++ src.take size) := by
    refine (copyLoop_eq_some size).mpr ⟨Or.inr ⟨by omega, by omega⟩, ?_⟩
    rw [List.drop_zero]
  obtain ⟨fill, hfill, hfill512⟩ : ∃ fill : List UInt8,
      fill = List.replicate ((tarBlockSize - size % tarBlockSize) % tarBlockSize) 0 ∧ fill.length < 512 := by
    refine ⟨_, rfl, ?_⟩
    rw [List.length_replicate]
    exact Nat.mod_lt _ (by decide)
  have hentry : writeEntry [] (.file path src size mode) = some (block ++ src.take size ++ fill) := by
    unfold writeEntry guTarWriteFile
    dsimp only []
    rw [hblock, Option.bind_eq_bind, Option.bind_some, hwrite, Option.bind_some, hcopy, Option.bind_some, ← hfill]
    refine fwrite_eq_some.mpr ⟨?_, rfl⟩
    rw [List.length_append, htake, hlen]
    omega
  refine ⟨block ++ src.take size ++ fill ++ List.replicate (tarBlockSize * 2) 0, ?_⟩
  unfold writeArchive
  rw [hentry]
  unfold writeArchive guTarWriteEnd
  refine fwrite_eq_some.mpr ⟨?_, rfl⟩
  rw [List.length_append, List.length_append, List.length_replicate, htake, hlen]
  have : tarBlockSize * 2 = 1024 := rfl
  omega

/-- The archive is written, and the walk does not report it as it is. -/
theorem largeFile_misread : ∃ file, writeArchive [] [largeFile] = some file ∧
    guTarWalk (file ++ []) 0 (file.length - 0) collect [] ≠ (0, describedFrom 0 [largeFile]) := by
  obtain ⟨file, hfile⟩ := @writeArchive_file ⟨[97], by decide⟩ (List.replicate 4294967296 1) 4294967296 420
    (by decide +kernel) (by rw [List.length_replicate]) (by decide)
  refine ⟨file, hfile, fun hwalk => largeFile_not_sound ?_⟩
  have heq := guTarWalk_eq hfile []
  rw [show ([] : List UInt8).length = 0 from rfl] at heq
  rw [heq] at hwalk
  have hiff := @walkLoop_written file [] 0 (file.length - 0) [largeFile] [] ((file.length - 0) / 512 + 1) 0 [] hfile rfl
    (by omega) (by omega)
  rw [List.nil_append, List.length_nil] at hiff
  exact hiff.mp hwalk

end Guppy.Archive
