import Guppy.Lib.LittleEndian
import Guppy.Lib.Traced
import Guppy.Vfs.Path

set_option autoImplicit false

/-! # The name of a shared object

`elf_soname` of `src/pkg_ldconfig.c` takes the DT_SONAME of a little-endian ELF file: it goes through the program headers
for the dynamic segment, through that for the address of the string table and the index of the name, and through the
program headers again for the place of the table in the file.

All numbers come from the file. The function is given with its reads and its additions, so that what it checks can be
compared with what it uses (`elfSoname_reads_iff`): the table of headers lies in the file, but a header may be shorter
than the fields that are read from it.
-/

namespace Guppy.Ldconfig

open Vfs (Text)

/-! ## The code -/

/-- Bytes that are read from the file, or two numbers that are added in 64 bits. -/
inductive Event
  | read (off len : Nat)
  | add (a b : Nat)
  deriving DecidableEq

abbrev Elf := Traced Event

/-- `rd16`, `rd32`, `rd64`: a number of `k` bytes -/
def rd (b : List UInt8) (k o : Nat) : Elf Nat := ⟨leValue ((List.range k).map fun i => b.getD (o + i) 0), [.read o k]⟩

def add (a b : Nat) : Elf Nat := ⟨(a + b) % 2 ^ 64, [.add a b]⟩

/-- The fields of the file header; the two classes of files have their numbers in 8 or 4 bytes. -/
structure Header where
  wide : Bool
  phoff : Nat
  phentsz : Nat
  phnum : Nat
  deriving DecidableEq

def Header.word (h : Header) : Nat := if h.wide then 8 else 4

/-- The places of `p_offset`, `p_vaddr` and `p_filesz` in a program header. -/
def Header.ofsOffset (h : Header) : Nat := if h.wide then 8 else 4
def Header.ofsVaddr (h : Header) : Nat := if h.wide then 16 else 8
def Header.ofsFilesz (h : Header) : Nat := if h.wide then 32 else 16

/-- The checks of the program header table. -/
def checkHeader (n : Nat) (h : Header) : Option Header :=
  if h.phentsz = 0 ∨ h.phoff > n ∨ h.phentsz * h.phnum > n - h.phoff then none else some h

/-- The checks at the start. -/
def readHeader (b : List UInt8) : Elf (Option Header) :=
  if b.length < 52 then pure none
  else do
    let magic ← rd b 4 0
    if magic ≠ 0x464c457f then pure none
    else do
      let order ← rd b 1 5
      if order ≠ 1 then pure none
      else do
        let cls ← rd b 1 4
        let etype ← rd b 2 16
        if etype ≠ 3 then pure none
        else if cls = 2 then
          if b.length < 64 then pure none
          else do
            let phoff ← rd b 8 32
            let phentsz ← rd b 2 54
            let phnum ← rd b 2 56
            pure (checkHeader b.length ⟨true, phoff, phentsz, phnum⟩)
        else if cls = 1 then do
          let phoff ← rd b 4 28
          let phentsz ← rd b 2 42
          let phnum ← rd b 2 44
          pure (checkHeader b.length ⟨false, phoff, phentsz, phnum⟩)
        else pure none

/-- The first loop: the offset and the size of the last dynamic segment. -/
def findDynamic (b : List UInt8) (h : Header) : (count i : Nat) → Nat × Nat → Elf (Nat × Nat)
  | 0, _, d => pure d
  | count + 1, i, d => do
      let p ← add h.phoff (i * h.phentsz)
      let typ ← rd b 4 p
      if typ = 2 then do
        let dynoff ← rd b h.word (p + h.ofsOffset)
        let dynsz ← rd b h.word (p + h.ofsFilesz)
        findDynamic b h count (i + 1) (dynoff, dynsz)
      else findDynamic b h count (i + 1) d

/-- The tags that matter: DT_STRTAB, the address of the string table, and DT_SONAME, the index of the name in it, for
which `none` is `(uint64_t)-1`. -/
def takeTag (tag val : Nat) (t : Nat × Option Nat) : Nat × Option Nat :=
  if tag = 5 then (val, t.2) else if tag = 14 then (t.1, if val = 2 ^ 64 - 1 then none else some val) else t

/-- The second loop. -/
def readDynamic (b : List UInt8) (h : Header) (dynoff dynsz : Nat) : (fuel i : Nat) → Nat × Option Nat → Elf (Nat × Option Nat)
  | 0, _, t => pure t
  | fuel + 1, i, t =>
      if i + 2 * h.word > dynsz then pure t
      else do
        let d ← add dynoff i
        let tag ← rd b h.word d
        let val ← rd b h.word (d + h.word)
        if tag = 0 then pure t else readDynamic b h dynoff dynsz fuel (i + 2 * h.word) (takeTag tag val t)

/-- The third loop: the place of the string table in the file. -/
def findStrings (b : List UInt8) (h : Header) (strva : Nat) : (count i : Nat) → Elf Nat
  | 0, _ => pure 0
  | count + 1, i => do
      let p ← add h.phoff (i * h.phentsz)
      let typ ← rd b 4 p
      if typ = 1 then do
        let off ← rd b h.word (p + h.ofsOffset)
        let va ← rd b h.word (p + h.ofsVaddr)
        let filesz ← rd b h.word (p + h.ofsFilesz)
        if va ≤ strva ∧ strva - va < filesz then add off (strva - va)
        else findStrings b h strva count (i + 1)
      else findStrings b h strva count (i + 1)

/-- The loop that copies the name: the bytes up to a zero, the end of the file or the end of the buffer, and the position
behind them. -/
def copyName (b : List UInt8) : (room pos : Nat) → Elf (Text × Nat)
  | 0, pos => pure ([], pos)
  | room + 1, pos =>
      if pos < b.length then do
        let c ← rd b 1 pos
        if c = 0 then pure ([], pos)
        else do
          let r ← copyName b room (pos + 1)
          pure (UInt8.ofNat c :: r.1, r.2)
      else pure ([], pos)

/-- The end of the function: the name at `pos`, into a buffer of `cap` bytes. -/
def readName (b : List UInt8) (cap pos : Nat) : Elf (Option Text) := do
  let r ← copyName b (cap - 1) pos
  if r.2 ≥ b.length then pure none
  else do
    let c ← rd b 1 r.2
    pure (if c ≠ 0 ∨ r.1 = [] then none else some r.1)

/-- The dynamic tags of a file with this header. -/
def dynamicTags (b : List UInt8) (h : Header) : Elf (Option (Nat × Nat)) := do
  let d ← findDynamic b h h.phnum 0 (0, 0)
  if d.2 = 0 ∨ d.1 > b.length ∨ d.2 > b.length - d.1 then pure none
  else do
    let t ← readDynamic b h d.1 d.2 d.2 0 (0, none)
    pure (if t.1 = 0 then none else t.2.map fun s => (t.1, s))

/-- What is left when the tags are known. -/
def nameAt (b : List UInt8) (cap : Nat) (h : Header) (strva sonidx : Nat) : Elf (Option Text) := do
  let stroff ← findStrings b h strva h.phnum 0
  if stroff = 0 ∨ stroff > b.length ∨ sonidx > b.length - stroff then pure none
  else do
    let pos ← add stroff sonidx
    readName b cap pos

/-- `elf_soname`, with an output buffer of `cap` bytes -/
def elfSoname (b : List UInt8) (cap : Nat) : Elf (Option Text) := do
  match ← readHeader b with
  | none => pure none
  | some h =>
      match ← dynamicTags b h with
      | none => pure none
      | some (strva, sonidx) => nameAt b cap h strva sonidx

/-! ## What a sound run does -/

/-- Bytes inside a file of `n` bytes, or a sum that does not wrap into the file. -/
def Event.Safe (n : Nat) : Event → Prop
  | .read off len => off + len ≤ n
  | .add a b => ¬ (2 ^ 64 ≤ a + b ∧ (a + b) % 2 ^ 64 ≤ n)

/-- A string in the file, with its zero. -/
structure IsString (b : List UInt8) (pos : Nat) (t : Text) : Prop where
  inside : pos + t.length < b.length
  bytes : (b.drop pos).take t.length = t
  nonzero : 0 ∉ t
  stop : b.getD (pos + t.length) 1 = 0

/-- The name comes from the string table: at the place of the table and the index of the name in it. -/
def FromTable (b : List UInt8) (t : Text) : Prop := ∃ h strva sonidx, (readHeader b).value = some h ∧
  (dynamicTags b h).value = some (strva, sonidx) ∧ IsString b ((findStrings b h strva h.phnum 0).value + sonidx) t

structure ReadsSoname (b : List UInt8) (cap : Nat) : Prop where
  safe : (elfSoname b cap).Every (Event.Safe b.length)
  name : ∀ t, (elfSoname b cap).value = some t → FromTable b t

/-! ## Which files are read soundly -/

/-- The offset of a program header. -/
def Header.entry (h : Header) (i : Nat) : Nat := h.phoff + i * h.phentsz

/-- The bytes of a program header up to the last field that is read. -/
def Header.needed (h : Header) : Nat := if h.wide then 40 else 20

def typeOf (b : List UInt8) (h : Header) (i : Nat) : Nat := (rd b 4 (h.entry i)).value
def offsetOf (b : List UInt8) (h : Header) (i : Nat) : Nat := (rd b h.word (h.entry i + h.ofsOffset)).value
def vaddrOf (b : List UInt8) (h : Header) (i : Nat) : Nat := (rd b h.word (h.entry i + h.ofsVaddr)).value
def fileszOf (b : List UInt8) (h : Header) (i : Nat) : Nat := (rd b h.word (h.entry i + h.ofsFilesz)).value

/-- A PT_LOAD segment with the address in it. -/
def Holds (b : List UInt8) (h : Header) (strva i : Nat) : Prop :=
  typeOf b h i = 1 ∧ vaddrOf b h i ≤ strva ∧ strva - vaddrOf b h i < fileszOf b h i

/-- Program headers that are as long as the fields that are read from them, and a segment whose string table does not
wrap around. -/
structure Readable (b : List UInt8) (h : Header) : Prop where
  type : ∀ i < h.phnum, h.entry i + 4 ≤ b.length
  dynamic : ∀ i < h.phnum, typeOf b h i = 2 → h.entry i + h.needed ≤ b.length
  load : ∀ strva sonidx, (dynamicTags b h).value = some (strva, sonidx) → ∀ i < h.phnum,
    (∀ j < i, ¬ Holds b h strva j) → typeOf b h i = 1 → h.entry i + h.needed ≤ b.length ∧
      (Holds b h strva i → (Event.add (offsetOf b h i) (strva - vaddrOf b h i)).Safe b.length)

/-! ## Safe steps -/

section Steps

variable {b : List UInt8} {h : Header}

theorem every_rd {n k o : Nat} : (rd b k o).Every (Event.Safe n) ↔ o + k ≤ n := by
  simp [rd, Traced.Every, Event.Safe]

theorem every_add {n x y : Nat} : (add x y).Every (Event.Safe n) ↔ (Event.add x y).Safe n := by
  simp [add, Traced.Every]

theorem safe_add {n x y : Nat} (hn : n < 2 ^ 64) (h : x + y ≤ n) : (Event.add x y).Safe n := fun hw => by
  have := hw.1
  omega

theorem add_value {x y : Nat} (h : x + y < 2 ^ 64) : (add x y).value = x + y := Nat.mod_eq_of_lt h

theorem rd_one (o : Nat) : (rd b 1 o).value = (b.getD o 0).toNat := by
  simp [rd, leValue]

/-- A table of program headers that lies in the file. -/
structure Header.Fits (h : Header) (n : Nat) : Prop where
  size : h.phentsz ≠ 0
  offset : h.phoff ≤ n
  table : h.phentsz * h.phnum ≤ n - h.phoff

theorem checkHeader_some {n : Nat} {h k : Header} (hk : checkHeader n h = some k) : k.Fits n := by
  unfold checkHeader at hk
  by_cases hbad : h.phentsz = 0 ∨ h.phoff > n ∨ h.phentsz * h.phnum > n - h.phoff
  · rw [if_pos hbad] at hk
    cases hk
  · rw [if_neg hbad] at hk
    cases Option.some.inj hk
    exact ⟨by omega, by omega, by omega⟩

theorem Header.Fits.entry_le {n : Nat} (hf : h.Fits n) {i : Nat} (hi : i ≤ h.phnum) : h.entry i ≤ n := by
  have hmul := Nat.mul_le_mul_left h.phentsz hi
  have := hf.table
  have := hf.offset
  rw [Nat.mul_comm h.phentsz i] at hmul
  unfold Header.entry
  omega

/-- The fields that are read of a program header with an address range. -/
theorem fields_le {n i : Nat} : (h.entry i + h.ofsOffset + h.word ≤ n ∧ h.entry i + h.ofsFilesz + h.word ≤ n ↔
    h.entry i + h.needed ≤ n) ∧ (h.entry i + h.needed ≤ n → h.entry i + h.ofsVaddr + h.word ≤ n) := by
  unfold Header.ofsOffset Header.ofsFilesz Header.ofsVaddr Header.word Header.needed
  by_cases hw : h.wide = true
  · rw [if_pos hw, if_pos hw, if_pos hw, if_pos hw]
    omega
  · rw [if_neg hw, if_neg hw, if_neg hw, if_neg hw]
    omega

theorem readHeader_every : (readHeader b).Every (Event.Safe b.length) := by
  unfold readHeader
  by_cases hlen : b.length < 52
  · rw [if_pos hlen]
    exact Traced.every_pure none
  rw [if_neg hlen]
  simp only [Traced.every_bind, every_rd]
  refine ⟨by omega, ?_⟩
  split
  · exact Traced.every_pure none
  simp only [Traced.every_bind, every_rd]
  refine ⟨by omega, ?_⟩
  split
  · exact Traced.every_pure none
  simp only [Traced.every_bind, every_rd]
  refine ⟨by omega, by omega, ?_⟩
  split
  · exact Traced.every_pure none
  split
  · split
    · exact Traced.every_pure none
    · simp only [Traced.every_bind, every_rd]
      exact ⟨by omega, by omega, by omega, Traced.every_pure _⟩
  split
  · simp only [Traced.every_bind, every_rd]
    exact ⟨by omega, by omega, by omega, Traced.every_pure _⟩
  · exact Traced.every_pure none

theorem readHeader_fits (hh : (readHeader b).value = some h) : h.Fits b.length := by
  unfold readHeader at hh
  by_cases hlen : b.length < 52
  · rw [if_pos hlen] at hh
    cases hh
  rw [if_neg hlen] at hh
  simp only [Traced.value_bind] at hh
  split at hh
  · cases hh
  simp only [Traced.value_bind] at hh
  split at hh
  · cases hh
  simp only [Traced.value_bind] at hh
  split at hh
  · cases hh
  split at hh
  · split at hh
    · cases hh
    · exact checkHeader_some hh
  split at hh
  · exact checkHeader_some hh
  · cases hh

end Steps

/-! ## The loops -/

section Loops

variable {b : List UInt8} {h : Header} (hn : b.length < 2 ^ 64) (hf : h.Fits b.length)

include hn hf

theorem entry_add {i : Nat} (hi : i ≤ h.phnum) : (add h.phoff (i * h.phentsz)).value = h.entry i ∧
    (Event.add h.phoff (i * h.phentsz)).Safe b.length := by
  have hle : h.phoff + i * h.phentsz ≤ b.length := hf.entry_le hi
  exact ⟨add_value (by omega), safe_add hn hle⟩

theorem findDynamic_every (count : Nat) : ∀ {i : Nat} {d : Nat × Nat}, i + count ≤ h.phnum →
    ((findDynamic b h count i d).Every (Event.Safe b.length) ↔ ∀ j, i ≤ j → j < i + count →
      h.entry j + 4 ≤ b.length ∧ (typeOf b h j = 2 → h.entry j + h.needed ≤ b.length)) := by
  induction count with
  | zero =>
      intro i d _
      exact iff_of_true (Traced.every_pure d) fun j h₁ h₂ => by omega
  | succ count ih =>
      intro i d hi
      obtain ⟨hentry, hsafe⟩ := entry_add hn hf (show i ≤ h.phnum by omega)
      -- what this round reads, and the rounds behind it
      have hround : (findDynamic b h (count + 1) i d).Every (Event.Safe b.length) ↔
          (h.entry i + 4 ≤ b.length ∧ (typeOf b h i = 2 → h.entry i + h.needed ≤ b.length)) ∧
            ∀ j, i + 1 ≤ j → j < i + 1 + count → h.entry j + 4 ≤ b.length ∧
              (typeOf b h j = 2 → h.entry j + h.needed ≤ b.length) := by
        rw [findDynamic, Traced.every_bind, every_add, hentry, Traced.every_bind, every_rd]
        by_cases htype : (rd b 4 (h.entry i)).value = 2
        · have hfields := (@fields_le h b.length i).1
          rw [if_pos htype, Traced.every_bind, every_rd, Traced.every_bind, every_rd, ih (by omega)]
          constructor
          · rintro ⟨-, h₁, h₂, h₃, h₄⟩
            exact ⟨⟨h₁, fun _ => hfields.mp ⟨h₂, h₃⟩⟩, h₄⟩
          · rintro ⟨⟨h₁, h₂⟩, h₄⟩
            exact ⟨hsafe, h₁, (hfields.mpr (h₂ htype)).1, (hfields.mpr (h₂ htype)).2, h₄⟩
        · rw [if_neg htype, ih (by omega)]
          constructor
          · rintro ⟨-, h₁, h₃⟩
            exact ⟨⟨h₁, fun h₂ => absurd h₂ htype⟩, h₃⟩
          · rintro ⟨⟨h₁, -⟩, h₃⟩
            exact ⟨hsafe, h₁, h₃⟩
      rw [hround]
      constructor
      · rintro ⟨hfirst, hrest⟩ j h₁ h₂
        rcases Nat.eq_or_lt_of_le h₁ with rfl | hlt
        · exact hfirst
        · exact hrest j hlt (by omega)
      · intro hall
        exact ⟨hall i le_rfl (by omega), fun j h₁ h₂ => hall j (by omega) (by omega)⟩

theorem findStrings_every {strva : Nat} (count : Nat) : ∀ {i : Nat}, i + count ≤ h.phnum →
    ((findStrings b h strva count i).Every (Event.Safe b.length) ↔ ∀ j, i ≤ j → j < i + count →
      (∀ k, i ≤ k → k < j → ¬ Holds b h strva k) → h.entry j + 4 ≤ b.length ∧
        (typeOf b h j = 1 → h.entry j + h.needed ≤ b.length ∧
          (Holds b h strva j → (Event.add (offsetOf b h j) (strva - vaddrOf b h j)).Safe b.length))) := by
  induction count with
  | zero =>
      intro i _
      exact iff_of_true (Traced.every_pure 0) fun j h₁ h₂ => by omega
  | succ count ih =>
      intro i hi
      obtain ⟨hentry, hsafe⟩ := entry_add hn hf (show i ≤ h.phnum by omega)
      have hround : (findStrings b h strva (count + 1) i).Every (Event.Safe b.length) ↔
          (h.entry i + 4 ≤ b.length ∧ (typeOf b h i = 1 → h.entry i + h.needed ≤ b.length ∧
            (Holds b h strva i → (Event.add (offsetOf b h i) (strva - vaddrOf b h i)).Safe b.length))) ∧
            (¬ Holds b h strva i → (findStrings b h strva count (i + 1)).Every (Event.Safe b.length)) := by
        rw [findStrings, Traced.every_bind, every_add, hentry, Traced.every_bind, every_rd]
        by_cases htype : (rd b 4 (h.entry i)).value = 1
        · have hreads : ∀ {P : Prop}, (h.entry i + h.ofsOffset + h.word ≤ b.length ∧ h.entry i + h.ofsVaddr + h.word ≤ b.length ∧
              h.entry i + h.ofsFilesz + h.word ≤ b.length ∧ P) ↔ h.entry i + h.needed ≤ b.length ∧ P := by
            intro P
            have hfields := @fields_le h b.length i
            constructor
            · rintro ⟨h₁, -, h₃, h₄⟩
              exact ⟨hfields.1.mp ⟨h₁, h₃⟩, h₄⟩
            · rintro ⟨h₁, h₄⟩
              exact ⟨(hfields.1.mpr h₁).1, hfields.2 h₁, (hfields.1.mpr h₁).2, h₄⟩
          rw [if_pos htype, Traced.every_bind, every_rd, Traced.every_bind, every_rd, Traced.every_bind, every_rd, hreads]
          show _ ∧ _ ∧ _ ∧ Traced.Every _ (if vaddrOf b h i ≤ strva ∧ strva - vaddrOf b h i < fileszOf b h i then
            add (offsetOf b h i) (strva - vaddrOf b h i) else findStrings b h strva count (i + 1)) ↔ _
          by_cases hrange : vaddrOf b h i ≤ strva ∧ strva - vaddrOf b h i < fileszOf b h i
          · have hholds : Holds b h strva i := ⟨htype, hrange⟩
            rw [if_pos hrange, every_add]
            constructor
            · rintro ⟨-, h₁, h₂, h₃⟩
              exact ⟨⟨h₁, fun _ => ⟨h₂, fun _ => h₃⟩⟩, fun hno => absurd hholds hno⟩
            · rintro ⟨⟨h₁, h₂⟩, -⟩
              exact ⟨hsafe, h₁, (h₂ htype).1, (h₂ htype).2 hholds⟩
          · have hholds : ¬ Holds b h strva i := fun hh => hrange hh.2
            rw [if_neg hrange]
            constructor
            · rintro ⟨-, h₁, h₂, h₃⟩
              exact ⟨⟨h₁, fun _ => ⟨h₂, fun hh => absurd hh hholds⟩⟩, fun _ => h₃⟩
            · rintro ⟨⟨h₁, h₂⟩, h₃⟩
              exact ⟨hsafe, h₁, (h₂ htype).1, h₃ hholds⟩
        · have hholds : ¬ Holds b h strva i := fun hh => htype hh.1
          rw [if_neg htype]
          constructor
          · rintro ⟨-, h₁, h₃⟩
            exact ⟨⟨h₁, fun h₂ => absurd h₂ htype⟩, fun _ => h₃⟩
          · rintro ⟨⟨h₁, -⟩, h₃⟩
            exact ⟨hsafe, h₁, h₃ hholds⟩
      rw [hround]
      constructor
      · rintro ⟨hfirst, hrest⟩ j h₁ h₂ hno
        rcases Nat.eq_or_lt_of_le h₁ with rfl | hlt
        · exact hfirst
        · exact (ih (by omega)).mp (hrest (hno i le_rfl hlt)) j hlt (by omega) fun k hk => hno k (by omega)
      · intro hall
        refine ⟨hall i le_rfl (by omega) fun k h₁ h₂ => by omega, fun hno => ?_⟩
        rw [ih (by omega)]
        intro j h₁ h₂ hnone
        refine hall j (by omega) (by omega) fun k hk hkj => ?_
        rcases Nat.eq_or_lt_of_le hk with rfl | hlt
        · exact hno
        · exact hnone k hlt hkj

omit hf in
theorem readDynamic_every {dynoff dynsz : Nat} (hin : dynoff + dynsz ≤ b.length) (fuel : Nat) :
    ∀ {i : Nat} {t : Nat × Option Nat}, (readDynamic b h dynoff dynsz fuel i t).Every (Event.Safe b.length) := by
  induction fuel with
  | zero => exact Traced.every_pure _
  | succ fuel ih =>
      intro i t
      rw [readDynamic]
      by_cases hend : i + 2 * h.word > dynsz
      · rw [if_pos hend]
        exact Traced.every_pure t
      rw [if_neg hend, Traced.every_bind, every_add, add_value (by omega), Traced.every_bind, every_rd, Traced.every_bind,
        every_rd]
      refine ⟨safe_add hn (by omega), by omega, by omega, ?_⟩
      split
      · exact Traced.every_pure t
      · exact ih

end Loops

/-! ## The name -/

section Name

variable {b : List UInt8}

theorem copyName_every (room : Nat) : ∀ {pos : Nat}, (copyName b room pos).Every (Event.Safe b.length) := by
  induction room with
  | zero => exact Traced.every_pure _
  | succ room ih =>
      intro pos
      rw [copyName]
      by_cases hpos : pos < b.length
      · rw [if_pos hpos, Traced.every_bind, every_rd]
        refine ⟨by omega, ?_⟩
        split
        · exact Traced.every_pure _
        · rw [Traced.every_bind]
          exact ⟨ih, Traced.every_pure _⟩
      · rw [if_neg hpos]
        exact Traced.every_pure _

/-- The bytes that were copied. -/
theorem copyName_spec (room : Nat) : ∀ {pos : Nat}, (copyName b room pos).value.2 = pos + (copyName b room pos).value.1.length ∧
    (b.drop pos).take (copyName b room pos).value.1.length = (copyName b room pos).value.1 ∧
      0 ∉ (copyName b room pos).value.1 := by
  induction room with
  | zero => exact ⟨rfl, rfl, List.not_mem_nil⟩
  | succ room ih =>
      intro pos
      rw [copyName]
      by_cases hpos : pos < b.length
      · rw [if_pos hpos, Traced.value_bind, rd_one]
        by_cases hzero : (b.getD pos 0).toNat = 0
        · rw [if_pos hzero]
          exact ⟨rfl, rfl, List.not_mem_nil⟩
        · rw [if_neg hzero]
          obtain ⟨hstop, hbytes, hno⟩ := @ih (pos + 1)
          have hget : b.getD pos 0 = b[pos] := by simp [hpos]
          have hbyte : UInt8.ofNat (b.getD pos 0).toNat = b[pos] := by simp [hpos]
          simp only [Traced.value_bind, Traced.value_pure, hbyte, List.length_cons]
          refine ⟨by omega, ?_, ?_⟩
          · rw [List.drop_eq_getElem_cons hpos, List.take_succ_cons, hbytes]
          · rw [List.mem_cons, not_or]
            refine ⟨fun h => hzero ?_, hno⟩
            rw [hget, ← h]
            rfl
      · rw [if_neg hpos]
        exact ⟨rfl, rfl, List.not_mem_nil⟩

theorem readName_every {cap pos : Nat} : (readName b cap pos).Every (Event.Safe b.length) := by
  unfold readName
  rw [Traced.every_bind]
  refine ⟨copyName_every (cap - 1), ?_⟩
  by_cases hend : (copyName b (cap - 1) pos).value.2 ≥ b.length
  · rw [if_pos hend]
    exact Traced.every_pure none
  · rw [if_neg hend, Traced.every_bind, every_rd]
    exact ⟨by omega, Traced.every_pure _⟩

theorem readName_value {cap pos : Nat} {t : Text} (h : (readName b cap pos).value = some t) : IsString b pos t := by
  unfold readName at h
  obtain ⟨hstop, hbytes, hno⟩ := @copyName_spec b (cap - 1) pos
  rw [Traced.value_bind] at h
  by_cases hend : (copyName b (cap - 1) pos).value.2 ≥ b.length
  · rw [if_pos hend] at h
    cases h
  rw [if_neg hend, Traced.value_bind, rd_one, Traced.value_pure] at h
  by_cases hbad : (b.getD (copyName b (cap - 1) pos).value.2 0).toNat ≠ 0 ∨ (copyName b (cap - 1) pos).value.1 = []
  · rw [if_pos hbad] at h
    cases h
  · rw [if_neg hbad] at h
    cases Option.some.inj h
    obtain ⟨hzero, -⟩ := not_or.mp hbad
    have hin : pos + (copyName b (cap - 1) pos).value.1.length < b.length := by omega
    refine ⟨hin, hbytes, hno, ?_⟩
    have hbyte : b.getD (copyName b (cap - 1) pos).value.2 0 = 0 := UInt8.toNat_inj.mp (not_not.mp hzero)
    rw [hstop] at hbyte
    simpa [hin] using hbyte

end Name

/-! ## The whole function -/

section Whole

variable {b : List UInt8} {cap : Nat} {h : Header} (hn : b.length < 2 ^ 64)

include hn

theorem dynamicTags_every (hf : h.Fits b.length) : (dynamicTags b h).Every (Event.Safe b.length) ↔
    ∀ i < h.phnum, h.entry i + 4 ≤ b.length ∧ (typeOf b h i = 2 → h.entry i + h.needed ≤ b.length) := by
  have hloop := @findDynamic_every b h hn hf h.phnum 0 (0, 0) (by omega)
  have hall : (findDynamic b h h.phnum 0 (0, 0)).Every (Event.Safe b.length) ↔ ∀ i < h.phnum,
      h.entry i + 4 ≤ b.length ∧ (typeOf b h i = 2 → h.entry i + h.needed ≤ b.length) := by
    rw [hloop]
    exact ⟨fun hj i hi => hj i (Nat.zero_le i) (by omega), fun hi j _ hj => hi j (by omega)⟩
  unfold dynamicTags
  rw [Traced.every_bind, hall]
  refine and_iff_left ?_
  split
  · exact Traced.every_pure none
  · rename_i hin
    rw [Traced.every_bind]
    exact ⟨readDynamic_every hn (by omega) _, Traced.every_pure _⟩

theorem nameAt_every {strva sonidx : Nat} (hf : h.Fits b.length) : (nameAt b cap h strva sonidx).Every (Event.Safe b.length) ↔
    ∀ i < h.phnum, (∀ j < i, ¬ Holds b h strva j) → h.entry i + 4 ≤ b.length ∧ (typeOf b h i = 1 →
      h.entry i + h.needed ≤ b.length ∧
        (Holds b h strva i → (Event.add (offsetOf b h i) (strva - vaddrOf b h i)).Safe b.length)) := by
  have hloop := @findStrings_every b h hn hf strva h.phnum 0 (by omega)
  have hall : (findStrings b h strva h.phnum 0).Every (Event.Safe b.length) ↔ ∀ i < h.phnum, (∀ j < i, ¬ Holds b h strva j) →
      h.entry i + 4 ≤ b.length ∧ (typeOf b h i = 1 → h.entry i + h.needed ≤ b.length ∧
        (Holds b h strva i → (Event.add (offsetOf b h i) (strva - vaddrOf b h i)).Safe b.length)) := by
    rw [hloop]
    constructor
    · exact fun hj i hi hno => hj i (Nat.zero_le i) (by omega) fun k _ hk => hno k hk
    · exact fun hi j _ hj hno => hi j (by omega) fun k hk => hno k (Nat.zero_le k) hk
  unfold nameAt
  rw [Traced.every_bind, hall]
  refine and_iff_left ?_
  split
  · exact Traced.every_pure none
  · rename_i hin
    rw [Traced.every_bind, every_add]
    exact ⟨safe_add hn (by omega), readName_every⟩

omit hn in
theorem nameAt_value {strva sonidx : Nat} {t : Text} (hn : b.length < 2 ^ 64)
    (ht : (nameAt b cap h strva sonidx).value = some t) :
    IsString b ((findStrings b h strva h.phnum 0).value + sonidx) t := by
  unfold nameAt at ht
  rw [Traced.value_bind] at ht
  generalize (findStrings b h strva h.phnum 0).value = stroff at ht ⊢
  by_cases hbad : stroff = 0 ∨ stroff > b.length ∨ sonidx > b.length - stroff
  · rw [if_pos hbad] at ht
    cases ht
  · rw [if_neg hbad, Traced.value_bind, add_value (by omega)] at ht
    exact readName_value ht

/-- The reads and the sums are sound exactly for the files whose program headers are readable. -/
theorem elfSoname_every : (elfSoname b cap).Every (Event.Safe b.length) ↔
    ∀ h, (readHeader b).value = some h → Readable b h := by
  unfold elfSoname
  rw [Traced.every_bind, and_iff_right readHeader_every]
  cases hh : (readHeader b).value with
  | none =>
      refine iff_of_true (Traced.every_pure none) fun h hno => ?_
      cases hno
  | some h =>
      have hf := readHeader_fits hh
      dsimp only []
      have htags := dynamicTags_every hn hf
      have honly : (∀ k, some h = some k → Readable b k) ↔ Readable b h :=
        ⟨fun hk => hk h rfl, fun hr k hk => Option.some.inj hk ▸ hr⟩
      rw [Traced.every_bind, htags, honly]
      constructor
      · rintro ⟨htypes, hrest⟩
        refine ⟨fun i hi => (htypes i hi).1, fun i hi => (htypes i hi).2, fun strva sonidx htag i hi hno htype => ?_⟩
        rw [htag] at hrest
        exact ((nameAt_every hn hf).mp hrest i hi hno).2 htype
      · rintro ⟨htypes, hdyn, hload⟩
        refine ⟨fun i hi => ⟨htypes i hi, hdyn i hi⟩, ?_⟩
        cases htag : (dynamicTags b h).value with
        | none => exact Traced.every_pure none
        | some tags =>
            obtain ⟨strva, sonidx⟩ := tags
            exact (nameAt_every hn hf).mpr fun i hi hno => ⟨htypes i hi, fun htype => hload strva sonidx htag i hi hno htype⟩

theorem elfSoname_name {t : Text} (ht : (elfSoname b cap).value = some t) : FromTable b t := by
  unfold elfSoname at ht
  rw [Traced.value_bind] at ht
  cases hh : (readHeader b).value with
  | none =>
      rw [hh] at ht
      cases ht
  | some h =>
      rw [hh] at ht
      dsimp only [] at ht
      rw [Traced.value_bind] at ht
      cases htag : (dynamicTags b h).value with
      | none =>
          rw [htag] at ht
          cases ht
      | some tags =>
          obtain ⟨strva, sonidx⟩ := tags
          rw [htag] at ht
          exact ⟨h, strva, sonidx, hh, htag, nameAt_value hn ht⟩

/-- `elf_soname` reads a file soundly exactly when its program headers are readable. -/
theorem elfSoname_reads_iff : ReadsSoname b cap ↔ ∀ h, (readHeader b).value = some h → Readable b h := by
  rw [← elfSoname_every hn]
  exact ⟨fun hr => hr.safe, fun hs => ⟨hs, fun _ ht => elfSoname_name hn ht⟩⟩

end Whole

/-! ## Two files -/

/-- An ELF64 file header with a table of `phnum` program headers of `phentsz` bytes at `phoff`. -/
def elfHeader (phoff phentsz phnum : Nat) : List UInt8 :=
  [0x7f, 0x45, 0x4c, 0x46, 2, 1, 1, 0] ++ List.replicate 8 0 ++ leBytes 2 3 ++ List.replicate 14 0 ++ leBytes 8 phoff ++
    List.replicate 14 0 ++ leBytes 2 phentsz ++ leBytes 2 phnum ++ List.replicate 6 0

/-- An ELF64 program header. -/
def programHeader (type offset vaddr filesz : Nat) : List UInt8 :=
  leBytes 4 type ++ leBytes 4 0 ++ leBytes 8 offset ++ leBytes 8 vaddr ++ leBytes 8 0 ++ leBytes 8 filesz ++ leBytes 8 filesz ++
    leBytes 8 0

def dynamicEntry (tag val : Nat) : List UInt8 := leBytes 8 tag ++ leBytes 8 val

/-- A file with a segment at `offset` and `vaddr`, the string table at the address `strtab`, and the name `libx` at index 1. -/
def sharedObject (offset vaddr strtab : Nat) : List UInt8 :=
  elfHeader 64 56 2 ++ programHeader 2 176 0 48 ++ programHeader 1 offset vaddr (2 ^ 63) ++ dynamicEntry 5 strtab ++
    dynamicEntry 14 1 ++ dynamicEntry 0 0 ++ [0, 0x6c, 0x69, 0x62, 0x78, 0]

theorem elfSoname_reads_libx : ReadsSoname (sharedObject 0 0 224) 512 ↔
    ∀ h, (readHeader (sharedObject 0 0 224)).value = some h → Readable (sharedObject 0 0 224) h :=
  elfSoname_reads_iff (by decide +kernel)

/-- A program header of one byte in the last byte of the file has its type read behind the end. A segment whose offset
and string table add up to 224 only modulo 2^64 is taken to have its table there. -/
theorem elf_reads_behind_end : (¬ ReadsSoname (elfHeader 63 1 1) 512) ∧ ¬ ReadsSoname (sharedObject (2 ^ 64 - 1) 0 225) 512 ∧
    (elfSoname (sharedObject (2 ^ 64 - 1) 0 225) 512).value = some [0x6c, 0x69, 0x62, 0x78] := by
  refine ⟨fun hr => ?_, fun hr => ?_, by decide +kernel⟩
  · have hread : Event.read 63 4 ∈ (elfSoname (elfHeader 63 1 1) 512).events := by decide +kernel
    exact absurd (hr.safe _ hread) (by unfold Event.Safe; decide +kernel)
  · have hsum : Event.add (2 ^ 64 - 1) 225 ∈ (elfSoname (sharedObject (2 ^ 64 - 1) 0 225) 512).events := by
      decide +kernel
    exact absurd (hr.safe _ hsum) (by unfold Event.Safe; decide +kernel)

end Guppy.Ldconfig
