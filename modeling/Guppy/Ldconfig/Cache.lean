import Guppy.Ldconfig.Compare
import Guppy.Lib.LittleEndian
import Guppy.Pkg.Control

set_option autoImplicit false

/-! # The library cache

`build_cache` of `src/pkg_ldconfig.c` sorts the entries and writes a header, a table of entries and their strings;
`pkg_ldconfig_print_cache` checks such a file and reads the entries back. The dynamic linker looks a name up by a binary
search in the table (`lookup`). What the first writes the second accepts, with the same entries, and the search finds
each of them (`buildCache_readable`).
-/

namespace Guppy.Ldconfig

open Vfs (Text)
open Pkg (ascii)
open LexSeq

/-! ## The encoder -/

/-- `CACHE_MAGIC` and `CACHE_VERSION` -/
def cacheMagic : List UInt8 := ascii "glibc-ld.so.cache" ++ ascii "1.1"

def uint32Max : Nat := 0xFFFFFFFF

/-- The loop that places the strings: the offsets of the name and the path of each entry, and all strings. -/
def placeStrings (base : Nat) : List Ldent → (strings : List UInt8) → Option (List (Nat × Nat) × List UInt8)
  | [], strings => some ([], strings)
  | e :: l, strings =>
      let key := base + strings.length
      if key > uint32Max then none
      else
        let strings := strings ++ (e.soname ++ [0])
        let val := base + strings.length
        if val > uint32Max then none
        else (placeStrings base l (strings ++ (e.path ++ [0]))).map fun (offsets, all) => ((key, val) :: offsets, all)

/-- The header of a cache of `n` entries. -/
def headerBytes (n strings : Nat) : List UInt8 :=
  cacheMagic ++ leBytes 4 n ++ leBytes 4 strings ++ [2, 0, 0, 0] ++ List.replicate 16 0

/-- One row of the table. -/
def entryBytes (e : Ldent) (offsets : Nat × Nat) : List UInt8 :=
  leBytes 4 e.flags.toUInt32.toNat ++ leBytes 4 offsets.1 ++ leBytes 4 offsets.2 ++ leBytes 4 0 ++ leBytes 8 0

/-- `build_cache`: the bytes for entries that are sorted -/
def buildCache (sorted : List Ldent) : Option (List UInt8) :=
  match placeStrings (48 + sorted.length * 24) sorted [] with
  | none => none
  | some (offsets, strings) =>
      if sorted.length > uint32Max ∨ strings.length > uint32Max then none
      else some (headerBytes sorted.length strings.length ++ ((sorted.zip offsets).flatMap fun p => entryBytes p.1 p.2) ++
        strings)

/-- `qsort` with `ent_cmp`: some order of the entries in which none is larger than the next. -/
structure Sorted (ents sorted : List Ldent) : Prop where
  perm : sorted.Perm ents
  ordered : sorted.Pairwise fun a b => entCmp a b ≤ 0

/-! ## The decoder -/

def rd32 (b : List UInt8) (o : Nat) : Nat := leValue ((b.drop o).take 4)

def rd64 (b : List UInt8) (o : Nat) : Nat := leValue ((b.drop o).take 8)

/-- `cache_string_at` -/
def cacheStringAt (b : List UInt8) (n off : Nat) : Option Text :=
  if off ≥ n then none
  else
    let t := (b.take n).drop off
    if 0 ∈ t then some (t.takeWhile (· ≠ 0)) else none

/-- A row as it is printed. -/
structure Row where
  soname : Text
  libpath : Text
  flags : Nat
  osversion : Nat
  hwcap : Nat
  deriving DecidableEq

inductive PrintError
  | header
  | byteOrder
  | entryTable
  | strings
  | entry (i : Nat)
  deriving DecidableEq

/-- A row of the table, with its strings between `entriesEnd` and `stringsEnd`. -/
def readRow (b : List UInt8) (entriesEnd stringsEnd i : Nat) : Option Row :=
  let e := 48 + i * 24
  let key := rd32 b (e + 4)
  let value := rd32 b (e + 8)
  if key < entriesEnd ∨ key ≥ stringsEnd ∨ value < entriesEnd ∨ value ≥ stringsEnd then none
  else
    (cacheStringAt b stringsEnd key).bind fun soname => (cacheStringAt b stringsEnd value).map fun libpath =>
      ⟨soname, libpath, rd32 b e, rd32 b (e + 12), rd64 b (e + 16)⟩

def readRows (b : List UInt8) (entriesEnd stringsEnd : Nat) : (count i : Nat) → Except PrintError (List Row)
  | 0, _ => .ok []
  | n + 1, i =>
      match readRow b entriesEnd stringsEnd i with
      | none => .error (.entry i)
      | some row => (readRows b entriesEnd stringsEnd n (i + 1)).map fun rows => row :: rows

/-- `pkg_ldconfig_print_cache`: the rows of a cache file that it accepts -/
def printCache (b : List UInt8) : Except PrintError (List Row) :=
  if b.length < 48 ∨ b.take 20 ≠ cacheMagic then .error .header
  else if b.getD 28 0 ≠ 2 then .error .byteOrder
  else
    let nlibs := rd32 b 20
    let lenStrings := rd32 b 24
    let entriesEnd := 48 + nlibs * 24
    if entriesEnd > b.length then .error .entryTable
    else if lenStrings > b.length - entriesEnd then .error .strings
    else readRows b entriesEnd (entriesEnd + lenStrings) nlibs 0

/-- The rows that the dynamic linker looks at for a name: those around the one that a binary search finds. -/
def lookup (rows : List Row) (name : Text) : List Row :=
  match search (fun i => cacheLibcmp name ((rows.map Row.soname).getD i [])) rows.length 0 rows.length with
  | none => []
  | some m => around (fun r => cacheLibcmp name r.soname = 0) rows m

/-! ## Reading the cache back -/

/-- The row of an entry. -/
def Ldent.row (e : Ldent) : Row := ⟨e.soname, e.path, e.flags.toUInt32.toNat, 0, 0⟩

/-- A string lies at an offset of the file, in strings that start at `base`. -/
structure At (base : Nat) (strings : List UInt8) (off : Nat) (t : Text) : Prop where
  lower : base ≤ off
  upper : off < 2 ^ 32
  bytes : ∃ rest, strings.drop (off - base) = t ++ 0 :: rest

theorem placeStrings_spec {base : Nat} (l : List Ldent) : ∀ {pre strings : List UInt8} {offsets : List (Nat × Nat)},
    placeStrings base l pre = some (offsets, strings) → (∃ suffix, strings = pre ++ suffix) ∧
      List.Forall₂ (fun e p => At base strings p.1 e.soname ∧ At base strings p.2 e.path) l offsets := by
  induction l with
  | nil =>
      intro pre strings offsets h
      cases Option.some.inj h
      exact ⟨⟨[], by simp⟩, List.Forall₂.nil⟩
  | cons e l ih =>
      intro pre strings offsets h
      rw [placeStrings] at h
      dsimp only [] at h
      by_cases hkey : base + pre.length > uint32Max
      · rw [if_pos hkey] at h
        cases h
      rw [if_neg hkey] at h
      by_cases hval : base + (pre ++ (e.soname ++ [0])).length > uint32Max
      · rw [if_pos hval] at h
        cases h
      rw [if_neg hval] at h
      obtain ⟨⟨tail, all⟩, hrest, heq⟩ := Option.map_eq_some_iff.mp h
      cases heq
      obtain ⟨⟨suffix, hsuffix⟩, htail⟩ := ih hrest
      have hmax : uint32Max < 2 ^ 32 := by decide
      refine ⟨⟨e.soname ++ 0 :: (e.path ++ 0 :: suffix), by rw [hsuffix]; simp⟩,
        List.Forall₂.cons ⟨⟨Nat.le_add_right _ _, by omega, e.path ++ 0 :: suffix, ?_⟩,
          ⟨Nat.le_add_right _ _, by omega, suffix, ?_⟩⟩ htail⟩
      · rw [hsuffix, Nat.add_sub_cancel_left, List.append_assoc, List.append_assoc, List.drop_left]
        simp
      · rw [hsuffix, Nat.add_sub_cancel_left, List.append_assoc, List.drop_left]
        simp

/-- A string that was placed is found. -/
theorem cacheStringAt_placed {front strings : List UInt8} {off : Nat} {t : Text}
    (h : At front.length strings off t) (ht : 0 ∉ t) :
    cacheStringAt (front ++ strings) (front.length + strings.length) off = some t ∧
      off < front.length + strings.length := by
  obtain ⟨rest, hrest⟩ := h.bytes
  have hlow := h.lower
  have hin : off - front.length < strings.length := by
    by_contra hge
    rw [List.drop_eq_nil_of_le (by omega)] at hrest
    simp at hrest
  have hdrop : ((front ++ strings).take (front.length + strings.length)).drop off = t ++ 0 :: rest := by
    rw [← List.length_append, List.take_length, List.drop_append, List.drop_eq_nil_of_le hlow, hrest, List.nil_append]
  have hno : ∀ c ∈ t, decide (c ≠ 0) = true := fun c hc => decide_eq_true fun h0 => ht (h0 ▸ hc)
  refine ⟨?_, by omega⟩
  unfold cacheStringAt
  rw [if_neg (by omega)]
  dsimp only []
  rw [hdrop, if_pos (by simp), List.takeWhile_append_of_pos hno]
  simp

theorem rd32_of_drop {b t : List UInt8} {o v : Nat} (h : b.drop o = leBytes 4 v ++ t) (hv : v < 2 ^ 32) :
    rd32 b o = v := by
  rw [rd32, h, List.take_left' (length_leBytes 4 v), leValue_leBytes]
  exact Nat.mod_eq_of_lt (by omega)

theorem length_entryBytes (e : Ldent) (p : Nat × Nat) : (entryBytes e p).length = 24 := by
  simp [entryBytes]

/-- The fields of a row of the table. -/
theorem readRow_entry {b : List UInt8} {e : Ldent} {p : Nat × Nat} {entriesEnd stringsEnd i : Nat} {t : List UInt8}
    (hb : b.drop (48 + i * 24) = entryBytes e p ++ t) (hkey : p.1 < 2 ^ 32) (hval : p.2 < 2 ^ 32)
    (hkeyIn : entriesEnd ≤ p.1 ∧ p.1 < stringsEnd) (hvalIn : entriesEnd ≤ p.2 ∧ p.2 < stringsEnd)
    (hsoname : cacheStringAt b stringsEnd p.1 = some e.soname) (hpath : cacheStringAt b stringsEnd p.2 = some e.path) :
    readRow b entriesEnd stringsEnd i = some e.row := by
  have hfield (n : Nat) : b.drop (48 + i * 24 + n) = (entryBytes e p ++ t).drop n := by rw [← hb, List.drop_drop]
  have hflags : rd32 b (48 + i * 24) = e.flags.toUInt32.toNat :=
    rd32_of_drop (by rw [hb, entryBytes]; simp only [List.append_assoc]; rfl) e.flags.toUInt32.toNat_lt
  have hrdKey : rd32 b (48 + i * 24 + 4) = p.1 := by
    apply rd32_of_drop _ hkey
    · exact leBytes 4 p.2 ++ leBytes 4 0 ++ leBytes 8 0 ++ t
    · rw [hfield, entryBytes]
      simp only [List.append_assoc]
      exact List.drop_left' (length_leBytes ..)
  have hrdVal : rd32 b (48 + i * 24 + 8) = p.2 := by
    apply rd32_of_drop _ hval
    · exact leBytes 4 0 ++ leBytes 8 0 ++ t
    · rw [hfield, entryBytes]
      simp only [List.append_assoc]
      rw [← List.append_assoc (leBytes 4 _)]
      exact List.drop_left' (by simp)
  have hrdOs : rd32 b (48 + i * 24 + 12) = 0 := by
    apply rd32_of_drop _ (by decide)
    · exact leBytes 8 0 ++ t
    · rw [hfield, entryBytes]
      simp only [List.append_assoc]
      rw [← List.append_assoc (leBytes 4 _), ← List.append_assoc (leBytes 4 _ ++ leBytes 4 _)]
      exact List.drop_left' (by simp)
  have hrdHw : rd64 b (48 + i * 24 + 16) = 0 := by
    rw [rd64, hfield, entryBytes, List.append_assoc _ (leBytes 8 0), List.drop_left' (by simp),
      List.take_left' (length_leBytes ..), leValue_leBytes]
    rfl
  unfold readRow
  dsimp only []
  rw [hrdKey, hrdVal, if_neg (by omega), hsoname, hpath, hflags, hrdOs, hrdHw]
  rfl

/-- The rows from `i` on. -/
theorem readRows_entries {b : List UInt8} {entriesEnd stringsEnd : Nat} {l : List Ldent} {offsets : List (Nat × Nat)}
    (hplaced : List.Forall₂ (fun e p => (entriesEnd ≤ p.1 ∧ p.1 < stringsEnd ∧ p.1 < 2 ^ 32 ∧
      cacheStringAt b stringsEnd p.1 = some e.soname) ∧ entriesEnd ≤ p.2 ∧ p.2 < stringsEnd ∧ p.2 < 2 ^ 32 ∧
      cacheStringAt b stringsEnd p.2 = some e.path) l offsets) : ∀ {i : Nat} {t : List UInt8},
    b.drop (48 + i * 24) = ((l.zip offsets).flatMap fun p => entryBytes p.1 p.2) ++ t →
      readRows b entriesEnd stringsEnd l.length i = .ok (l.map Ldent.row) := by
  induction hplaced with
  | nil => exact fun _ => rfl
  | @cons e p l offsets hfirst _ ih =>
      intro i t hb
      obtain ⟨⟨hkey, hkeyEnd, hkeyMax, hsoname⟩, hval, hvalEnd, hvalMax, hpath⟩ := hfirst
      rw [List.zip_cons_cons, List.flatMap_cons, List.append_assoc] at hb
      have hnext : b.drop (48 + (i + 1) * 24) = ((l.zip offsets).flatMap fun p => entryBytes p.1 p.2) ++ t := by
        rw [show 48 + (i + 1) * 24 = 48 + i * 24 + 24 by omega, ← List.drop_drop, hb]
        exact List.drop_left' (length_entryBytes ..)
      rw [List.length_cons, readRows, readRow_entry hb hkeyMax hvalMax ⟨hkey, hkeyEnd⟩ ⟨hval, hvalEnd⟩ hsoname hpath,
        ih hnext]
      rfl

theorem length_zip_entries {l : List Ldent} {offsets : List (Nat × Nat)} (h : l.length = offsets.length) :
    ((l.zip offsets).flatMap fun p => entryBytes p.1 p.2).length = l.length * 24 := by
  have hconst : ∀ p ∈ l.zip offsets, (entryBytes p.1 p.2).length = 24 := fun p _ => length_entryBytes p.1 p.2
  rw [List.length_flatMap, List.map_congr_left hconst, List.map_const', List.sum_replicate, List.length_zip, ← h,
    Nat.min_self, smul_eq_mul]

theorem length_headerBytes (n strings : Nat) : (headerBytes n strings).length = 48 := by
  have : cacheMagic.length = 20 := by decide
  simp [headerBytes, this]

/-- The bytes that are written read back as the entries. -/
theorem printCache_buildCache {l : List Ldent} {b : List UInt8} (hl : ∀ e ∈ l, e.Strings) (h : buildCache l = some b) :
    printCache b = .ok (l.map Ldent.row) := by
  unfold buildCache at h
  cases hplace : placeStrings (48 + l.length * 24) l [] with
  | none =>
      rw [hplace] at h
      cases h
  | some placed =>
      obtain ⟨offsets, strings⟩ := placed
      rw [hplace] at h
      dsimp only [] at h
      by_cases hbig : l.length > uint32Max ∨ strings.length > uint32Max
      · rw [if_pos hbig] at h
        cases h
      rw [if_neg hbig] at h
      cases Option.some.inj h
      obtain ⟨-, hat⟩ := placeStrings_spec l hplace
      have htable := length_zip_entries hat.length_eq
      have hheader := length_headerBytes l.length strings.length
      have hmax : uint32Max < 2 ^ 32 := by decide
      generalize hmid : ((l.zip offsets).flatMap fun p => entryBytes p.1 p.2) = table at htable ⊢
      have hfront : (headerBytes l.length strings.length ++ table).length = 48 + l.length * 24 := by
        rw [List.length_append, hheader, htable]
      have hmagic : (headerBytes l.length strings.length ++ table ++ strings).take 20 = cacheMagic := by
        unfold headerBytes
        simp only [List.append_assoc]
        exact List.take_left' (by decide)
      have horder : (headerBytes l.length strings.length ++ table ++ strings).getD 28 0 = 2 := by
        have hprefix : (cacheMagic ++ leBytes 4 l.length ++ leBytes 4 strings.length).length = 28 := by
          have : cacheMagic.length = 20 := by decide
          simp [this]
        rw [headerBytes, List.getD_eq_getElem?_getD, List.append_assoc, List.append_assoc, List.append_assoc,
          List.getElem?_append_right (by omega), hprefix]
        rfl
      have hcount : rd32 (headerBytes l.length strings.length ++ table ++ strings) 20 = l.length := by
        apply rd32_of_drop _ (by omega)
        · exact leBytes 4 strings.length ++ [2, 0, 0, 0] ++ List.replicate 16 0 ++ table ++ strings
        · unfold headerBytes
          simp only [List.append_assoc]
          exact List.drop_left' (by decide)
      have hsize : rd32 (headerBytes l.length strings.length ++ table ++ strings) 24 = strings.length := by
        apply rd32_of_drop _ (by omega)
        · exact [2, 0, 0, 0] ++ List.replicate 16 0 ++ table ++ strings
        · have hprefix : (cacheMagic ++ leBytes 4 l.length).length = 24 := by
            have : cacheMagic.length = 20 := by decide
            simp [this]
          unfold headerBytes
          simp only [List.append_assoc]
          rw [← List.append_assoc cacheMagic]
          exact List.drop_left' hprefix
      have hlen : (headerBytes l.length strings.length ++ table ++ strings).length =
          48 + l.length * 24 + strings.length := by rw [List.length_append, hfront]
      unfold printCache
      rw [if_neg (by rw [not_or, not_not]; exact ⟨by omega, hmagic⟩), if_neg (not_not.mpr horder)]
      dsimp only []
      rw [hcount, hsize, hlen, if_neg (by omega), if_neg (by omega)]
      refine @readRows_entries _ _ _ l offsets ?_ 0 strings ?_
      · rw [List.forall₂_iff_zip] at hat ⊢
        refine ⟨hat.1, fun {e p} hp => ?_⟩
        have hstrings := hl e (List.of_mem_zip hp).1
        obtain ⟨hkey, hval⟩ := hat.2 hp
        rw [← hfront] at hkey hval ⊢
        obtain ⟨hsoname, hkeyEnd⟩ := cacheStringAt_placed hkey hstrings.soname
        obtain ⟨hpath, hvalEnd⟩ := cacheStringAt_placed hval hstrings.path
        exact ⟨⟨hkey.lower, hkeyEnd, hkey.upper, hsoname⟩, hval.lower, hvalEnd, hval.upper, hpath⟩
      · rw [Nat.zero_mul, Nat.add_zero, List.append_assoc, hmid]
        exact List.drop_left' hheader

/-! ## Looking names up -/

/-- The comparisons of a name along rows in descending order. -/
theorem ascending_of_sorted {rows : List Row} {name : Text} (hname : 0 ∉ name) (hrows : ∀ r ∈ rows, 0 ∉ r.soname)
    (hsorted : rows.Pairwise fun a b => 0 ≤ cacheLibcmp a.soname b.soname) :
    Ascending (fun i => cacheLibcmp name ((rows.map Row.soname).getD i [])) rows.length := by
  have hkey {i j : Nat} (hij : i ≤ j) (hj : j < rows.length) :
      libKey ((rows.map Row.soname).getD j []) ≤ libKey ((rows.map Row.soname).getD i []) := by
    rcases Nat.eq_or_lt_of_le hij with rfl | hlt
    · exact le_rfl
    · have hdesc := List.pairwise_iff_getElem.mp hsorted i j (by omega) hj hlt
      have hi' := hrows _ (List.getElem_mem (by omega : i < rows.length))
      have hj' := hrows _ (List.getElem_mem hj)
      have hback := libcmp_isPreorder.swap _ _ hi' hj'
      rw [show (rows.map Row.soname).getD j [] = rows[j].soname by simp [hj],
        show (rows.map Row.soname).getD i [] = rows[i].soname by simp [show i < rows.length by omega],
        ← sign_cmp_le_zero, ← libcmp_sign hj' hi', hback]
      have := Int.sign_nonneg_iff.mpr hdesc
      omega
  have hget {i : Nat} (hi : i < rows.length) : 0 ∉ (rows.map Row.soname).getD i [] := by
    rw [show (rows.map Row.soname).getD i [] = rows[i].soname by simp [hi]]
    exact hrows _ (List.getElem_mem hi)
  have hle (i : Nat) (hi : i < rows.length) : cacheLibcmp name ((rows.map Row.soname).getD i []) ≤ 0 ↔
      libKey name ≤ libKey ((rows.map Row.soname).getD i []) :=
    @cmp_le_zero_iff Text (Seq ℕ) _ (fun p => 0 ∉ p) cacheLibcmp libKey (fun _ _ hp hq => libcmp_sign hp hq) _ _ hname
      (hget hi)
  have hge (i : Nat) (hi : i < rows.length) : 0 ≤ cacheLibcmp name ((rows.map Row.soname).getD i []) ↔
      libKey ((rows.map Row.soname).getD i []) ≤ libKey name := by
    rw [← Int.sign_nonneg_iff, libcmp_sign hname (hget hi), zero_le_sign_cmp]
  refine ⟨fun i j hij hj h => ?_, fun i j hij hj h => ?_⟩
  · exact (hge j hj).mpr ((hkey hij hj).trans ((hge i (by omega)).mp h))
  · by_contra hno
    have := (hle j hj).mp (by omega)
    have := (hle i (by omega)).mpr (this.trans (hkey hij hj))
    omega

/-- The search finds every row. -/
theorem mem_lookup {rows : List Row} (hrows : ∀ r ∈ rows, 0 ∉ r.soname)
    (hsorted : rows.Pairwise fun a b => 0 ≤ cacheLibcmp a.soname b.soname) {r : Row} (hr : r ∈ rows) :
    r ∈ lookup rows r.soname := by
  obtain ⟨i, hi, rfl⟩ := List.mem_iff_getElem.mp hr
  have hasc := ascending_of_sorted (hrows _ hr) hrows hsorted
  have hself : cacheLibcmp rows[i].soname ((rows.map Row.soname).getD i []) = 0 := by
    rw [show (rows.map Row.soname).getD i [] = rows[i].soname by simp [hi], ← Int.sign_eq_zero_iff_zero,
      libcmp_sign (hrows _ hr) (hrows _ hr), sign_cmp_self]
  obtain ⟨m, hm, hmlt, hzero⟩ := search_found hasc hself rows.length (Nat.zero_le i) hi le_rfl (by omega)
  unfold lookup
  rw [hm]
  apply mem_around hi
  intro j hj hbetween
  -- between two rows that compare equal all do
  have hat (k : Nat) (hk : k < rows.length) : (rows.map Row.soname).getD k [] = rows[k].soname := by simp [hk]
  have hnonneg : 0 ≤ cacheLibcmp rows[i].soname ((rows.map Row.soname).getD j []) := by
    rcases hbetween with ⟨h, -⟩ | ⟨h, -⟩
    · exact hasc.nonneg i j h hj hself.ge
    · exact hasc.nonneg m j h hj hzero.ge
  have hnonpos : ¬ 0 < cacheLibcmp rows[i].soname ((rows.map Row.soname).getD j []) := by
    intro hpos
    rcases hbetween with ⟨-, h⟩ | ⟨-, h⟩
    · exact absurd hzero (hasc.pos j m h hmlt hpos).ne'
    · exact absurd hself (hasc.pos j i h hi hpos).ne'
  rw [hat j hj] at hnonneg hnonpos
  exact decide_eq_true (by omega)

/-- The comparison functions are consistent, so that the entries can be sorted; whatever order the sort leaves, the cache
that is written for it is accepted, has the entries and no others in descending order of their names, and a search for
the name of an entry finds it. -/
theorem buildCache_readable : IsPreorder (fun p : Text => 0 ∉ p) cacheLibcmp ∧ IsPreorder Ldent.Strings entCmp ∧
    ∀ ents : List Ldent, (∀ e ∈ ents, e.Strings) → (∃ sorted, Sorted ents sorted) ∧
      ∀ sorted b, Sorted ents sorted → buildCache sorted = some b → ∃ rows, printCache b = .ok rows ∧
        rows.Perm (ents.map Ldent.row) ∧ (rows.Pairwise fun a b => 0 ≤ cacheLibcmp a.soname b.soname) ∧
        ∀ e ∈ ents, e.row ∈ lookup rows e.soname := by
  refine ⟨libcmp_isPreorder, entCmp_isPreorder, fun ents hents => ⟨?_, fun sorted b hsorted hb => ?_⟩⟩
  · obtain ⟨s, hperm, hpair⟩ := @exists_sorted Ldent _ _ Ldent.Strings entCmp entKey
      (fun _ _ ha hb => entCmp_sign ha hb) ents hents
    exact ⟨s, hperm, hpair⟩
  · have hstrings : ∀ e ∈ sorted, e.Strings := fun e he => hents e (hsorted.perm.subset he)
    have hdesc : (sorted.map Ldent.row).Pairwise fun a b => 0 ≤ cacheLibcmp a.soname b.soname := by
      rw [List.pairwise_map]
      refine hsorted.ordered.imp_of_mem fun {a b} ha hb hab => ?_
      have hback := libcmp_isPreorder.swap _ _ (hstrings a ha).soname (hstrings b hb).soname
      have hname : cacheLibcmp b.soname a.soname ≤ 0 := by
        unfold entCmp at hab
        by_cases hr : cacheLibcmp b.soname a.soname = 0
        · exact hr.le
        · rwa [if_pos hr] at hab
      have := le_zero_iff_sign.mp hname
      show 0 ≤ cacheLibcmp a.soname b.soname
      exact Int.sign_nonneg_iff.mp (by omega)
    have hrows : ∀ r ∈ sorted.map Ldent.row, 0 ∉ r.soname := by
      intro r hr
      obtain ⟨e, he, rfl⟩ := List.mem_map.mp hr
      exact (hstrings e he).soname
    refine ⟨sorted.map Ldent.row, printCache_buildCache hstrings hb, hsorted.perm.map _, hdesc, fun e he => ?_⟩
    have hmem : e.row ∈ sorted.map Ldent.row := List.mem_map_of_mem (hsorted.perm.symm.subset he)
    exact mem_lookup hrows hdesc hmem

def libc : Ldent := ⟨ascii "libc.so.6", ascii "/lib/libc.so.6", 0x303⟩

def libm : Ldent := ⟨ascii "libm.so.6", ascii "/lib/libm.so.6", 0x303⟩

theorem buildCache_readable_libc : ∃ b, buildCache [libm, libc] = some b ∧ ∃ rows, printCache b = .ok rows ∧
    rows.Perm ([libc, libm].map Ldent.row) ∧ (rows.Pairwise fun a b => 0 ≤ cacheLibcmp a.soname b.soname) ∧
    ∀ e ∈ [libc, libm], e.row ∈ lookup rows e.soname := by
  have hstrings : ∀ e ∈ [libc, libm], e.Strings := by
    intro e he
    simp only [List.mem_cons, List.not_mem_nil, or_false] at he
    rcases he with rfl | rfl
    · exact ⟨by decide, by decide⟩
    · exact ⟨by decide, by decide⟩
  have hsorted : Sorted [libc, libm] [libm, libc] := ⟨List.Perm.swap _ _ _, by decide⟩
  exact ⟨_, rfl, (buildCache_readable.2.2 [libc, libm] hstrings).2 [libm, libc] _ hsorted rfl⟩

end Guppy.Ldconfig
