import Guppy.Ext2.FsckLinks
import Guppy.Ext2.HandleRead

set_option autoImplicit false

/-! # Two resolvers

The operations of `src/ext2.c` that change a filesystem resolve a path with
`ext2_resolve_path_at`; the VFS lookup of `src/vfs_ext2.c` has `ext2_resolve_relpath`. They read
the superblock, inodes and directory blocks with code of their own. They differ in four places:
the first one takes at most 511 bytes and fails on more, the second cuts at 1023; the first looks
up `.`, the second skips it; the second skips records that are too short for their name; and the
second reads inodes of at most 256 bytes.
-/

namespace Guppy.Ext2

open Prog Vfs

/-! ## The VFS side -/

/-- `ino && nl && nl <= rec - 8 && strlen(name) == nl && memcmp(blk + off + 8, name, nl) == 0` -/
def childMatches (name : Text) (blk : Mem) (pos : Nat) : Bool :=
  deInode blk pos ≠ 0 ∧ deNameLen blk pos ≠ 0 ∧ deNameLen blk pos ≤ deRecLen blk pos - 8 ∧
    name.length = deNameLen blk pos ∧ deName blk pos = name

/-- The loop of `ext2_find_child_entry` over the blocks of a directory; a block that cannot be
read ends it. -/
def findChild (d : Vblk) (bs : Nat) (name : Text) : List Nat → Option (Nat × Nat)
  | [] => none
  | b :: blocks =>
      match (preadBytesAt d (b * bs) bs).toOption with
      | none => none
      | some blk =>
          match (positions bs blk).find? (childMatches name blk) with
          | some pos => some (deInode blk pos, deFileType blk pos)
          | none => findChild d bs name blocks

/-- `ext2_find_child_entry`. -/
def ext2FindChildEntry (d : Vblk) (dirIno : Nat) (name : Text) : Option (Nat × Nat) :=
  if name = [] then none
  else
    (ext2ReadLayout d).bind (fun lo =>
      (ext2ReadInodeDisk d lo dirIno).bind (fun dir =>
        if ifmt dir.iMode ≠ sIfdir then none else findChild d lo.blockSize name (dirBlocks dir)))

/-- The pieces of a path between its slashes, empty ones too. -/
def relPieces (cur : Text) : Text → List Text
  | [] => [cur]
  | c :: t => if c = slash then cur :: relPieces [] t else relPieces (cur ++ [c]) t

/-- `"."` -/
def dotName : Text := [46]

/-- The loop of `ext2_resolve_relpath`: inode and type. -/
def relWalk (d : Vblk) : Nat × Nat → List Text → Option (Nat × Nat)
  | cur, [] => some cur
  | cur, p :: ps =>
      if p ≠ [] ∧ p ≠ dotName then
        match ext2FindChildEntry d cur.1 p with
        | none => none
        | some next => relWalk d next ps
      else relWalk d cur ps

/-- `VFS_PATH_MAX`. -/
def vfsPathMax : Nat := 1024

/-- `ext2_resolve_relpath`. -/
def ext2ResolveRelpath (d : Vblk) (rel : Text) : Option (Nat × Nat) :=
  if rel = [] then some (2, 2) else relWalk d (2, 2) (relPieces [] (rel.take (vfsPathMax - 1)))

/-! ## Paths -/

/-- The names of a path are its pieces that are not empty. -/
theorem componentsAux_eq (t : Text) : ∀ cur : Text,
    componentsAux cur t = (relPieces cur t).filter (fun p => p ≠ []) := by
  induction t with
  | nil =>
      intro cur
      unfold componentsAux relPieces
      by_cases hc : cur = []
      · simp [hc]
      · simp [hc]
  | cons c t ih =>
      intro cur
      unfold componentsAux relPieces
      by_cases hs : c = slash
      · rw [if_pos hs, if_pos hs, List.filter_cons]
        by_cases hc : cur = []
        · simp [hc, ih]
        · simp [hc, ih]
      · rw [if_neg hs, if_neg hs]
        exact ih _

/-- Leading slashes make empty pieces only. -/
theorem components_dropWhile (t : Text) : components (t.dropWhile (· = slash)) = components t := by
  unfold components
  induction t with
  | nil => rfl
  | cons c t ih =>
      by_cases hs : c = slash
      · have hskip : componentsAux [] (slash :: t) = componentsAux [] t := by simp [componentsAux]
        rw [List.dropWhile_cons_of_pos (by simp [hs]), ih, hs, hskip]
      · rw [List.dropWhile_cons_of_neg (by simp [hs])]

/-- Empty pieces are passed over. -/
theorem relWalk_filter {d : Vblk} (ps : List Text) : ∀ cur : Nat × Nat,
    relWalk d cur (ps.filter (fun p => p ≠ [])) = relWalk d cur ps := by
  induction ps with
  | nil =>
      intro cur
      rfl
  | cons p ps ih =>
      intro cur
      by_cases hp : p = []
      · have hskip : relWalk d cur ([] :: ps) = relWalk d cur ps := by simp [relWalk]
        rw [List.filter_cons_of_neg (by simp [hp]), ih, hp, hskip]
      · rw [List.filter_cons_of_pos (by simp [hp])]
        unfold relWalk
        simp only [ih]

/-! ## Inodes -/

/-- The two readers work on one layout: the mutating side can load it, it is one of the format,
inodes have at most 256 bytes, and the size of an inode is the one the checker used. -/
structure OneLayout (d : Vblk) (m : Ext2Meta) : Prop where
  load : ext2LoadMeta d = .ok m
  standard : Standard m
  small : m.sb.sInodeSize ≤ 256
  revision : m.sb.sRevLevel ≠ 0 ∨ m.sb.sInodeSize = 128

section Inodes

variable {d : Vblk} {m : Ext2Meta}

theorem OneLayout.loaded (h : OneLayout d m) : Loaded d m := loaded_of_ok h.load h.standard.log

/-- The geometry that the checker works with is the one that was loaded. -/
theorem OneLayout.geometry (h : OneLayout d m) {q : FsckGeometry}
    (hq : q = fsckGeometry (d.bytes.slice 1024 1024)) :
    q.blocks = m.sb.sBlocksCount ∧ q.inodes = m.sb.sInodesCount ∧ q.first = m.sb.sFirstDataBlock ∧
      q.bs = m.blockSize ∧ q.bpg = m.sb.sBlocksPerGroup ∧ q.ipg = m.sb.sInodesPerGroup ∧
      (128 ≤ q.isz → q.isz = m.sb.sInodeSize) := by
  have hl := h.loaded
  have hfld : ∀ o, (o + 4 ≤ 88 ∨ 90 ≤ o) → o + 4 ≤ 204 →
      (d.bytes.slice 1024 1024).rd32 o = m.sb.rd32 o := by
    intro o ho h'
    rw [Mem.rd32_slice (by omega), hl.sb, loadedSb_rd32 d ho h']
  have h16 : (d.bytes.slice 1024 1024).rd16 88 = d.bytes.rd16 1112 := Mem.rd16_slice (by omega)
  have hrev : (d.bytes.slice 1024 1024).rd32 76 = m.sb.sRevLevel := hfld 76 (by omega) (by omega)
  subst hq
  refine ⟨hfld 4 (by omega) (by omega), hfld 0 (by omega) (by omega), hfld 20 (by omega) (by omega), ?_,
    hfld 32 (by omega) (by omega), hfld 40 (by omega) (by omega), ?_⟩
  · rw [hl.blockSize]
    show 1024 * 2 ^ (d.bytes.slice 1024 1024).rd32 24 = _
    rw [hfld 24 (by omega) (by omega)]
    rfl
  · intro hge
    have hisz : m.sb.sInodeSize = if d.bytes.rd16 1112 = 0 then 128 else d.bytes.rd16 1112 := by
      rw [hl.sb, loadedSb_inodeSize]
    have hsize : (fsckGeometry (d.bytes.slice 1024 1024)).isz =
        if m.sb.sRevLevel ≠ 0 then d.bytes.rd16 1112 else 128 := by
      rw [← hrev, ← h16]
      rfl
    rw [hsize] at hge ⊢
    split
    · rename_i hr
      rw [if_pos hr] at hge
      rw [hisz, if_neg (by omega)]
    · rename_i hr
      rcases h.revision with h' | h'
      · exact absurd h' hr
      · exact h'.symm

theorem loadGdt_groupCount {count : Nat} : ∀ {k : Nat} {m₁ m₂ : Ext2Meta},
    loadGdt d m₁ count k = .ok m₂ → m₂.groupCount = m₁.groupCount := by
  induction count with
  | zero =>
      intro k m₁ m₂ h
      cases h
      rfl
  | succ count ih =>
      intro k m₁ m₂ h
      obtain ⟨buf, _, hrest⟩ := except_bind_ok_iff.mp h
      exact @ih (k + 1) { m₁ with gd := putGd m₁.gd (gdtSpan m₁ k) buf } m₂ hrest

/-- The number of groups that was loaded. -/
theorem OneLayout.groupCount (h : OneLayout d m) :
    m.groupCount = (m.sb.sBlocksCount + m.sb.sBlocksPerGroup - 1) % uint32 / m.sb.sBlocksPerGroup := by
  have hload := h.load
  rw [h.loaded.sb]
  unfold ext2LoadMeta at hload
  obtain ⟨sb, hsb, hload⟩ := except_bind_ok_iff.mp hload
  obtain ⟨_, hsb⟩ := preadBytesAt_ok_iff.mp (orCode_ok_iff.mp hsb)
  obtain ⟨_, _, hload⟩ := except_bind_ok_iff.mp hload
  obtain ⟨_, _, hload⟩ := except_bind_ok_iff.mp hload
  obtain ⟨_, _, hload⟩ := except_bind_ok_iff.mp hload
  obtain ⟨_, _, hload⟩ := except_bind_ok_iff.mp hload
  have hsb' : (if sb.sInodeSize = 0 then sb.wr16 88 128 else sb) = loadedSb d := by
    rw [hsb]
    rfl
  rw [hsb'] at hload
  rw [loadGdt_groupCount hload]
  rfl

/-- The block of a local inode is one of those that the table needs. -/
theorem tableBlock_lt {l ipg isz bs : Nat} (hl : l < ipg) (hdvd : bs / isz * isz = bs) (hisz : 0 < isz)
    (hbs : 0 < bs) : l / (bs / isz) < (ipg * isz + bs - 1) / bs := by
  have hle : l / (bs / isz) * bs ≤ l * isz := by
    calc l / (bs / isz) * bs = l / (bs / isz) * (bs / isz) * isz := by
          rw [Nat.mul_assoc, hdvd]
      _ ≤ l * isz := Nat.mul_le_mul_right _ (Nat.div_mul_le_self _ _)
  have hnext : l * isz + isz ≤ ipg * isz := by
    rw [← Nat.succ_mul]
    exact Nat.mul_le_mul_right _ hl
  rw [Nat.lt_iff_add_one_le, Nat.le_div_iff_mul_le hbs, Nat.add_mul, Nat.one_mul]
  omega

/-- An inode that the mutating side cannot read cannot be read on the VFS side: on an accepted
filesystem it does not exist. -/
theorem OneLayout.inode_none (h : OneLayout d m)
    (hacc : Accepted d (fsckGeometry (d.bytes.slice 1024 1024))) {ino : Nat} {e : Int}
    (herr : ext2ReadInodeAt d m ino = .error e) : ext2ReadInodeDisk d m.layout ino = none := by
  have hl := h.loaded
  have hs := h.standard
  obtain ⟨hblocks, hinodes, hfirst, hbs, hbpg, hipg, hisz⟩ := h.geometry rfl
  generalize fsckGeometry (d.bytes.slice 1024 1024) = q at hacc hblocks hinodes hfirst hbs hbpg hipg hisz
  have hisz := hisz hacc.isz
  by_cases hino : ino = 0 ∨ m.sb.sInodesCount < ino
  · have hoff : ext2InodeDiskOffset d m.layout ino = none := by
      unfold ext2InodeDiskOffset
      refine if_pos ?_
      rcases hino with h0 | hgt
      · exact Or.inl h0
      · exact Or.inr (Or.inl hgt)
    unfold ext2ReadInodeDisk
    rw [hoff]
    split
    · rfl
    · rfl
  · exfalso
    have hipg0 := Nat.pos_of_ne_zero hl.ipg
    have hbs1 := hl.blockSize_ge
    have hcount := hs.inodes
    -- the group exists
    have hgroups : (ino - 1) / m.sb.sInodesPerGroup < q.groups := by
      have hle := hacc.groups.2
      rw [hinodes, hipg, Nat.mod_eq_of_lt (by omega)] at hle
      refine lt_of_lt_of_le ?_ hle
      rw [Nat.lt_div_iff_mul_lt hipg0]
      have := Nat.div_mul_le_self (ino - 1) m.sb.sInodesPerGroup
      omega
    have hgc : q.groups ≤ m.groupCount := by
      have hbound : q.blocks - q.first < q.bpg * 65536 := by
        have hq := hacc.groups.1
        unfold FsckGeometry.groups at hq
        have := (Nat.div_lt_iff_lt_mul hacc.bpg.1).mp (Nat.lt_succ_of_le hq)
        have hmul : (65535 + 1) * q.bpg = q.bpg * 65536 := by ring
        omega
      have hbs4 : q.bs ≤ 4096 := by
        rw [hbs, hl.blockSize]
        have hlog := hs.log
        generalize m.sb.sLogBlockSize = l at hlog
        interval_cases l <;> decide
      have hf := hs.first
      have hfle : q.first ≤ 1 := by
        rw [hfirst, hf]
        split <;> omega
      have h32 : uint32 = 4294967296 := rfl
      have hbpg8 := hacc.bpg.2
      rw [h.groupCount, ← hblocks, ← hbpg, Nat.mod_eq_of_lt (by omega)]
      unfold FsckGeometry.groups
      exact Nat.div_le_div_right (by omega)
    have hlt := lt_of_lt_of_le hgroups hgc
    -- and so does its block of the table
    have hgd := (hl.gd _ hlt).1
    have hgdt : (q.first + 1) * q.bs + 32 * ((ino - 1) / m.sb.sInodesPerGroup) =
        m.gdtBlk * m.blockSize + (ino - 1) / m.sb.sInodesPerGroup * 32 := by
      have hblk : q.first + 1 = m.gdtBlk := by
        rw [hfirst, hs.first, hl.gdtBlk, hl.blockSize]
        have hlog := hs.log
        generalize m.sb.sLogBlockSize = l at hlog
        interval_cases l <;> rfl
      rw [hblk, hbs, Nat.mul_comm 32]
    have htab := hacc.tables _ hgroups
    rw [hgdt, ← hgd] at htab
    have htab32 := (hs.tables _ hlt).2
    have hdvd := hs.inodeSize_dvd hl
    have hge := hs.inodeSize_ge
    have hlocal : (ino - 1) % m.sb.sInodesPerGroup < m.sb.sInodesPerGroup := Nat.mod_lt _ hipg0
    have hinside := tableBlock_lt hlocal hdvd (by omega) (by omega)
    have hitb : q.itblocks = (m.sb.sInodesPerGroup * m.sb.sInodeSize + m.blockSize - 1) / m.blockSize := by
      unfold FsckGeometry.itblocks
      rw [hipg, hisz, hbs]
    rw [hitb] at htab
    have hipb : m.blockSize / m.sb.sInodeSize ≠ 0 := by
      intro h0
      rw [h0, Nat.zero_mul] at hdvd
      omega
    have hdiv : (ino - 1) % m.sb.sInodesPerGroup / (m.blockSize / m.sb.sInodeSize) ≤
        (ino - 1) % m.sb.sInodesPerGroup := Nat.div_le_self _ _
    have hlim : (((m.gd ((ino - 1) / m.sb.sInodesPerGroup)).bgInodeTable +
          (ino - 1) % m.sb.sInodesPerGroup / (m.blockSize / m.sb.sInodeSize)) % uint32) * m.blockSize +
        m.blockSize ≤ d.limit := by
      rw [Nat.mod_eq_of_lt (by omega)]
      have hlim := hacc.limit
      rw [hbs] at hlim
      refine le_trans ?_ hlim
      rw [← Nat.succ_mul]
      exact Nat.mul_le_mul_right _ (by omega)
    have hplace : inodePlace m ino = .ok (((m.gd ((ino - 1) / m.sb.sInodesPerGroup)).bgInodeTable +
          (ino - 1) % m.sb.sInodesPerGroup / (m.blockSize / m.sb.sInodeSize)) % uint32,
        (ino - 1) % m.sb.sInodesPerGroup % (m.blockSize / m.sb.sInodeSize) * m.sb.sInodeSize) := by
      unfold inodePlace
      rw [except_bind_of_ok (check_of_not hino)]
      dsimp only []
      rw [except_bind_of_ok (check_of_not (by omega)), except_bind_of_ok (check_of_not hipb)]
    unfold ext2ReadInodeAt at herr
    rw [except_bind_of_ok hplace] at herr
    dsimp only [] at herr
    rw [except_bind_of_ok (orCode_of_ok (preadBlock_of_le hlim))] at herr
    cases herr

end Inodes

/-! ## Directories -/

/-- Every record of a directory that has an inode is long enough for its name. -/
def NamesFit (d : Vblk) (bs : Nat) (dir : Inode) : Prop :=
  ∀ b ∈ dirBlocks dir, ∀ blk, preadBlock d bs b bs = .ok blk → ∀ pos ∈ positions bs blk,
    deInode blk pos ≠ 0 → deNameLen blk pos + 8 ≤ deRecLen blk pos

/-- What a lookup of the mutating side found, errors counting as nothing. -/
def found (r : Except Int (Option (Nat × Nat))) : Option (Nat × Nat) := r.toOption.join

section Find

variable {d : Vblk} {m : Ext2Meta} {name : Text}

theorem find?_congr_mem {α : Type} {p q : α → Bool} {l : List α} (h : ∀ x ∈ l, p x = q x) :
    l.find? p = l.find? q := by
  induction l with
  | nil => rfl
  | cons x l ih =>
      rw [List.find?_cons, List.find?_cons, h x (List.mem_cons_self ..),
        ih (fun y hy => h y (List.mem_cons_of_mem _ hy))]

/-- On records that fit their names both searches stop at the same one. -/
theorem find_positions_agree {bs : Nat} {blk : Mem} (hname : name ≠ [])
    (hfit : ∀ pos ∈ positions bs blk, deInode blk pos ≠ 0 → deNameLen blk pos + 8 ≤ deRecLen blk pos) :
    (positions bs blk).find? (childMatches name blk) = (positions bs blk).find? (deMatches name blk) := by
  have hsame : ∀ pos ∈ positions bs blk, childMatches name blk pos = deMatches name blk pos := by
    intro pos hpos
    unfold childMatches deMatches
    rw [decide_eq_decide]
    constructor
    · rintro ⟨hino, -, -, hlen, heq⟩
      exact ⟨hino, hlen.symm, heq⟩
    · rintro ⟨hino, hlen, heq⟩
      have hpos' := List.length_pos_of_ne_nil hname
      have hroom := hfit pos hpos hino
      exact ⟨hino, by omega, by omega, hlen.symm, heq⟩
  exact find?_congr_mem hsame

/-- A name longer than 255 bytes is in no record. -/
theorem findChild_long {bs : Nat} (hlong : 255 < name.length) (blocks : List Nat) :
    findChild d bs name blocks = none := by
  have hno : ∀ blk pos, childMatches name blk pos = false := by
    intro blk pos
    have hlt : deNameLen blk pos < 256 := UInt8.toNat_lt _
    unfold childMatches
    rw [decide_eq_false_iff_not]
    rintro ⟨-, -, -, hlen, -⟩
    omega
  induction blocks with
  | nil => rfl
  | cons b blocks ih =>
      unfold findChild
      split
      · rfl
      · rw [List.find?_eq_none.mpr (fun pos _ => by rw [hno]; exact Bool.false_ne_true)]
        exact ih

/-- The search through the blocks of a directory. -/
theorem findBlocks_agree {bs : Nat} {code : Int} (hname : name ≠ []) (blocks : List Nat)
    (hfit : ∀ b ∈ blocks, ∀ blk, preadBlock d bs b bs = .ok blk → ∀ pos ∈ positions bs blk,
      deInode blk pos ≠ 0 → deNameLen blk pos + 8 ≤ deRecLen blk pos) :
    (findBlock d bs code (fun blk => (positions bs blk).find? (deMatches name blk)) blocks).toOption.join.map
        (fun f => (deInode f.2.1 f.2.2, deFileType f.2.1 f.2.2)) =
      findChild d bs name blocks := by
  induction blocks with
  | nil => rfl
  | cons b blocks ih =>
      unfold findBlock findChild
      cases hread : preadBytesAt d (b * bs) bs with
      | error e =>
          have herr : orCode (preadBlock d bs b bs) code = .error code := by
            unfold preadBlock
            rw [hread]
            rfl
          rw [except_bind_of_error herr]
          rfl
      | ok blk =>
          have hok : orCode (preadBlock d bs b bs) code = .ok blk := orCode_of_ok hread
          rw [except_bind_of_ok hok]
          dsimp only [Except.toOption]
          rw [find_positions_agree hname (hfit b (List.mem_cons_self ..) blk hread)]
          cases (positions bs blk).find? (deMatches name blk) with
          | some pos => rfl
          | none => exact ih (fun c hc => hfit c (List.mem_cons_of_mem _ hc))

/-- Both sides find the same entry in a directory whose records fit their names. -/
theorem OneLayout.find_agree (h : OneLayout d m)
    (hacc : Accepted d (fsckGeometry (d.bytes.slice 1024 1024))) (hname : name ≠ []) {dirIno : Nat}
    (hfit : ∀ dir, ext2ReadInodeAt d m dirIno = .ok dir → NamesFit d m.blockSize dir) :
    found (ext2FindEntryAt d m dirIno name) = ext2FindChildEntry d dirIno name := by
  have hl := h.loaded
  have hinodes : 0 < m.sb.sInodesCount := by
    rw [← (h.geometry rfl).2.1]
    exact hacc.inodes
  have hlayout := ext2ReadLayout_of_loaded hl h.standard hinodes
  unfold ext2FindChildEntry ext2FindEntryAt
  rw [if_neg hname, hlayout, except_bind_of_ok (check_of_not hname), Option.bind_some]
  cases hdir : ext2ReadInodeAt d m dirIno with
  | error e =>
      have herr : orCode (.error e : Except Int Inode) (-2) = .error (-2) := rfl
      rw [except_bind_of_error herr, h.inode_none hacc hdir]
      rfl
  | ok dir =>
      rw [except_bind_of_ok (orCode_of_ok rfl)]
      by_cases hmode : ifmt dir.iMode = sIfdir
      · have hne : dir.iMode ≠ 0 := by
          intro h0
          rw [h0] at hmode
          cases hmode
        obtain ⟨di, hdi, hmode', -, hblock⟩ := ext2ReadInodeDisk_of_loaded hl h.standard hdir hne h.small
        have hblocks : dirBlocks di = dirBlocks dir := by
          unfold dirBlocks
          congr 1
          exact List.map_congr_left (fun k hk => hblock k (by have := List.mem_range.mp hk; omega))
        have hagree := @findBlocks_agree d name m.blockSize (-6) hname (dirBlocks dir) (hfit dir hdir)
        rw [hdi, Option.bind_some, hmode', if_neg (not_not.mpr hmode), hblocks,
          except_bind_of_ok (check_of_not (not_not.mpr hmode))]
        by_cases hlong : 255 < name.length
        · rw [except_bind_of_error (check_of hlong)]
          exact (findChild_long hlong _).symm
        · have hbs : ¬ 4096 < m.blockSize := by
            rw [hl.blockSize]
            have hlog := h.standard.log
            generalize m.sb.sLogBlockSize = l at hlog
            interval_cases l <;> decide
          rw [except_bind_of_ok (check_of_not hlong), except_bind_of_ok (check_of_not hbs)]
          show _ = findChild d m.blockSize name (dirBlocks dir)
          rw [← hagree]
          cases findBlock d m.blockSize (-6)
            (fun blk => (positions m.blockSize blk).find? (deMatches name blk)) (dirBlocks dir) with
          | error e => rfl
          | ok f => rfl
      · rw [except_bind_of_error (check_of hmode)]
        by_cases h0 : dir.iMode = 0
        · rw [ext2ReadInodeDisk_mode_zero hl h.standard hdir h0]
          rfl
        · obtain ⟨di, hdi, hmode', -⟩ := ext2ReadInodeDisk_of_loaded hl h.standard hdir h0 h.small
          rw [hdi, Option.bind_some, hmode', if_pos hmode]
          rfl

end Find

/-! ## Walks -/

/-- A record of the directory `ino` names `child`. -/
def NamedIn (d : Vblk) (m : Ext2Meta) (ino : Nat) (name : Text) (child : Nat) : Prop :=
  ∃ dir, ext2ReadInodeAt d m ino = .ok dir ∧ ∃ b ∈ dirBlocks dir, ∃ blk,
    preadBlock d m.blockSize b m.blockSize = .ok blk ∧ ∃ pos ∈ positions m.blockSize blk,
      deMatches name blk pos = true ∧ deInode blk pos = child

/-- Names lead from the root to an inode, record by record. -/
inductive Reaches (d : Vblk) (m : Ext2Meta) : List Text → Nat → Prop
  | root : Reaches d m [] 2
  | step {names : List Text} {ino child : Nat} {name : Text} : Reaches d m names ino →
      NamedIn d m ino name child → Reaches d m (names ++ [name]) child

/-- An inode is a directory, and the first record `.` in its first block names it. -/
def DotIsSelf (d : Vblk) (m : Ext2Meta) (ino : Nat) : Prop :=
  ∃ dir b rest blk pos, ext2ReadInodeAt d m ino = .ok dir ∧ ifmt dir.iMode = sIfdir ∧
    dirBlocks dir = b :: rest ∧ preadBlock d m.blockSize b m.blockSize = .ok blk ∧
    (positions m.blockSize blk).find? (deMatches dotName blk) = some pos ∧ deInode blk pos = ino

/-- A path on which the two resolvers do not differ: it is short enough for both, every `.` in it
follows names that lead to directories whose own `.` names them, and the records of every
directory on the way are long enough for their names. -/
structure PlainPath (d : Vblk) (m : Ext2Meta) (path : Text) : Prop where
  short : (path.dropWhile (· = slash)).length < 512
  whole : path.length < vfsPathMax
  dots : ∀ pre post, components path = pre ++ dotName :: post → ∀ ino, Reaches d m pre ino →
    DotIsSelf d m ino
  fit : ∀ pre name post, components path = pre ++ name :: post → ∀ ino dir, Reaches d m pre ino →
    ext2ReadInodeAt d m ino = .ok dir → NamesFit d m.blockSize dir

section Walk

variable {d : Vblk} {m : Ext2Meta}

theorem findBlock_some {α : Type} {bs : Nat} {code : Int} {pick : Mem → Option α} {b : Nat} {blk : Mem}
    {a : α} (blocks : List Nat) (h : findBlock d bs code pick blocks = .ok (some (b, blk, a))) :
    b ∈ blocks ∧ preadBlock d bs b bs = .ok blk ∧ pick blk = some a := by
  induction blocks with
  | nil => cases h
  | cons c blocks ih =>
      unfold findBlock at h
      obtain ⟨buf, hbuf, h⟩ := except_bind_ok_iff.mp h
      cases hpick : pick buf with
      | some x =>
          rw [hpick] at h
          cases h
          exact ⟨List.mem_cons_self .., orCode_ok_iff.mp hbuf, hpick⟩
      | none =>
          rw [hpick] at h
          obtain ⟨hb, hread, hp⟩ := ih h
          exact ⟨List.mem_cons_of_mem _ hb, hread, hp⟩

/-- What the mutating side finds is a record of the directory. -/
theorem found_named {ino : Nat} {name : Text} {child type : Nat}
    (h : ext2FindEntryAt d m ino name = .ok (some (child, type))) : NamedIn d m ino name child := by
  unfold ext2FindEntryAt at h
  obtain ⟨_, _, h⟩ := except_bind_ok_iff.mp h
  obtain ⟨dir, hdir, h⟩ := except_bind_ok_iff.mp h
  obtain ⟨_, _, h⟩ := except_bind_ok_iff.mp h
  obtain ⟨_, _, h⟩ := except_bind_ok_iff.mp h
  obtain ⟨_, _, h⟩ := except_bind_ok_iff.mp h
  obtain ⟨f, hf, h⟩ := except_bind_ok_iff.mp h
  cases f with
  | none => cases h
  | some f =>
      obtain ⟨b, blk, pos⟩ := f
      cases h
      obtain ⟨hb, hread, hpick⟩ := findBlock_some _ hf
      exact ⟨dir, orCode_ok_iff.mp hdir, b, hb, blk, hread, pos, List.mem_of_find?_eq_some hpick,
        List.find?_some hpick, rfl⟩

/-- In a directory whose `.` names it, the mutating side finds it there. -/
theorem DotIsSelf.found {ino : Nat} (h : DotIsSelf d m ino) (hbs : ¬ 4096 < m.blockSize) :
    ∃ type, ext2FindEntryAt d m ino dotName = .ok (some (ino, type)) := by
  obtain ⟨dir, b, rest, blk, pos, hdir, hmode, hblocks, hread, hpos, hino⟩ := h
  have hne : ¬ dotName = [] := by decide
  have hlen : ¬ 255 < dotName.length := by decide
  refine ⟨deFileType blk pos, ?_⟩
  unfold ext2FindEntryAt
  rw [except_bind_of_ok (check_of_not hne), except_bind_of_ok (orCode_of_ok hdir),
    except_bind_of_ok (check_of_not (not_not.mpr hmode)), except_bind_of_ok (check_of_not hlen),
    except_bind_of_ok (check_of_not hbs), hblocks]
  unfold findBlock
  rw [except_bind_of_ok (orCode_of_ok hread), hpos]
  show Except.ok (some (deInode blk pos, deFileType blk pos)) = _
  rw [hino]

/-- The two walks, from a directory that the names before lead to. -/
theorem OneLayout.walk_agree (h : OneLayout d m)
    (hacc : Accepted d (fsckGeometry (d.bytes.slice 1024 1024))) {all : List Text}
    (hdots : ∀ pre post, all = pre ++ dotName :: post → ∀ ino, Reaches d m pre ino → DotIsSelf d m ino)
    (hfit : ∀ pre name post, all = pre ++ name :: post → ∀ ino dir, Reaches d m pre ino →
      ext2ReadInodeAt d m ino = .ok dir → NamesFit d m.blockSize dir)
    (names : List Text) (hnames : ∀ name ∈ names, name ≠ []) : ∀ {pre : List Text} {cur type : Nat},
      all = pre ++ names → Reaches d m pre cur →
      (lookupNames d m cur names).toOption = (relWalk d (cur, type) names).map (·.1) := by
  induction names with
  | nil =>
      intro pre cur type _ _
      rfl
  | cons name names ih =>
      intro pre cur type hall hreach
      have hrest : ∀ n ∈ names, n ≠ [] := fun n hn => hnames n (List.mem_cons_of_mem _ hn)
      have hnext : all = (pre ++ [name]) ++ names := by
        rw [hall, List.append_assoc]
        rfl
      have hne : name ≠ [] := hnames name (List.mem_cons_self ..)
      have hbs : ¬ 4096 < m.blockSize := by
        rw [h.loaded.blockSize]
        have hlog := h.standard.log
        generalize m.sb.sLogBlockSize = l at hlog
        interval_cases l <;> decide
      unfold lookupNames relWalk
      by_cases hdot : name = dotName
      · -- one side finds the directory itself, the other skips the name
        subst hdot
        obtain ⟨type', hfound⟩ := (hdots pre names hall cur hreach).found hbs
        rw [hfound, if_neg (fun hc => hc.2 rfl)]
        exact ih hrest hnext (Reaches.step hreach (found_named hfound))
      · have hagree := h.find_agree hacc hne (fun dir hdir => hfit pre name names hall cur dir hreach hdir)
        rw [if_pos ⟨hne, hdot⟩, ← hagree]
        cases hfound : ext2FindEntryAt d m cur name with
        | error e => rfl
        | ok r =>
            cases r with
            | none => rfl
            | some next => exact ih hrest hnext (Reaches.step hreach (found_named hfound))

end Walk

/-! ## A small filesystem -/

def nestedSb : Superblock :=
  ((((((Mem.zero.wr32 0 16).wr32 4 10).wr32 16 3).wr32 20 1).wr32 32 8192).wr32 40 16).wr16 56 0xEF53

def nestedGd : GroupDesc := (((Mem.zero.wr32 0 3).wr32 4 4).wr32 8 5).wr16 14 3

def dirInode (links block : Nat) : Inode :=
  (((Mem.zero.wr16 0 0o40755).wr32 4 1024).wr16 26 links).wr32 40 block

def emptyFile : Inode := (Mem.zero.wr16 0 0o100644).wr16 26 1

/-- A directory of 1024 bytes with one entry besides `.` and `..`. -/
def dirBlock (self parent child type : Nat) (name : Text) : Mem :=
  putDirent (putDirent (putDirent Mem.zero 0 self 12 2 [46]) 12 parent 12 2 [46, 46]) 24 child 1000
    type name

/-- Names of 255 bytes. -/
def longA : Text := List.replicate 255 97
def longB : Text := List.replicate 255 98

/-- The inodes of `/`, of the directory `longA` in it, of the directory `longB` in that one, and
of a file `c` there. -/
def nestedInodes : Mem :=
  (((Mem.zero.write 128 128 (dirInode 3 7)).write 1280 128 (dirInode 3 8)).write 1408 128
    (dirInode 2 9)).write 1536 128 emptyFile

/-- Ten blocks of 1024 bytes with these inodes. -/
def nestedFs : Vblk :=
  { limit := 10240
    ro := false
    bytes := (((((((Mem.zero.write 1024 204 nestedSb).write 2048 32 nestedGd).wr16 3072 511).wr16 4096
      8191).write 5120 2048 nestedInodes).write 7168 1024 (dirBlock 2 2 11 2 longA)).write 8192 1024
      (dirBlock 11 2 12 2 longB)).write 9216 1024 (dirBlock 12 11 13 1 [99])
    clock := fun _ => 0 }

/-- What the lookups of `.` in the root rely on. -/
def rootPlain (m : Ext2Meta) : Bool :=
  m.sb.sLogBlockSize = 0 ∧ m.sb.sInodeSize = 128 ∧ m.blockSize = 1024 ∧ m.sb.sFirstDataBlock = 1 ∧
    m.sb.sInodesCount = 16 ∧ m.sb.sInodesPerGroup = 16 ∧ m.groupCount = 1 ∧ (m.gd 0).bgInodeTable = 5 ∧
    (ext2ReadInodeAt nestedFs m 2).toOption.map (fun dir => (ifmt dir.iMode, dirBlocks dir)) =
      some (sIfdir, [7])

/-- The records of the root fit their names, and the first one is `.`. -/
def rootBlockPlain (blk : Mem) : Bool :=
  (positions 1024 blk).find? (deMatches dotName blk) = some 0 ∧ deInode blk 0 = 2 ∧
    (positions 1024 blk).all (fun pos => deNameLen blk pos + 8 ≤ deRecLen blk pos) = true

/-- The geometry of the filesystem. -/
def nestedGeometry : FsckGeometry :=
  { blocks := 10, inodes := 16, first := 1, bs := 1024, bpg := 8192, ipg := 16, isz := 128, rev := 0
    firstNonreserved := 11, rocompat := 0, reservedGdt := 0 }

theorem nestedFs_geometry : fsckGeometry (nestedFs.bytes.slice 1024 1024) = nestedGeometry := by
  unfold fsckGeometry nestedGeometry
  rw [FsckGeometry.mk.injEq]
  decide +kernel

theorem nestedFs_groups : fsckGroups nestedFs nestedGeometry 0 3 = 0 := fsckGroups_zero (by decide +kernel)

theorem nestedFs_accepted : ext2FsckPhase1 nestedFs = 0 := by
  have hread : readat nestedFs 1024 1024 = some (nestedFs.bytes.slice 1024 1024) := by rfl
  have hsb : (nestedFs.bytes.slice 1024 1024).rd16 56 = 0xEF53 ∧
      (nestedFs.bytes.slice 1024 1024).rd32 24 = 0 ∧ (nestedFs.bytes.slice 1024 1024).rd32 12 = 0 ∧
      (nestedFs.bytes.slice 1024 1024).rd32 16 = 3 := by decide +kernel
  unfold ext2FsckPhase1
  rw [hread]
  dsimp only []
  rw [nestedFs_geometry, hsb.1, hsb.2.1, hsb.2.2.1, hsb.2.2.2, if_neg (by decide), if_neg (by decide),
    if_neg (by decide), if_neg (by decide), if_neg (by decide)]
  exact nestedFs_groups

theorem nestedFs_root : ∃ m, OneLayout nestedFs m ∧ PlainPath nestedFs m dotName := by
  obtain ⟨m, hm, hcheck⟩ := @exists_ok_of_eval _ (ext2LoadMeta nestedFs) rootPlain (by decide +kernel)
  obtain ⟨blk, hblk, hplain⟩ := @exists_ok_of_eval _ (preadBlock nestedFs 1024 7 1024) rootBlockPlain
    (by decide +kernel)
  unfold rootPlain at hcheck
  unfold rootBlockPlain at hplain
  simp only [decide_eq_true_eq] at hcheck hplain
  obtain ⟨hlog, hisz, hbs, hfirst, hcount, hipg, hgc, htab, hroot⟩ := hcheck
  obtain ⟨hdot, hself, hfits⟩ := hplain
  have hdir : ∃ dir, ext2ReadInodeAt nestedFs m 2 = .ok dir ∧ ifmt dir.iMode = sIfdir ∧
      dirBlocks dir = [7] := by
    cases hr : ext2ReadInodeAt nestedFs m 2 with
    | error e =>
        rw [hr] at hroot
        cases hroot
    | ok dir =>
        rw [hr] at hroot
        have := Option.some.inj hroot
        exact ⟨dir, rfl, congrArg Prod.fst this, congrArg Prod.snd this⟩
  obtain ⟨dir, hread, hmode, hblocks⟩ := hdir
  have hcomp : components dotName = [dotName] := by decide
  have hstart : ∀ ino, Reaches nestedFs m [] ino → ino = 2 := by
    intro ino h
    generalize hpre : ([] : List Text) = pre at h
    cases h with
    | root => rfl
    | step _ _ => exact absurd hpre.symm (by simp)
  have hone : ∀ (pre : List Text) (name : Text) (post : List Text), components dotName = pre ++ name :: post →
      pre = [] := by
    intro pre name post h
    rw [hcomp] at h
    cases pre with
    | nil => rfl
    | cons p ps =>
        have := congrArg List.length h
        simp at this
  refine ⟨m, ⟨hm, ⟨by omega, ⟨0, hisz⟩, by omega, ?_, ?_, ?_⟩, by omega, Or.inr hisz⟩,
    by decide, by decide, ?_, ?_⟩
  · rw [hfirst, hlog]
    rfl
  · rw [hcount, hipg]
    decide
  · intro g hg
    obtain rfl : g = 0 := by omega
    rw [htab, hipg]
    decide
  · intro pre post hpre ino hino
    rw [hone pre _ post hpre] at hino
    obtain rfl := hstart ino hino
    refine ⟨dir, 7, [], blk, 0, hread, hmode, hblocks, ?_, ?_, hself⟩
    · rw [hbs]
      exact hblk
    · rw [hbs]
      exact hdot
  · intro pre name post hpre ino dir' hino hread' b hb blk' hblk' pos hpos _
    rw [hone pre name post hpre] at hino
    obtain rfl := hstart ino hino
    obtain rfl : dir = dir' := Except.ok.inj (hread.symm.trans hread')
    rw [hblocks, List.mem_singleton] at hb
    subst hb
    rw [hbs] at hblk' hpos
    obtain rfl : blk = blk' := Except.ok.inj (hblk.symm.trans hblk')
    simpa using List.all_eq_true.mp hfits pos hpos

end Guppy.Ext2
