import Guppy.Ntfs.Record

set_option autoImplicit false

/-! # Reading a FILE record back

The attributes lie one behind the other from `attr_ofs` on (`Laid`), so that a walk by their lengths finds them.
With sectors of 128 bytes or more the array of the update sequence ends in front of the first end of a sector,
and the reader puts back what the builder took away.
-/

namespace Guppy.Ntfs

/-! ## Attributes in a row -/

/-- The bytes of an attribute: a header with a type and a length, in whole words of 8 bytes. -/
structure Block (t : List UInt8) : Prop where
  header : 24 ≤ t.length
  whole : t.length % 8 = 0
  type : (Mem.ofList t).rd32 0 ≠ attrEnd
  length : (Mem.ofList t).rd32 4 = t.length

/-- The attributes that a builder has taken since it was `b₀`. -/
structure Laid (b₀ b : RecordBuilder) (blocks : List (List UInt8)) : Prop where
  frame : b = { b₀ with buf := b.buf, attrCursor := b.attrCursor, nextAttrId := b.nextAttrId }
  cursor : b.attrCursor = b₀.attrCursor + blocks.flatten.length
  id : b.nextAttrId = blocks.length
  whole : b.attrCursor % 8 = 0
  room : b.attrCursor + 8 ≤ 1024
  kept : ∀ i, i < b₀.attrCursor → b.buf i = b₀.buf i
  bytes : b.buf.toList b₀.attrCursor blocks.flatten.length = blocks.flatten
  clear : ∀ i, b.attrCursor ≤ i → b.buf i = 0
  block : ∀ t ∈ blocks, Block t

theorem length_le_flatten (l : List (List UInt8)) : (∀ t ∈ l, Block t) → l.length ≤ l.flatten.length := by
  induction l with
  | nil => simp
  | cons t l ih =>
      intro hl
      have := (hl t (by simp)).header
      have := ih fun u hu => hl u (by simp [hu])
      simp only [List.flatten_cons, List.length_append, List.length_cons]
      omega

theorem Laid.count_le {b₀ b : RecordBuilder} {blocks : List (List UInt8)} (h : Laid b₀ b blocks) : blocks.length ≤ 1024 := by
  have := length_le_flatten blocks h.block
  have := h.cursor
  have := h.room
  omega

theorem attrLength_eq {raw : Nat} (h : raw ≤ 2048) : attrLength raw = (raw + 7) / 8 * 8 := by
  unfold attrLength
  omega

/-- A header, a value and zeros, in a buffer that was clear. -/
theorem toList_placed {p hdr : Mem} {v : List UInt8} {off h len : Nat} (hclear : ∀ i, off ≤ i → p i = 0)
    (hlen : h + v.length ≤ len) :
    ((p.write off h hdr).write (off + h) v.length (Mem.ofList v)).toList off len =
      hdr.toList 0 h ++ v ++ List.replicate (len - (h + v.length)) 0 := by
  obtain ⟨pad, rfl⟩ : ∃ pad, len = h + v.length + pad := ⟨len - (h + v.length), by omega⟩
  have hhead : ((p.write off h hdr).write (off + h) v.length (Mem.ofList v)).toList off h = hdr.toList 0 h := by
    refine Mem.toList_congr fun i hi => ?_
    rw [Mem.write_out (by omega), Mem.write_in (by omega) (by omega)]
    congr 1
    omega
  have hvalue : ((p.write off h hdr).write (off + h) v.length (Mem.ofList v)).toList (off + h) v.length = v := by
    rw [← Mem.toList_ofList v]
    simp only [Mem.toList_ofList]
    refine (Mem.toList_congr fun i hi => ?_).trans (Mem.toList_ofList v)
    rw [Mem.write_in (by omega) (by omega)]
    congr 1
    omega
  have hpad : ((p.write off h hdr).write (off + h) v.length (Mem.ofList v)).toList (off + (h + v.length)) pad =
      List.replicate pad 0 := by
    rw [List.eq_replicate_iff]
    refine ⟨Mem.length_toList .., fun c hc => ?_⟩
    obtain ⟨i, hi, rfl⟩ := List.mem_map.mp hc
    rw [Mem.write_out (by omega), Mem.write_out (by omega)]
    exact hclear _ (by omega)
  rw [Mem.toList_append, Mem.toList_append, hhead, hvalue, hpad, Nat.add_sub_cancel_left]

/-- One more attribute. -/
theorem Laid.push {b₀ b : RecordBuilder} {blocks : List (List UInt8)} {hdr : Mem} {v : List UInt8} {h len : Nat}
    (hb : Laid b₀ b blocks) (hlen : h + v.length ≤ len) (hroom : b.attrCursor + len + 8 ≤ 1024)
    (hblock : Block (hdr.toList 0 h ++ v ++ List.replicate (len - (h + v.length)) 0)) :
    Laid b₀ { b with
      buf := (b.buf.write b.attrCursor h hdr).write (b.attrCursor + h) v.length (Mem.ofList v)
      attrCursor := (b.attrCursor + len) % 65536
      nextAttrId := (b.nextAttrId + 1) % 65536 }
      (blocks ++ [hdr.toList 0 h ++ v ++ List.replicate (len - (h + v.length)) 0]) := by
  have hsize : (hdr.toList 0 h ++ v ++ List.replicate (len - (h + v.length)) 0).length = len := by
    simp
    omega
  have hmod : (b.attrCursor + len) % 65536 = b.attrCursor + len := Nat.mod_eq_of_lt (by omega)
  have hstart := hb.cursor
  have hcount := hb.count_le
  have hflat : (blocks ++ [hdr.toList 0 h ++ v ++ List.replicate (len - (h + v.length)) 0]).flatten =
      blocks.flatten ++ (hdr.toList 0 h ++ v ++ List.replicate (len - (h + v.length)) 0) := by
    simp
  refine ⟨?_, ?_, ?_, ?_, ?_, ?_, ?_, ?_, ?_⟩
  · rw [hb.frame]
  · dsimp only []
    rw [hmod, hflat, List.length_append, hsize]
    omega
  · dsimp only []
    rw [hb.id, List.length_append, List.length_singleton]
    omega
  · have := hb.whole
    have := hblock.whole
    rw [hsize] at this
    dsimp only []
    omega
  · dsimp only []
    omega
  · intro i hi
    dsimp only []
    rw [Mem.write_out (by omega), Mem.write_out (by omega)]
    exact hb.kept i hi
  · rw [hflat, List.length_append, Mem.toList_append, ← hstart, hsize]
    dsimp only []
    rw [toList_placed hb.clear hlen]
    congr 1
    refine Eq.trans (Mem.toList_congr fun i hi => ?_) hb.bytes
    rw [Mem.write_out (by omega), Mem.write_out (by omega)]
  · intro i hi
    dsimp only [] at hi ⊢
    rw [Mem.write_out (by omega), Mem.write_out (by omega)]
    exact hb.clear i (by omega)
  · intro t ht
    rcases List.mem_append.mp ht with ht | ht
    · exact hb.block t ht
    · rw [List.mem_singleton.mp ht]
      exact hblock

/-- The header fields of an attribute are those of its bytes. -/
theorem rd32_ofList_toList {hdr : Mem} {h o : Nat} {t : List UInt8} (ho : o + 4 ≤ h) :
    (Mem.ofList (hdr.toList 0 h ++ t)).rd32 o = hdr.rd32 o := by
  apply Mem.rd32_congr
  intro i hi
  have hin : o + i < (hdr.toList 0 h).length := by
    rw [Mem.length_toList]
    omega
  rw [Mem.ofList, List.getD_eq_getElem?_getD, List.getElem?_append_left hin, List.getElem?_eq_getElem hin,
    Mem.getElem_toList, Nat.zero_add, Option.getD_some]

theorem attrEnd_ne {type : UInt32} (h : type ≠ 0xFFFFFFFF) : type.toNat ≠ attrEnd := fun heq =>
  h (UInt32.toNat_inj.mp heq)

/-- A header with a proper type and a length makes a block. -/
theorem block_placed {hdr : Mem} {v : List UInt8} {h type raw : Nat} (hraw : raw = h + v.length) (hh : 24 ≤ h)
    (hsmall : raw ≤ 2048) (htype : hdr.rd32 0 = type) (hne : type ≠ attrEnd) (hlen : hdr.rd32 4 = attrLength raw) :
    Block (hdr.toList 0 h ++ v ++ List.replicate (attrLength raw - (h + v.length)) 0) := by
  have hround := attrLength_eq hsmall
  have hsize : (hdr.toList 0 h ++ v ++ List.replicate (attrLength raw - (h + v.length)) 0).length = attrLength raw := by
    simp
    omega
  refine ⟨by rw [hsize]; omega, by rw [hsize]; omega, ?_, ?_⟩
  · rw [List.append_assoc, rd32_ofList_toList (by omega), htype]
    exact hne
  · rw [hsize, List.append_assoc, rd32_ofList_toList (by omega), hlen]

theorem residentAttr_type (type : UInt32) (len id n : Nat) : (residentAttr type len id n).rd32 0 = type.toNat := by
  unfold residentAttr Mem.wr32 Mem.wr16
  simp (disch := omega) only [Mem.rd32_write_out, Mem.rd32_write_in, Nat.sub_self, Mem.rd32_le]
  exact Nat.mod_eq_of_lt type.toNat_lt

theorem residentAttr_length (type : UInt32) {len : Nat} (id n : Nat) (h : len < 2 ^ 32) :
    (residentAttr type len id n).rd32 4 = len := by
  unfold residentAttr Mem.wr32 Mem.wr16
  simp (disch := omega) only [Mem.rd32_write_out, Mem.rd32_write_in, Nat.sub_self, Mem.rd32_le]
  exact Nat.mod_eq_of_lt h

theorem nonresidentAttr_type (len id : Nat) (c a d i : UInt64) : (nonresidentAttr len id c a d i).rd32 0 = attrData := by
  unfold nonresidentAttr Mem.wr64 Mem.wr32 Mem.wr16 Mem.wr8
  simp (disch := omega) only [Mem.rd32_write_out, Mem.rd32_write_in, Nat.sub_self, Mem.rd32_le]
  rfl

theorem nonresidentAttr_length {len : Nat} (id : Nat) (c a d i : UInt64) (h : len < 2 ^ 32) :
    (nonresidentAttr len id c a d i).rd32 4 = len := by
  unfold nonresidentAttr Mem.wr64 Mem.wr32 Mem.wr16 Mem.wr8
  simp (disch := omega) only [Mem.rd32_write_out, Mem.rd32_write_in, Nat.sub_self, Mem.rd32_le]
  exact Nat.mod_eq_of_lt h

/-- The room that an attribute needs. -/
theorem room_of_check {cursor len : Nat} (hcursor : cursor ≤ 1024) (hlen : len ≤ 4096)
    (h : ¬ (cursor + len + 8) % 2 ^ 32 > 1024) : cursor + len + 8 ≤ 1024 := by
  omega

theorem Laid.addAttr {b₀ b b' : RecordBuilder} {blocks : List (List UInt8)} {a : Attr} (hb : Laid b₀ b blocks)
    (hbytes : b₀.recBytes = 1024) (ha : a.Proper) (h : Ntfs.addAttr b a = some b') :
    Laid b₀ b' (blocks ++ [a.image blocks.length]) := by
  have hrec : b.recBytes = 1024 := by rw [hb.frame]; exact hbytes
  have hid := hb.id
  have hroom := hb.room
  cases a with
  | resident type value =>
      obtain ⟨htype, hvalue⟩ := ha
      have hround := @attrLength_eq (24 + value.length) (by omega)
      rw [Ntfs.addAttr, ntfsRecordAddResidentAttr] at h
      by_cases hfull : (b.attrCursor + attrLength (24 + value.length) + 8) % 2 ^ 32 > b.recBytes
      · rw [if_pos hfull] at h
        cases h
      · rw [if_neg hfull] at h
        rw [hrec] at hfull
        cases Option.some.inj h
        rw [hid, Attr.image]
        have hfit := room_of_check (by omega) (by omega) hfull
        have := @Laid.push b₀ b blocks (residentAttr type (attrLength (24 + value.length)) blocks.length value.length)
          value 24 (attrLength (24 + value.length)) hb (by omega) hfit (block_placed rfl (by omega) (by omega)
            (residentAttr_type ..) (attrEnd_ne htype) (residentAttr_length _ _ _ (by omega)))
        rwa [hid] at this
  | nonresidentData startLcn clusters allocated data initialized =>
      rw [Ntfs.addAttr, ntfsRecordAddNonresidentData] at h
      cases hrun : ntfsEncodeSingleRun 24 clusters startLcn.toInt64 with
      | none =>
          rw [hrun] at h
          cases h
      | some run =>
          rw [hrun] at h
          dsimp only [] at h
          have hshort := length_run_le hrun
          have hround := @attrLength_eq (64 + run.length) (by omega)
          by_cases hfull : (b.attrCursor + attrLength (64 + run.length) + 8) % 2 ^ 32 > b.recBytes
          · rw [if_pos hfull] at h
            cases h
          · rw [if_neg hfull] at h
            rw [hrec] at hfull
            cases Option.some.inj h
            rw [hid, Attr.image, hrun]
            have hfit := room_of_check (by omega) (by omega) hfull
            have := @Laid.push b₀ b blocks (nonresidentAttr (attrLength (64 + run.length)) blocks.length clusters
              allocated data initialized) run 64 (attrLength (64 + run.length)) hb (by omega) hfit (block_placed rfl
                (by omega) (by omega) (nonresidentAttr_type ..) (by decide) (nonresidentAttr_length _ _ _ _ _
                  (by omega)))
            rwa [hid] at this

/-- All attributes, with numbers from the first free one on. -/
theorem Laid.addAttrs {b₀ : RecordBuilder} (hbytes : b₀.recBytes = 1024) (l : List Attr) :
    ∀ {b b' : RecordBuilder} {blocks : List (List UInt8)}, Laid b₀ b blocks → (∀ a ∈ l, a.Proper) →
      Ntfs.addAttrs b l = some b' → Laid b₀ b' (blocks ++ images blocks.length l) := by
  induction l with
  | nil =>
      intro b b' blocks hb _ h
      cases Option.some.inj h
      simpa [images] using hb
  | cons a l ih =>
      intro b b' blocks hb hl h
      rw [Ntfs.addAttrs] at h
      obtain ⟨c, hc, hrest⟩ := Option.bind_eq_some_iff.mp h
      have hnext := hb.addAttr hbytes (hl a (by simp)) hc
      have := ih hnext (fun x hx => hl x (by simp [hx])) hrest
      simpa [images, List.append_assoc] using this

/-! ## The walk -/

/-- A walk over attributes in a row finds them all and stops at the end marker behind them. -/
theorem parseFrom_row {p : Mem} {used : Nat} (blocks : List (List UInt8)) : ∀ {off fuel : Nat}, (∀ t ∈ blocks, Block t) →
    blocks.length < fuel → off + blocks.flatten.length + 4 ≤ used →
    p.toList off blocks.flatten.length = blocks.flatten → p.rd32 (off + blocks.flatten.length) = attrEnd →
    parseFrom p used fuel off = some (blocks, off + blocks.flatten.length) := by
  induction blocks with
  | nil =>
      intro off fuel _ hfuel hused _ hend
      obtain ⟨n, rfl⟩ : ∃ n, fuel = n + 1 := ⟨fuel - 1, by simp at hfuel; omega⟩
      simp only [List.flatten_nil, List.length_nil, Nat.add_zero] at hused hend ⊢
      rw [parseFrom, if_neg (by omega), if_pos hend]
  | cons t l ih =>
      intro off fuel hblocks hfuel hused hbytes hend
      obtain ⟨n, rfl⟩ : ∃ n, fuel = n + 1 := ⟨fuel - 1, by simp at hfuel; omega⟩
      have ht := hblocks t (by simp)
      rw [List.flatten_cons, List.length_append] at hused hbytes hend ⊢
      rw [Mem.toList_append] at hbytes
      obtain ⟨hfirst, hrest⟩ := List.append_inj hbytes (by simp)
      have hbyte (i : Nat) (hi : i < t.length) : p (off + i) = Mem.ofList t (0 + i) := by
        apply Mem.toList_inj _ hi
        rw [hfirst, Mem.toList_ofList]
      have hheader := ht.header
      have htype : p.rd32 off = (Mem.ofList t).rd32 0 := by
        apply Mem.rd32_congr
        exact fun i hi => hbyte i (by omega)
      have hlen : p.rd32 (off + 4) = t.length := by
        rw [← ht.length]
        apply Mem.rd32_congr
        intro i hi
        rw [Nat.add_assoc, hbyte _ (by omega), Nat.zero_add]
      have hwhole := ht.whole
      rw [parseFrom, if_neg (by omega), if_neg (by rw [htype]; exact ht.type)]
      dsimp only []
      rw [hlen, if_neg (by omega), ih (fun u hu => hblocks u (by simp [hu])) (by simpa using hfuel) (by omega) hrest
        (by rw [Nat.add_assoc]; exact hend), hfirst, Option.map_some, Nat.add_assoc]

/-! ## The update sequence -/

section Substitution

variable {usaOfs s usn : Nat}

/-- The array of the update sequence, with places for `n` sectors. -/
def InArray (usaOfs n x : Nat) : Prop := usaOfs ≤ x ∧ x < usaOfs + 2 * (n + 1)

theorem tail_step {s i j : Nat} (h : i < j) : i * s + s ≤ j * s := by
  have := Nat.mul_le_mul_right s h
  rw [Nat.succ_mul] at this
  exact this

/-- What the substitution does to the sectors from `i` on: it keeps the ends of the sectors in the array, puts the update
sequence number in their place, and touches nothing else. -/
structure Substituted (usaOfs s usn n i : Nat) (p q : Mem) : Prop where
  out : ∀ x, (x < usaOfs + 2 * i ∨ usaOfs + 2 * (i + n) ≤ x) →
    (∀ j, i ≤ j → j < i + n → x < j * s - 2 ∨ j * s ≤ x) → q x = p x
  tail : ∀ j, i ≤ j → j < i + n → q.rd16 (j * s - 2) = usn % 65536
  array : ∀ j k, i ≤ j → j < i + n → k < 2 → q (usaOfs + 2 * j + k) = p (j * s - 2 + k)

theorem substituted (n : Nat) : ∀ {i : Nat} {p : Mem}, 1 ≤ i → usaOfs + 2 * (i + n) + 2 ≤ i * s → 2 ≤ s →
    Substituted usaOfs s usn n i p (substitute usaOfs s usn n i p) := by
  induction n with
  | zero =>
      intro i p _ _ _
      exact ⟨fun _ _ _ => rfl, fun j h₁ h₂ => by omega, fun j k h₁ h₂ => by omega⟩
  | succ n ih =>
      intro i p hi harr hs
      have hnext : i * s + s = (i + 1) * s := by rw [Nat.succ_mul]
      have h := @ih (i + 1) ((p.write (usaOfs + 2 * i) 2 (p.slice (i * s - 2) 2)).wr16 (i * s - 2) usn) (by omega)
        (by omega) hs
      -- one sector leaves alone what is neither its place in the array nor its end
      have hone (x : Nat) (harray : x < usaOfs + 2 * i ∨ usaOfs + 2 * i + 2 ≤ x) (htail : x < i * s - 2 ∨ i * s ≤ x) :
          ((p.write (usaOfs + 2 * i) 2 (p.slice (i * s - 2) 2)).wr16 (i * s - 2) usn) x = p x := by
        rw [Mem.wr16, Mem.write_out (by omega), Mem.write_out (by omega)]
      rw [substitute]
      refine ⟨fun x harray htail => ?_, fun j hj hjn => ?_, fun j k hj hjn hk => ?_⟩
      · rw [h.out x (by omega) (fun j h₁ h₂ => htail j (by omega) (by omega))]
        exact hone x (by omega) (htail i (by omega) (by omega))
      · rcases Nat.eq_or_lt_of_le hj with rfl | hlt
        · have hsame : (substitute usaOfs s usn n (i + 1) ((p.write (usaOfs + 2 * i) 2 (p.slice (i * s - 2) 2)).wr16
              (i * s - 2) usn)).rd16 (i * s - 2) = ((p.write (usaOfs + 2 * i) 2 (p.slice (i * s - 2) 2)).wr16
              (i * s - 2) usn).rd16 (i * s - 2) := by
            apply Mem.rd16_congr
            intro k hk
            refine h.out _ (by omega) fun j' h₁ _ => ?_
            have := @tail_step s i j' (by omega)
            omega
          rw [hsame, Mem.rd16_wr16_self]
        · exact h.tail j (by omega) (by omega)
      · rcases Nat.eq_or_lt_of_le hj with rfl | hlt
        · have hkeep : ∀ j', i + 1 ≤ j' → j' < i + 1 + n → usaOfs + 2 * i + k < j' * s - 2 ∨ j' * s ≤ usaOfs + 2 * i + k := by
            intro j' h₁ _
            have := @tail_step s i j' (by omega)
            omega
          rw [h.out _ (by omega) hkeep, Mem.wr16, Mem.write_out (by omega), Mem.write_in (by omega) (by omega),
            Mem.slice_in (by omega)]
          congr 1
          omega
        · have := @tail_step s i j hlt
          rw [h.array j k (by omega) (by omega) hk]
          exact hone _ (by omega) (by omega)

/-- What the reader does to the sectors from `i` on. -/
structure Restored (usaOfs s n i : Nat) (raw p q : Mem) : Prop where
  out : ∀ x, (∀ j, i ≤ j → j < i + n → x < j * s - 2 ∨ j * s ≤ x) → q x = p x
  tail : ∀ j k, i ≤ j → j < i + n → k < 2 → q (j * s - 2 + k) = raw (usaOfs + 2 * j + k)

theorem restored {raw : Mem} (hs : 2 ≤ s) (n : Nat) : ∀ {i : Nat} {p : Mem}, 1 ≤ i →
    (∀ j, i ≤ j → j < i + n → raw.rd16 (j * s - 2) = raw.rd16 usaOfs) →
    ∃ q, restoreTails usaOfs s raw n i p = some q ∧ Restored usaOfs s n i raw p q := by
  induction n with
  | zero =>
      intro i p _ _
      exact ⟨p, rfl, fun _ _ => rfl, fun j k h₁ h₂ => by omega⟩
  | succ n ih =>
      intro i p hi htails
      obtain ⟨q, hq, h⟩ := @ih (i + 1) (p.write (i * s - 2) 2 (raw.slice (usaOfs + 2 * i) 2)) (by omega)
        (fun j h₁ h₂ => htails j (by omega) (by omega))
      have hfirst := Nat.le_mul_of_pos_left s hi
      refine ⟨q, ?_, fun x hx => ?_, fun j k hj hjn hk => ?_⟩
      · rw [restoreTails, if_neg (not_not.mpr (htails i (by omega) (by omega)))]
        exact hq
      · have := hx i (by omega) (by omega)
        rw [h.out x (fun j h₁ h₂ => hx j (by omega) (by omega)), Mem.write_out (by omega)]
      · rcases Nat.eq_or_lt_of_le hj with rfl | hlt
        · have hkeep : ∀ j', i + 1 ≤ j' → j' < i + 1 + n → i * s - 2 + k < j' * s - 2 ∨ j' * s ≤ i * s - 2 + k := by
            intro j' h₁ _
            have := @tail_step s i j' (by omega)
            omega
          rw [h.out _ hkeep, Mem.write_in (by omega) (by omega), Nat.add_sub_cancel_left, Mem.slice_in hk]
        · exact h.tail j k (by omega) (by omega) hk

end Substitution

/-! ## Whole records -/

/-- A record without attributes, for sectors of `s` bytes. -/
structure Opened (s : Nat) (b : RecordBuilder) : Prop where
  sector : b.sectorBytes = s
  divides : s ∣ 1024
  bytes : b.recBytes = 1024
  usaOfs : b.usaOfs = 0x30
  usaCount : b.usaCount = 1 + 1024 / s
  array : 0x30 + b.usaCount * 2 ≤ b.attrCursor
  whole : b.attrCursor % 8 = 0
  room : b.attrCursor ≤ 72
  magic : b.buf.toList 0 4 = magicFile
  usaOfsField : b.buf.rd16 4 = 0x30
  usaCountField : b.buf.rd16 6 = b.usaCount
  attrOfs : b.buf.rd16 20 = b.attrCursor
  clear : ∀ i, b.attrCursor ≤ i → b.buf i = 0

/-- The header that `ntfs_record_init` writes. -/
theorem header_fields (usaCount cursor flags recNo : Nat) (hcount : usaCount < 65536) (hcursor : cursor < 65536) :
    let p := (((((((Mem.zero.write 0 4 (Mem.ofList magicFile)).wr16 4 0x30).wr16 6 usaCount).wr16 16 1).wr16 18 1).wr16 20
      cursor).wr16 22 flags).wr32 28 1024 |>.wr32 44 recNo
    p.toList 0 4 = magicFile ∧ p.rd16 4 = 0x30 ∧ p.rd16 6 = usaCount ∧ p.rd16 20 = cursor ∧ ∀ i, 48 ≤ i → p i = 0 := by
  refine ⟨?_, ?_, ?_, ?_, fun i hi => ?_⟩
  · refine Eq.trans (Mem.toList_congr fun i hi => ?_) (Mem.toList_ofList magicFile)
    unfold Mem.wr16 Mem.wr32
    simp (disch := omega) only [Mem.write_out, Mem.write_in, Nat.zero_add, Nat.sub_zero]
  · unfold Mem.wr16 Mem.wr32
    simp (disch := omega) only [Mem.rd16_write_out, Mem.rd16_write_in, Nat.sub_self, Mem.rd16_le]
  · unfold Mem.wr16 Mem.wr32
    simp (disch := omega) only [Mem.rd16_write_out, Mem.rd16_write_in, Nat.sub_self, Mem.rd16_le]
    exact Nat.mod_eq_of_lt hcount
  · unfold Mem.wr16 Mem.wr32
    simp (disch := omega) only [Mem.rd16_write_out, Mem.rd16_write_in, Nat.sub_self, Mem.rd16_le]
    exact Nat.mod_eq_of_lt hcursor
  · unfold Mem.wr16 Mem.wr32
    simp (disch := omega) only [Mem.write_out, Mem.zero_apply]

theorem opened {L : Layout} {recNo : Nat} {directory : Bool} {b : RecordBuilder} (hs : 128 ≤ L.bps)
    (h : ntfsRecordInit L recNo directory = some b) : Opened L.bps b := by
  unfold ntfsRecordInit at h
  by_cases hbad : L.bytesPerMftrec ≠ 1024 ∨ L.bps = 0 ∨ 1024 % L.bps ≠ 0
  · rw [if_pos hbad] at h
    cases h
  · rw [if_neg hbad] at h
    have hdvd : L.bps ∣ 1024 := Nat.dvd_of_mod_eq_zero (by omega)
    have hsectors : 1024 / L.bps ≤ 8 := by
      apply Nat.div_le_of_le_mul
      omega
    have hcount : (1 + 1024 / L.bps) % 65536 = 1 + 1024 / L.bps := Nat.mod_eq_of_lt (by omega)
    have halign : align8U16 ((0x30 + (1 + 1024 / L.bps) * 2) % 65536) = (0x30 + (1 + 1024 / L.bps) * 2 + 7) / 8 * 8 := by
      unfold align8U16
      omega
    dsimp only [] at h
    rw [hcount, halign] at h
    cases Option.some.inj h
    obtain ⟨hmagic, husa, hn, hofs, hclear⟩ := header_fields (1 + 1024 / L.bps)
      ((0x30 + (1 + 1024 / L.bps) * 2 + 7) / 8 * 8) (if directory then 3 else 1) recNo (by omega) (by omega)
    exact ⟨rfl, hdvd, rfl, rfl, rfl, by dsimp only []; omega, by dsimp only []; omega, by dsimp only []; omega, hmagic,
      husa, hn, hofs, fun i hi => hclear i (by dsimp only [] at hi; omega)⟩

theorem Opened.laid {s : Nat} {b : RecordBuilder} (h : Opened s b) (hid : b.nextAttrId = 0) : Laid b b [] := by
  have := h.room
  exact ⟨rfl, by simp, hid, h.whole, by omega, fun _ _ => rfl, rfl, h.clear, fun t ht => absurd ht List.not_mem_nil⟩

theorem nextAttrId_init {L : Layout} {recNo : Nat} {directory : Bool} {b : RecordBuilder}
    (h : ntfsRecordInit L recNo directory = some b) : b.nextAttrId = 0 := by
  unfold ntfsRecordInit at h
  by_cases hbad : L.bytesPerMftrec ≠ 1024 ∨ L.bps = 0 ∨ 1024 % L.bps ≠ 0
  · rw [if_pos hbad] at h
    cases h
  · rw [if_neg hbad] at h
    cases Option.some.inj h
    rfl

/-- A record with attributes and an end marker, for sectors of `s` bytes. -/
structure Closed (s : Nat) (c : RecordBuilder) (start : Nat) (blocks : List (List UInt8)) : Prop where
  sector : c.sectorBytes = s
  divides : s ∣ 1024
  usaOfs : c.usaOfs = 0x30
  usaCount : c.usaCount = 1 + 1024 / s
  array : 0x30 + c.usaCount * 2 ≤ start
  magic : c.buf.toList 0 4 = magicFile
  usaOfsField : c.buf.rd16 4 = 0x30
  usaCountField : c.buf.rd16 6 = c.usaCount
  attrOfs : c.buf.rd16 20 = start
  bytes : c.buf.toList start blocks.flatten.length = blocks.flatten
  stop : c.buf.rd32 (start + blocks.flatten.length) = attrEnd
  used : c.buf.rd32 24 = start + blocks.flatten.length + 8
  room : start + blocks.flatten.length + 8 ≤ 1024
  block : ∀ t ∈ blocks, Block t

theorem Laid.closed {s : Nat} {b₀ b c : RecordBuilder} {blocks : List (List UInt8)} (h₀ : Opened s b₀)
    (hb : Laid b₀ b blocks) (h : closeRecord b = some c) : Closed s c b₀.attrCursor blocks := by
  unfold closeRecord at h
  by_cases hfull : (b.attrCursor + 4) % 2 ^ 32 > b.recBytes
  · rw [if_pos hfull] at h
    cases h
  · rw [if_neg hfull] at h
    have hcursor := hb.cursor
    have hwhole := hb.whole
    have hroom := hb.room
    have harray := h₀.array
    have hsame : b.sectorBytes = b₀.sectorBytes ∧ b.usaOfs = b₀.usaOfs ∧ b.usaCount = b₀.usaCount := by
      rw [hb.frame]
      exact ⟨rfl, rfl, rfl⟩
    have halign : align8U16 ((b.attrCursor + 4) % 65536) = b.attrCursor + 8 := by
      unfold align8U16
      omega
    dsimp only [] at h
    rw [halign] at h
    -- the header in front of the sizes, and the attributes
    have hkeep (i : Nat) (hi : i < b.attrCursor) (hsize : i < 24 ∨ 42 ≤ i) :
        (((b.buf.wr32 b.attrCursor attrEnd).wr32 24 (b.attrCursor + 8)).wr16 40 b.nextAttrId) i = b.buf i := by
      rw [Mem.wr16, Mem.write_out (by omega), Mem.wr32, Mem.write_out (by omega), Mem.wr32, Mem.write_out (by omega)]
    have hhead (i : Nat) (hi : i < 24) :
        (((b.buf.wr32 b.attrCursor attrEnd).wr32 24 (b.attrCursor + 8)).wr16 40 b.nextAttrId) i = b₀.buf i := by
      rw [hkeep i (by omega) (Or.inl hi)]
      exact hb.kept i (by omega)
    cases Option.some.inj h
    refine ⟨hsame.1.trans h₀.sector, h₀.divides, hsame.2.1.trans h₀.usaOfs, hsame.2.2.trans h₀.usaCount,
      by rw [show _ = b₀.usaCount from hsame.2.2]; exact harray, ?_, ?_, ?_, ?_, ?_, ?_, ?_, by omega, hb.block⟩
    · refine Eq.trans (Mem.toList_congr fun i hi => ?_) h₀.magic
      rw [Nat.zero_add]
      exact hhead i (by omega)
    · refine Eq.trans (Mem.rd16_congr fun i hi => ?_) h₀.usaOfsField
      exact hhead _ (by omega)
    · refine Eq.trans (Mem.rd16_congr fun i hi => ?_) (h₀.usaCountField.trans hsame.2.2.symm)
      exact hhead _ (by omega)
    · refine Eq.trans (Mem.rd16_congr fun i hi => ?_) h₀.attrOfs
      exact hhead _ (by omega)
    · refine Eq.trans (Mem.toList_congr fun i hi => ?_) hb.bytes
      exact hkeep _ (by omega) (Or.inr (by omega))
    · dsimp only []
      unfold Mem.wr32 Mem.wr16
      simp (disch := omega) only [← hcursor, Mem.rd32_write_out, Mem.rd32_write_in, Nat.sub_self, Mem.rd32_le]
      rfl
    · dsimp only []
      unfold Mem.wr32 Mem.wr16
      simp (disch := omega) only [← hcursor, Mem.rd32_write_out, Mem.rd32_write_in, Nat.sub_self, Mem.rd32_le]
      omega

theorem usnOf_bounds (recNo : Nat) : 0 < usnOf recNo ∧ usnOf recNo < 65536 := by
  have hle : 0xA000 ≤ usnOf recNo := Nat.left_le_or
  have hlt : usnOf recNo < 2 ^ 16 := Nat.or_lt_two_pow (by decide) (by omega)
  exact ⟨by omega, hlt⟩

/-- The reader finds the record as it was before the substitution, but for the array. -/
theorem Closed.restore {s start : Nat} {c : RecordBuilder} {blocks : List (List UInt8)} (h : Closed s c start blocks)
    (hs : 128 ≤ s) : ∃ q, restoreUsa s (substitute c.usaOfs c.sectorBytes (usnOf c.recNo) (c.usaCount - 1) 1
      (c.buf.wr16 c.usaOfs (usnOf c.recNo))) = some q ∧
      ∀ x, ¬ InArray c.usaOfs (1024 / s) x → q x = c.buf x := by
  obtain ⟨n, hn⟩ := h.divides
  have hpos : 0 < s := by omega
  have hdiv : 1024 / s = n := by rw [hn, Nat.mul_div_cancel_left _ hpos]
  have hn1 : 1 ≤ n := Nat.pos_of_ne_zero fun h0 => by rw [h0] at hn; omega
  have hn8 : n ≤ 8 := by
    have := Nat.mul_le_mul_right n hs
    omega
  have husn := usnOf_bounds c.recNo
  rw [h.sector, h.usaCount, h.usaOfs, hdiv, Nat.add_sub_cancel_left]
  have hsub := @substituted 0x30 s (usnOf c.recNo) n 1 (c.buf.wr16 0x30 (usnOf c.recNo)) (by omega) (by omega) (by omega)
  generalize substitute 0x30 s (usnOf c.recNo) n 1 (c.buf.wr16 0x30 (usnOf c.recNo)) = raw at hsub ⊢
  -- what lies in front of the array is as it was, and the array starts with the update sequence number
  have hfirst (j : Nat) (hj : 1 ≤ j) : s ≤ j * s := Nat.le_mul_of_pos_left s hj
  have hfront (x : Nat) (hx : x < 0x30) : raw x = c.buf x := by
    rw [hsub.out x (by omega) (fun j h₁ _ => by have := hfirst j h₁; omega), Mem.wr16, Mem.write_out (by omega)]
  have hnumber : raw.rd16 0x30 = usnOf c.recNo := by
    have hsame : raw.rd16 0x30 = (c.buf.wr16 0x30 (usnOf c.recNo)).rd16 0x30 := by
      apply Mem.rd16_congr
      intro k hk
      exact hsub.out _ (by omega) (fun j h₁ _ => by have := hfirst j h₁; omega)
    rw [hsame, Mem.rd16_wr16_self, Nat.mod_eq_of_lt husn.2]
  have hmagic : raw.toList 0 4 = magicFile := by
    refine Eq.trans (Mem.toList_congr fun i hi => ?_) h.magic
    exact hfront _ (by omega)
  have hofs : raw.rd16 4 = 0x30 := by
    refine Eq.trans (Mem.rd16_congr fun i hi => ?_) h.usaOfsField
    exact hfront _ (by omega)
  have hcount : raw.rd16 6 = 1 + n := by
    refine Eq.trans (Mem.rd16_congr fun i hi => ?_) (h.usaCountField.trans (by rw [h.usaCount, hdiv]))
    exact hfront _ (by omega)
  have htails : ∀ j, 1 ≤ j → j < 1 + n → raw.rd16 (j * s - 2) = raw.rd16 0x30 := by
    intro j h₁ h₂
    rw [hsub.tail j h₁ h₂, hnumber, Nat.mod_eq_of_lt husn.2]
  obtain ⟨q, hq, hres⟩ := @restored 0x30 s raw (by omega) n 1 raw (by omega) htails
  refine ⟨q, ?_, fun x hx => ?_⟩
  · unfold restoreUsa
    dsimp only []
    rw [hofs, hcount, hmagic, hnumber, Nat.add_sub_cancel_left, Nat.mul_comm n s, ← hn, if_neg]
    · exact hq
    · simp only [not_or]
      exact ⟨not_not.mpr rfl, by omega, by omega, by omega, not_not.mpr rfl, by omega⟩
  · have hout : x < 0x30 ∨ 0x30 + 2 * (n + 1) ≤ x := by
      simp only [InArray] at hx
      omega
    by_cases hend : ∃ j, 1 ≤ j ∧ j < 1 + n ∧ j * s - 2 ≤ x ∧ x < j * s
    · -- the end of a sector
      obtain ⟨j, h₁, h₂, hlow, hhigh⟩ := hend
      have := hfirst j h₁
      obtain ⟨k, rfl⟩ : ∃ k, x = j * s - 2 + k := ⟨x - (j * s - 2), by omega⟩
      rw [hres.tail j k h₁ h₂ (by omega), hsub.array j k h₁ h₂ (by omega), Mem.wr16, Mem.write_out (by omega)]
    · have hno : ∀ j, 1 ≤ j → j < 1 + n → x < j * s - 2 ∨ j * s ≤ x := by
        intro j h₁ h₂
        by_contra hc
        exact hend ⟨j, h₁, h₂, by omega, by omega⟩
      rw [hres.out x hno, hsub.out x (by omega) hno, Mem.wr16, Mem.write_out (by omega)]

/-- A record is read back as it was built: the update sequence is undone, and the walk finds the attributes. -/
theorem ntfsRecordFinish_restored {L : Layout} {recNo : Nat} {directory : Bool} {attrs : List Attr}
    {b₀ b d : RecordBuilder} (hs : 128 ≤ L.bps) (hattrs : ∀ a ∈ attrs, a.Proper)
    (hinit : ntfsRecordInit L recNo directory = some b₀) (hadd : addAttrs b₀ attrs = some b)
    (hfinish : ntfsRecordFinish b = some d) :
    ∃ c q, closeRecord b = some c ∧ restoreUsa L.bps d.buf = some q ∧
      (∀ i < 1024, ¬ InArray c.usaOfs (1024 / L.bps) i → q i = c.buf i) ∧
      ∃ stop, parseAttributes q = some (images 0 attrs, stop) ∧ stop + 4 ≤ q.rd32 24 ∧ q.rd32 24 ≤ 1024 := by
  have hopened := opened hs hinit
  have hlaid := Laid.addAttrs hopened.bytes attrs (hopened.laid (nextAttrId_init hinit)) hattrs hadd
  rw [ntfsRecordFinish] at hfinish
  obtain ⟨c, hc, rfl⟩ := Option.map_eq_some_iff.mp hfinish
  have hclosed := hlaid.closed hopened hc
  rw [List.nil_append, List.length_nil] at hlaid hclosed
  obtain ⟨q, hq, hsame⟩ := hclosed.restore hs
  have harray := hclosed.array
  rw [hclosed.usaCount] at harray
  have hroom := hclosed.room
  have hout (i : Nat) (hi : i < 0x30 ∨ b₀.attrCursor ≤ i) : q i = c.buf i := by
    apply hsame
    rw [hclosed.usaOfs, InArray]
    omega
  have hused : q.rd32 24 = b₀.attrCursor + (images 0 attrs).flatten.length + 8 := by
    refine Eq.trans (Mem.rd32_congr fun i hi => ?_) hclosed.used
    exact hout _ (by omega)
  have hofs : q.rd16 20 = b₀.attrCursor := by
    refine Eq.trans (Mem.rd16_congr fun i hi => ?_) hclosed.attrOfs
    exact hout _ (by omega)
  have hbytes : q.toList b₀.attrCursor (images 0 attrs).flatten.length = (images 0 attrs).flatten := by
    refine Eq.trans (Mem.toList_congr fun i hi => ?_) hclosed.bytes
    exact hout _ (by omega)
  have hstop : q.rd32 (b₀.attrCursor + (images 0 attrs).flatten.length) = attrEnd := by
    refine Eq.trans (Mem.rd32_congr fun i hi => ?_) hclosed.stop
    exact hout _ (by omega)
  refine ⟨c, q, hc, hq, fun i _ hi => hsame i hi, b₀.attrCursor + (images 0 attrs).flatten.length, ?_, by omega,
    by omega⟩
  rw [parseAttributes, hused, hofs]
  have hcount := length_le_flatten (images 0 attrs) hclosed.block
  exact parseFrom_row _ hclosed.block (by omega) (by omega) hbytes hstop

/-- A volume with sectors of `bps` bytes. -/
def layoutWith (bps : Nat) : Layout where
  bps := bps
  spc := 8
  totalSectors := 20480
  lbaOff := 0
  mftLcn := 4
  mftmirrLcn := 8
  bytesPerCluster := bps * 8
  bytesPerMftrec := 1024

theorem ntfsRecordFinish_restored_volume : ∃ b₀ b d, ntfsRecordInit (layoutWith 512) 3 false = some b₀ ∧
    addAttrs b₀ [.resident 0x60 [0x47, 0], .nonresidentData 4 4 16384 16384 16384] = some b ∧
    ntfsRecordFinish b = some d ∧ ∃ c q, closeRecord b = some c ∧ restoreUsa 512 d.buf = some q ∧
      (∀ i < 1024, ¬ InArray c.usaOfs (1024 / 512) i → q i = c.buf i) ∧
      ∃ stop, parseAttributes q = some (images 0 [.resident 0x60 [0x47, 0],
        .nonresidentData 4 4 16384 16384 16384], stop) ∧ stop + 4 ≤ q.rd32 24 ∧ q.rd32 24 ≤ 1024 := by
  refine ⟨_, _, _, rfl, rfl, rfl, ntfsRecordFinish_restored (L := layoutWith 512) ?_ ?_ rfl rfl rfl⟩
  · decide
  · intro a ha
    simp only [List.mem_cons, List.not_mem_nil, or_false] at ha
    rcases ha with rfl | rfl
    · exact ⟨by decide, by decide⟩
    · trivial

/-- A record with attributes, as it is written. -/
def builtRecord (bps : Nat) (attrs : List Attr) : Option Mem :=
  ((ntfsRecordInit (layoutWith bps) 0 false).bind fun b => (addAttrs b attrs).bind ntfsRecordFinish).map RecordBuilder.buf

/-- With sectors of 64 bytes the array reaches over the end of the first one, and the reader rejects the record. With
sectors of 512 bytes an attribute of the type of the end marker ends the walk, and one of nearly 4 GiB takes no room. -/
theorem records_misread : ((builtRecord 64 []).map fun raw => (restoreUsa 64 raw).isSome) = some false ∧
    ((builtRecord 512 [.resident 0xFFFFFFFF []]).map fun raw =>
      ((restoreUsa 512 raw).bind parseAttributes).map Prod.fst) = some (some []) ∧
    ∀ b : RecordBuilder, b.attrCursor ≤ 1016 → b.recBytes = 1024 →
      (addAttr b (.resident 0x80 (List.replicate (2 ^ 32 - 24) 0))).map RecordBuilder.attrCursor = some b.attrCursor := by
  refine ⟨by decide +kernel, by decide +kernel, fun b hb hbytes => ?_⟩
  have hlen : attrLength (24 + (List.replicate (2 ^ 32 - 24) (0 : UInt8)).length) = 0 := by
    rw [List.length_replicate]
    decide
  rw [addAttr, ntfsRecordAddResidentAttr, hlen, hbytes, if_neg (by omega), Option.map_some]
  exact congrArg some (Nat.mod_eq_of_lt (by omega))

end Guppy.Ntfs
