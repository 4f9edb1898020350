import Guppy.Ext2.Ops

set_option autoImplicit false

/-! # Device accesses

What reading and writing the device does, for any geometry: when an access succeeds, and what
it leaves on the device.
-/

namespace Guppy.Ext2

open Prog Vfs

/-! ## Bytes -/

theorem preadBytesAt_ok_iff {d : Vblk} {off len : Nat} {p : Mem} :
    preadBytesAt d off len = .ok p ↔ off + len ≤ d.limit ∧ p = d.bytes.slice off len := by
  unfold preadBytesAt
  split
  · rename_i h
    refine ⟨fun h' => (by cases h'), fun h' => ?_⟩
    omega
  · rename_i h
    refine ⟨fun h' => ?_, fun h' => ?_⟩
    · cases h'
      exact ⟨by omega, rfl⟩
    · rw [h'.2]

theorem preadBytesAt_of_le {d : Vblk} {off len : Nat} (h : off + len ≤ d.limit) :
    preadBytesAt d off len = .ok (d.bytes.slice off len) :=
  preadBytesAt_ok_iff.mpr ⟨h, rfl⟩

theorem preadBlock_of_le {d : Vblk} {bs b len : Nat} (h : b * bs + len ≤ d.limit) :
    preadBlock d bs b len = .ok (d.bytes.slice (b * bs) len) := preadBytesAt_of_le h

/-- The device after a write. -/
def Vblk.put (d : Vblk) (off len : Nat) (src : Mem) : Vblk :=
  { d with bytes := d.bytes.write off len src }

theorem pwriteBytesAt_of_le {d : Vblk} {off len : Nat} {src : Mem} (hro : d.ro = false)
    (h : off + len ≤ d.limit) : pwriteBytesAt off src len d = .ok () (d.put off len src) := by
  have hnot : ¬ (d.ro = true ∨ d.limit < off ∨ d.limit - off < len) := by
    rw [hro]
    simp only [Bool.false_eq_true, false_or]
    omega
  exact bind_of_ok (failIf_of_not hnot)

theorem pwriteBlock_of_le {d : Vblk} {bs b len : Nat} {src : Mem} (hro : d.ro = false)
    (h : b * bs + len ≤ d.limit) :
    pwriteBlock bs b src len d = .ok () (d.put (b * bs) len src) := pwriteBytesAt_of_le hro h

theorem pwriteBytesAt_ok_iff {d d' : Vblk} {off len : Nat} {src : Mem} {u : Unit} :
    pwriteBytesAt off src len d = .ok u d' ↔
      d.ro = false ∧ off + len ≤ d.limit ∧ d' = d.put off len src := by
  constructor
  · intro h
    obtain ⟨d₀, d₁, h₀, hrest⟩ := bind_ok_iff.mp h
    cases h₀
    obtain ⟨_, d₂, hcheck, hset⟩ := bind_ok_iff.mp hrest
    obtain ⟨hnot, rfl⟩ := failIf_ok_iff.mp hcheck
    cases hset
    simp only [not_or, Bool.not_eq_true] at hnot
    exact ⟨hnot.1, by omega, rfl⟩
  · rintro ⟨hro, hlim, rfl⟩
    exact pwriteBytesAt_of_le hro hlim

/-! ## Group descriptors -/

/-- The descriptors after blocks `k`, ..., `k + count - 1` of the table have been read. -/
def gdAfter (d : Vblk) (m : Ext2Meta) (k count : Nat) : Nat → GroupDesc := fun g =>
  if k * (m.blockSize / 32) ≤ g ∧ g < (k + count) * (m.blockSize / 32) ∧ g < m.groupCount then
    d.bytes.slice (m.gdtBlk * m.blockSize + g * 32) 32
  else m.gd g

/-- One block of the table. -/
theorem putGd_gdtSpan {d : Vblk} {m : Ext2Meta} {k per : Nat} (hper : m.blockSize = 32 * per) :
    putGd m.gd (gdtSpan m k) (d.bytes.slice ((m.gdtBlk + k) * m.blockSize) m.blockSize)
      = gdAfter d m k 1 := by
  have hdiv : m.blockSize / 32 = per := by omega
  funext g
  unfold putGd gdAfter gdtSpan
  simp only [GroupDesc.size, hdiv]
  rw [Nat.add_mul k 1 per, Nat.one_mul]
  by_cases hg : k * per ≤ g ∧ g < k * per + per ∧ g < m.groupCount
  · rw [if_pos (by omega), if_pos hg, Mem.slice_slice (by omega)]
    have hoff : (m.gdtBlk + k) * m.blockSize + (g - k * per) * 32
        = m.gdtBlk * m.blockSize + g * 32 := by
      have hk : k * m.blockSize = k * per * 32 := by
        rw [hper]
        ring
      rw [Nat.add_mul, hk, Nat.sub_mul]
      have := Nat.mul_le_mul_right 32 hg.1
      omega
    rw [hoff]
  · rw [if_neg (by omega), if_neg hg]

theorem gdAfter_gdAfter {d : Vblk} {m : Ext2Meta} (k count : Nat) :
    gdAfter d { m with gd := gdAfter d m k 1 } (k + 1) count = gdAfter d m k (count + 1) := by
  funext g
  unfold gdAfter
  simp only []
  have h₁ : (k + 1) * (m.blockSize / 32) = k * (m.blockSize / 32) + m.blockSize / 32 := by ring
  have h₂ : (k + 1 + count) * (m.blockSize / 32) = (k + (count + 1)) * (m.blockSize / 32) := by
    ring
  have h₃ : (k + (count + 1)) * (m.blockSize / 32)
      = k * (m.blockSize / 32) + m.blockSize / 32 + count * (m.blockSize / 32) := by ring
  rw [h₂]
  split
  · rename_i h
    rw [if_pos ⟨by omega, h.2⟩]
  · rename_i h
    split
    · rename_i h'
      rw [if_pos ⟨h'.1, by omega, h'.2.2⟩]
    · rename_i h'
      rw [if_neg]
      omega

theorem loadGdt_of_le {d : Vblk} {m : Ext2Meta} {count k per : Nat}
    (hper : m.blockSize = 32 * per) (h : (m.gdtBlk + k + count) * m.blockSize ≤ d.limit) :
    loadGdt d m count k = .ok { m with gd := gdAfter d m k count } := by
  induction count generalizing m k with
  | zero =>
      have hgd : gdAfter d m k 0 = m.gd := by
        funext g
        unfold gdAfter
        rw [if_neg]
        rw [Nat.add_zero]
        omega
      rw [hgd]
      rfl
  | succ count ih =>
      have hread : (m.gdtBlk + k) * m.blockSize + m.blockSize ≤ d.limit := by
        have hcount : (m.gdtBlk + k + (count + 1)) * m.blockSize
            = (m.gdtBlk + k) * m.blockSize + m.blockSize + count * m.blockSize := by ring
        omega
      have hstep : loadGdt d m (count + 1) k
          = loadGdt d { m with gd := gdAfter d m k 1 } count (k + 1) := by
        rw [loadGdt, except_bind_of_ok (orCode_of_ok (preadBlock_of_le hread)),
          putGd_gdtSpan hper]
      have hnext : (m.gdtBlk + (k + 1) + count) * m.blockSize ≤ d.limit := by
        rw [show m.gdtBlk + (k + 1) + count = m.gdtBlk + k + (count + 1) by omega]
        exact h
      rw [hstep, ih (m := { m with gd := gdAfter d m k 1 }) hper hnext, gdAfter_gdAfter]

/-- Loading the descriptors leaves everything else alone. -/
theorem loadGdt_keeps {d : Vblk} {m m' : Ext2Meta} {count k : Nat}
    (h : loadGdt d m count k = .ok m') : m' = { m with gd := m'.gd } := by
  induction count generalizing m k with
  | zero =>
      cases h
      rfl
  | succ count ih =>
      obtain ⟨buf, -, hrest⟩ := except_bind_ok_iff.mp h
      exact @ih { m with gd := putGd m.gd (gdtSpan m k) buf } (k + 1) hrest

theorem loadGdt_limit {d : Vblk} {m m' : Ext2Meta} {count k : Nat} (h0 : 0 < count)
    (h : loadGdt d m count k = .ok m') : (m.gdtBlk + k + count) * m.blockSize ≤ d.limit := by
  induction count generalizing m k with
  | zero => omega
  | succ count ih =>
      obtain ⟨buf, hbuf, hrest⟩ := except_bind_ok_iff.mp h
      have hlim := (preadBytesAt_ok_iff.mp (orCode_ok_iff.mp hbuf)).1
      rcases Nat.eq_zero_or_pos count with rfl | hpos
      · have : (m.gdtBlk + k + (0 + 1)) * m.blockSize
            = (m.gdtBlk + k) * m.blockSize + m.blockSize := by ring
        omega
      · have := ih (m := { m with gd := putGd m.gd (gdtSpan m k) buf }) hpos hrest
        rwa [show m.gdtBlk + k + (count + 1) = m.gdtBlk + (k + 1) + count by omega]

end Guppy.Ext2
