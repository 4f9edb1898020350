import Guppy.Vfs.Path
import Mathlib.Data.List.TakeWhile

set_option autoImplicit false

/-! # Host files

What the archive writers and readers do with a `FILE`: append to it, copy from one to another in
pieces, and read at a position. A host file has at most `LONG_MAX` bytes, the largest offset of a
64-bit system.
-/

namespace Guppy.Archive

open Vfs

/-- `LONG_MAX` -/
def longMax : Nat := 9223372036854775807

/-- A C string. -/
structure CString where
  text : Text
  noNul : 0 ∉ text

/-- The text that a buffer holds for a C function. -/
def cText (t : Text) : Text := t.takeWhile (· ≠ 0)

theorem cText_noNul (t : Text) : 0 ∉ cText t := by
  intro h
  have := List.mem_takeWhile_imp h
  simp at this

theorem length_cText_le (t : Text) : (cText t).length ≤ t.length := (List.takeWhile_prefix _).length_le

theorem cText_append {t : Text} (h : 0 ∉ t) (rest : Text) : cText (t ++ rest) = t ++ cText rest := by
  unfold cText
  apply List.takeWhile_append_of_pos
  intro c hc
  have : c ≠ 0 := fun heq => h (heq ▸ hc)
  simpa using this

theorem cText_self {t : Text} (h : 0 ∉ t) : cText t = t := by
  have := cText_append h []
  rwa [show cText [] = [] from rfl, List.append_nil] at this

/-- A field of `n` bytes with a text at its start and zeros after it. -/
theorem cText_padded {t : Text} (h : 0 ∉ t) (n : Nat) : cText (t ++ List.replicate n 0) = t := by
  rw [cText_append h]
  cases n with
  | zero => exact List.append_nil t
  | succ n => exact List.append_nil t

/-- `fwrite` at the end of a file. -/
def fwrite (out data : List UInt8) : Option (List UInt8) :=
  if out.length + data.length ≤ longMax then some (out ++ data) else none

theorem fwrite_eq_some {out data file : List UInt8} :
    fwrite out data = some file ↔ out.length + data.length ≤ longMax ∧ file = out ++ data := by
  unfold fwrite
  split
  · rename_i h
    simp [h, eq_comm]
  · rename_i h
    simp [h]

/-- `fread` of `n` bytes at a position, when there are that many. -/
def fread (file : List UInt8) (pos n : Nat) : Option (List UInt8) :=
  if pos + n ≤ file.length then some ((file.drop pos).take n) else none

theorem fread_append {a b c : List UInt8} {pos n : Nat} (ha : a.length = pos) (hb : b.length = n) :
    fread (a ++ (b ++ c)) pos n = some b := by
  unfold fread
  rw [if_pos (by simp only [List.length_append]; omega), List.drop_left' ha, List.take_left' hb]

/-- The size of the buffer that the writers copy with. -/
def bufferSize : Nat := 32768

/-- The loop that copies `remaining` bytes from `src`, of which the first `pos` have been read. -/
def copyLoop (src : List UInt8) : Nat → Nat → List UInt8 → Option (List UInt8)
  | pos, remaining, out =>
      if remaining = 0 then some out
      else
        let count := if remaining < bufferSize then remaining else bufferSize
        match fread src pos count with
        | none => none
        | some buffer =>
            match fwrite out buffer with
            | none => none
            | some out => copyLoop src (pos + count) (remaining - count) out
  termination_by _ remaining => remaining
  decreasing_by
    have : 0 < bufferSize := by decide
    grind

/-- The copy goes through when there are enough bytes and room for them. -/
theorem copyLoop_eq_some {src : List UInt8} (remaining : Nat) : ∀ {pos : Nat} {out file : List UInt8},
    copyLoop src pos remaining out = some file ↔
      (remaining = 0 ∨ (pos + remaining ≤ src.length ∧ out.length + remaining ≤ longMax)) ∧
        file = out ++ (src.drop pos).take remaining := by
  induction remaining using Nat.strong_induction_on with
  | _ remaining ih =>
      intro pos out file
      rw [copyLoop]
      by_cases hzero : remaining = 0
      · subst hzero
        simp [eq_comm]
      · rw [if_neg hzero]
        dsimp only []
        generalize hcount : (if remaining < bufferSize then remaining else bufferSize) = count
        have hpos : 0 < count := by
          have : 0 < bufferSize := by decide
          grind
        have hle : count ≤ remaining := by grind
        by_cases hread : pos + count ≤ src.length
        · have htake : ((src.drop pos).take count).length = count := by
            rw [List.length_take, List.length_drop]
            omega
          rw [fread, if_pos hread]
          dsimp only []
          by_cases hroom : out.length + count ≤ longMax
          · rw [fwrite, if_pos (by rwa [htake])]
            dsimp only []
            -- the two pieces are the bytes from `pos` on
            have hjoin : out ++ (src.drop pos).take count ++ (src.drop (pos + count)).take (remaining - count) =
                out ++ (src.drop pos).take remaining := by
              rw [List.append_assoc, ← List.drop_drop, ← List.take_add]
              rw [show count + (remaining - count) = remaining by omega]
            rw [ih (remaining - count) (by omega), hjoin, List.length_append, htake]
            constructor
            · rintro ⟨h, rfl⟩
              exact ⟨by omega, rfl⟩
            · rintro ⟨h, rfl⟩
              exact ⟨by omega, rfl⟩
          · rw [fwrite, if_neg (by rwa [htake])]
            constructor
            · intro h
              cases h
            · rintro ⟨h, -⟩
              omega
        · rw [fread, if_neg hread]
          constructor
          · intro h
            cases h
          · rintro ⟨h, -⟩
            omega

end Guppy.Archive
