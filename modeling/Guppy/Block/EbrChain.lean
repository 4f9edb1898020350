import Guppy.Lib.Loop
import Guppy.Block.Scan

set_option autoImplicit false

/-! # When the chain of extended boot records ends

The loop of `scan_ebr_chain` counts the partitions that it finds, not its rounds. Links are
positions from the disk, so a record may link back to itself or to an earlier one. If there is a
partition on such a loop the count comes to `MAX_PARTS`; if there is none the scan never ends
(`scanEbrChain_ends_iff`).
-/

namespace Guppy.Block

open Vfs

section

variable (io : Diskio) (dev : Vblk) (extBase : Nat)

/-- The position that the record at `ebrLba` links to, if it is a record with a link. -/
def ebrNext (ebrLba : Nat) : Option Nat :=
  match vblkReadBlock io dev ebrLba with
  | none => none
  | some sec =>
      if bootSig sec = true ∧ isExtended (slotType sec 1) = true then
        some ((extBase + slotLba sec 1) % uint32)
      else none

/-- The number of logical partitions in the record at `ebrLba`: one or none. -/
def ebrCount (ebrLba : Nat) : Nat :=
  match vblkReadBlock io dev ebrLba with
  | none => 0
  | some sec => if bootSig sec = true then (ebrLogical ebrLba sec).length else 0

variable {io dev extBase}

/-- The scan runs out of fuel when each of its rounds finds room and a link. -/
theorem scanEbrChain_none_iff (fuel : Nat) : ∀ {ebrLba : Nat} {found : List Span},
    scanEbrChain io dev extBase fuel ebrLba found = none ↔
      ∀ i, i < fuel → found.length + collected (ebrNext io dev extBase) (ebrCount io dev) i ebrLba < maxParts ∧
        (after (ebrNext io dev extBase) (i + 1) ebrLba).isSome = true := by
  induction fuel with
  | zero =>
      intro ebrLba found
      exact iff_of_true rfl (fun i hi => absurd hi (Nat.not_lt_zero i))
  | succ fuel ih =>
      intro ebrLba found
      unfold scanEbrChain
      by_cases hroom : found.length < maxParts
      · rw [if_pos hroom]
        cases hread : vblkReadBlock io dev ebrLba with
        | none =>
            have hnext : ebrNext io dev extBase ebrLba = none := by
              unfold ebrNext
              rw [hread]
            refine iff_of_false (by simp) (fun h => ?_)
            have hfirst := (h 0 (by omega)).2
            unfold after at hfirst
            rw [hnext] at hfirst
            cases hfirst
        | some sec =>
            dsimp only []
            by_cases hgo : bootSig sec = true ∧ isExtended (slotType sec 1) = true
            · -- one more round, from the position of the link
              have hnext : ebrNext io dev extBase ebrLba = some ((extBase + slotLba sec 1) % uint32) := by
                unfold ebrNext
                rw [hread]
                exact if_pos hgo
              have hcount : (found ++ ebrLogical ebrLba sec).length = found.length + ebrCount io dev ebrLba := by
                unfold ebrCount
                rw [hread, List.length_append]
                dsimp only []
                rw [if_pos hgo.1]
              rw [if_neg (by rw [hgo.1]; decide), if_pos hgo.2, ih, hcount]
              constructor
              · intro h i hi
                cases i with
                | zero =>
                    refine ⟨hroom, ?_⟩
                    unfold after
                    rw [hnext]
                    rfl
                | succ i =>
                    have hrest := h i (by omega)
                    unfold collected after
                    rw [hnext, Option.elim_some, Option.bind_some, ← Nat.add_assoc]
                    exact hrest
              · intro h i hi
                have hrest := h (i + 1) (by omega)
                unfold collected after at hrest
                rw [hnext, Option.elim_some, Option.bind_some, ← Nat.add_assoc] at hrest
                exact hrest
            · have hnext : ebrNext io dev extBase ebrLba = none := by
                unfold ebrNext
                rw [hread]
                exact if_neg hgo
              refine iff_of_false ?_ (fun h => ?_)
              · by_cases hsig : bootSig sec = false
                · rw [if_pos hsig]
                  simp
                · have hlink : ¬ isExtended (slotType sec 1) = true :=
                    fun h => hgo ⟨by simpa using hsig, h⟩
                  rw [if_neg hsig, if_neg hlink]
                  simp
              · have hfirst := (h 0 (by omega)).2
                unfold after at hfirst
                rw [hnext] at hfirst
                cases hfirst
      · rw [if_neg hroom]
        refine iff_of_false (by simp) (fun h => hroom ?_)
        have hfirst := (h 0 (by omega)).1
        exact lt_of_le_of_lt (Nat.le_add_right _ _) hfirst

/-- The scan comes to an end: some number of rounds is enough. -/
def ScanEnds (io : Diskio) (dev : Vblk) (extBase ebrLba : Nat) (found : List Span) : Prop :=
  ∃ fuel r, scanEbrChain io dev extBase fuel ebrLba found = some r

/-- The scan ends exactly when the chain does not come back to a record with no partition found
since, while there is room for more. -/
theorem scanEbrChain_ends_iff (io : Diskio) (dev : Vblk) (extBase ebrLba : Nat) (found : List Span) :
    ScanEnds io dev extBase ebrLba found ↔
      ¬ Loops (ebrNext io dev extBase) (ebrCount io dev) maxParts ebrLba found.length := by
  have hfinite : ∀ a b, ebrNext io dev extBase a = some b → b ∈ Finset.range uint32 := by
    intro a b h
    unfold ebrNext at h
    split at h
    · cases h
    · split at h
      · cases h
        exact Finset.mem_range.mpr (Nat.mod_lt _ (by decide))
      · cases h
  rw [← endless_iff_loop hfinite]
  constructor
  · rintro ⟨fuel, r, hr⟩ hend
    have hnone := (@scanEbrChain_none_iff io dev extBase fuel ebrLba found).mpr (fun i _ => hend i)
    rw [hnone] at hr
    cases hr
  · intro hend
    by_contra hno
    refine hend (fun i => ?_)
    have hnone : scanEbrChain io dev extBase (i + 1) ebrLba found = none := by
      cases hscan : scanEbrChain io dev extBase (i + 1) ebrLba found with
      | none => rfl
      | some r => exact absurd ⟨i + 1, r, hscan⟩ hno
    exact scanEbrChain_none_iff (i + 1) |>.mp hnone i (Nat.lt_succ_self i)

/-- A disk of eight sectors. The record at sector 4 has no partition, and links to itself. -/
def selfLink : Disk :=
  { size := 4096
    writable := true
    bytes := (Mem.zero.wr8 (2048 + 466) 0x05).wr16 (2048 + 510) 0xAA55
    size_lt := by decide }

/-- The disk alone, under the key `d`. -/
def selfLinkIo : Diskio := [([100], selfLink)]
def selfLinkDev : Vblk := ⟨[100], [100], -1, [45], 0, 8, 0, false⟩

/-- The scan from the record that links to itself never ends. -/
theorem self_link_never_ends : ¬ ScanEnds selfLinkIo selfLinkDev 4 4 [] := by
  have hread : (vblkReadBlock selfLinkIo selfLinkDev 4).map (fun sec =>
      (bootSig sec, isExtended (slotType sec 1), slotLba sec 1, ebrLogical 4 sec)) = some (true, true, 0, []) := by
    decide +kernel
  obtain ⟨sec, hsec, hfields⟩ := Option.map_eq_some_iff.mp hread
  simp only [Prod.mk.injEq] at hfields
  obtain ⟨hsig, hlink, hlba, hlog⟩ := hfields
  rintro ⟨fuel, r, hr⟩
  have hnone : ∀ fuel, scanEbrChain selfLinkIo selfLinkDev 4 fuel 4 [] = none := by
    intro fuel
    induction fuel with
    | zero => rfl
    | succ fuel ih =>
        unfold scanEbrChain
        rw [if_pos (by decide), hsec]
        dsimp only []
        rw [if_neg (by rw [hsig]; decide), if_pos hlink, hlba, hlog]
        exact ih
  rw [hnone] at hr
  cases hr

end

end Guppy.Block
