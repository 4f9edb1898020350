import Guppy.Vdisk.Host

set_option autoImplicit false

/-! # Inspecting a container

`vdisk_inspect` reports what it finds in a host file without opening it as a disk. The report
(`vdisk_info_t`) counts the checks that pass and those that fail, and a container is
structurally valid when no check has failed. The counters are 32-bit; an inspector makes far
fewer checks than that, so a failed check is never counted away (`failed_checks_zero_iff`).
-/

namespace Guppy.Vdisk

/-- `vdisk_format_t` -/
inductive Format
  | auto
  | raw
  | vdi
  | vmdk
  | vhd
  | qcow2
  deriving DecidableEq, Repr

/-- `vdisk_info_t` -/
structure Info where
  format : Format
  hostSizeBytes : Nat
  logicalSizeBytes : Nat
  dataOffset : Nat
  blocksOffset : Nat
  imageType : Nat
  sectorSize : Nat
  blockSize : Nat
  blocksCount : Nat
  blocksAllocated : Nat
  mapAllocatedEntries : Nat
  mapUnallocatedEntries : Nat
  mapInvalidEntries : Nat
  mapDuplicateEntries : Nat
  checksPassed : Nat
  checksFailed : Nat
  supported : Bool
  structurallyValid : Bool
  variant : String

/-- `memset(info, 0, sizeof(*info))` -/
def Info.cleared : Info :=
  { format := .auto, hostSizeBytes := 0, logicalSizeBytes := 0, dataOffset := 0,
    blocksOffset := 0, imageType := 0, sectorSize := 0, blockSize := 0, blocksCount := 0,
    blocksAllocated := 0, mapAllocatedEntries := 0, mapUnallocatedEntries := 0,
    mapInvalidEntries := 0, mapDuplicateEntries := 0, checksPassed := 0, checksFailed := 0,
    supported := false, structurallyValid := false, variant := "" }

/-- One more, in 32 bits. -/
def count32 (n : Nat) : Nat := (n + 1) % (uint32Max + 1)

theorem count32_eq {n : Nat} (h : n < uint32Max) : count32 n = n + 1 :=
  Nat.mod_eq_of_lt (by omega)

/-- `CHECK(c)` -/
def Info.check (info : Info) (c : Bool) : Info :=
  if c = true then { info with checksPassed := count32 info.checksPassed }
  else { info with checksFailed := count32 info.checksFailed }

/-- A run of checks. -/
def Info.checks (info : Info) (cs : List Bool) : Info := cs.foldl Info.check info

/-- `info->structurally_valid=(info->checks_failed==0)` -/
def Info.conclude (info : Info) : Info :=
  { info with structurallyValid := decide (info.checksFailed = 0) }

/-- A run of checks counts the failed ones. -/
theorem failed_checks (cs : List Bool) : ∀ info : Info, info.checksFailed + cs.length ≤ uint32Max →
    (info.checks cs).checksFailed = info.checksFailed + cs.count false := by
  induction cs with
  | nil =>
      intro info _
      rfl
  | cons c cs ih =>
      intro info h
      rw [List.length_cons] at h
      show ((info.check c).checks cs).checksFailed = _
      cases c with
      | true =>
          have hstep : (info.check true).checksFailed = info.checksFailed := rfl
          rw [ih _ (by omega), hstep, List.count_cons_of_ne (by decide)]
      | false =>
          have hstep : (info.check false).checksFailed = info.checksFailed + 1 :=
            count32_eq (by omega)
          rw [ih _ (by omega), hstep, List.count_cons_self]
          omega

/-- No check has failed exactly when none failed before and all of them pass. -/
theorem failed_checks_zero_iff {cs : List Bool} {info : Info}
    (h : info.checksFailed + cs.length ≤ uint32Max) :
    (info.checks cs).checksFailed = 0 ↔ info.checksFailed = 0 ∧ ∀ c ∈ cs, c = true := by
  rw [failed_checks cs info h, Nat.add_eq_zero_iff, List.count_eq_zero]
  constructor
  · rintro ⟨h₀, hmem⟩
    refine ⟨h₀, fun c hc => ?_⟩
    cases c with
    | true => rfl
    | false => exact absurd hc hmem
  · rintro ⟨h₀, hall⟩
    exact ⟨h₀, fun hmem => Bool.false_ne_true (hall false hmem)⟩

/-! ## Reading the host file -/

/-- `vdisk_host_read` on a file that is only read. -/
def HostFile.read (f : HostFile) (off len : Nat) : Option Mem :=
  if f.canRead off len = true then some (f.bytes.slice off len) else none

theorem HostFile.read_of_le {f : HostFile} {off len : Nat} (h : off + len ≤ f.size) :
    f.read off len = some (f.bytes.slice off len) :=
  if_pos (by simp [HostFile.canRead, h])

theorem HostFile.read_some {f : HostFile} {off len : Nat} {b : Mem} (hl : 0 < len)
    (h : f.read off len = some b) : off + len ≤ f.size ∧ b = f.bytes.slice off len := by
  unfold HostFile.read at h
  by_cases hc : f.canRead off len = true
  · rw [if_pos hc] at h
    simp only [HostFile.canRead, Bool.or_eq_true, decide_eq_true_eq] at hc
    exact ⟨by omega, (Option.some.inj h).symm⟩
  · rw [if_neg hc] at h
    cases h

theorem HostFile.read_of_gt {f : HostFile} {off len : Nat} (hl : 0 < len) (h : f.size < off + len) :
    f.read off len = none := by
  cases hr : f.read off len with
  | none => rfl
  | some b => exact absurd (HostFile.read_some hl hr).1 (Nat.not_le.mpr h)

/-- The inspectors and the backends read alike. -/
theorem vdiskHostRead_eq (s : DiskState) (off len : Nat) :
    vdiskHostRead off len s = match s.file.read off len with
      | some b => .ok b s
      | none => .error (-1) s := by
  by_cases hc : s.file.canRead off len = true
  · show (Prog.failIf (s.file.canRead off len = false) (-1) >>= _) s = _
    rw [Prog.bind_of_ok (Prog.failIf_of_not (by rw [hc]; decide)), HostFile.read, if_pos hc]
    rfl
  · show (Prog.failIf (s.file.canRead off len = false) (-1) >>= _) s = _
    rw [Prog.bind_of_error (Prog.failIf_of (Bool.not_eq_true _ ▸ hc)), HostFile.read, if_neg hc]

end Guppy.Vdisk
