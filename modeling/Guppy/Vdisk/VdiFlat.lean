import Guppy.Vdisk.VdiImage

set_option autoImplicit false

/-! # A sparse image is a flat disk

The abstract disk is a size and its bytes; it starts as zeros. A client reads, writes and
reopens it. `Models` relates an image to the flat disk it stands for: one operation keeps
the relation and gives the same answer on both sides (`Models.exec`), and so does a run of
operations (`Models.run`).
-/

namespace Guppy.Vdisk

open Prog

/-! ## The flat disk -/

/-- What a client of the disk does. Closing an image has no effect of its own, so `reopen`
is a close followed by `vdi_open`. -/
inductive Op
  | read (off len : Nat)
  | write (off : Nat) (data : List UInt8)
  | reopen

/-- What it gets back: the bytes of a read, nothing for the others, or a failure. -/
abbrev Answer := Option (List UInt8)

/-- One flat array of bytes. -/
structure Flat where
  size : Nat
  bytes : Mem

def Flat.exec (m : Flat) : Op → Answer × Flat
  | .read off len => (if off + len ≤ m.size then some (m.bytes.toList off len) else none, m)
  | .write off data =>
      if off + data.length ≤ m.size then
        (some [], { m with bytes := m.bytes.write off data.length (Mem.ofList data) })
      else (none, m)
  | .reopen => (some [], m)

/-- The answers to a sequence of operations. -/
def Flat.run (m : Flat) : List Op → List Answer
  | [] => []
  | op :: ops => (m.exec op).1 :: (m.exec op).2.run ops

/-! ## The image -/

/-- The answer of a program and the state it leaves. -/
def answer {σ α : Type} (f : α → List UInt8) : EStateM.Result Int σ α → Answer × σ
  | .ok a s => (some (f a), s)
  | .error _ s => (none, s)

/-- The disk of `vdisk_open` before the backend fills it in: zeroed and writable. -/
def blankDisk : Disk :=
  { sizeBytes := 0, dataOffset := 0, hostSizeBytes := 0, blockSize := 0, blocksOffset := 0,
    blocksCount := 0, blocksAllocated := 0, imageType := 0, writable := true }

def DiskState.exec (s : DiskState) : Op → Answer × DiskState
  | .read off len => answer id (vdiRead off len s)
  | .write off data => answer (fun _ => []) (vdiWrite off data s)
  | .reopen => answer (fun _ => []) (vdiOpen { s with disk := blankDisk })

def DiskState.run (s : DiskState) : List Op → List Answer
  | [] => []
  | op :: ops => (s.exec op).1 :: (s.exec op).2.run ops

/-- The image after a sequence of operations. -/
def DiskState.after (s : DiskState) : List Op → DiskState
  | [] => s
  | op :: ops => (s.exec op).2.after ops

/-! ## The relation -/

/-- The image is sound, its host does not stop, and its guest bytes are those of the flat
disk. -/
structure Models (s : DiskState) (m : Flat) : Prop where
  sound : Sound s
  running : s.stop = none
  size_eq : m.size = s.disk.sizeBytes
  bytes_eq : ∀ i, i < m.size → guestByte s i = some (m.bytes i)

theorem Models.guestBytes_eq {s : DiskState} {m : Flat} (h : Models s m) {off len : Nat}
    (hsz : off + len ≤ m.size) : guestBytes s off len = m.bytes.toList off len := by
  refine List.map_congr_left (fun j hj => ?_)
  rw [h.bytes_eq _ (by have := List.mem_range.mp hj; omega)]
  rfl

theorem Models.read {s : DiskState} {m : Flat} (h : Models s m) (off len : Nat) :
    answer id (vdiRead off len s) = ((m.exec (.read off len)).1, s) := by
  by_cases hsz : off + len ≤ m.size
  · rw [h.sound.vdiRead_ok (by rw [← h.size_eq]; exact hsz), h.guestBytes_eq hsz]
    simp only [Flat.exec, if_pos hsz]
    rfl
  · rw [vdiRead_out (by rw [← h.size_eq]; exact hsz)]
    simp only [Flat.exec, if_neg hsz]
    rfl

theorem Models.write {s : DiskState} {m : Flat} (h : Models s m) (off : Nat)
    (data : List UInt8) :
    (answer (fun _ => []) (vdiWrite off data s)).1 = (m.exec (.write off data)).1 ∧
      Models (answer (fun _ => []) (vdiWrite off data s)).2 (m.exec (.write off data)).2 := by
  by_cases hsz : off + data.length ≤ m.size
  · obtain ⟨s', hrun, hstop, hw⟩ :=
      h.sound.vdiWrite_ok h.running (by rw [← h.size_eq]; exact hsz)
    rw [hrun]
    simp only [Flat.exec, if_pos hsz]
    have hs := hw.shape
    refine ⟨rfl, h.sound.of_kept hw.toKept, hstop, ?_, ?_⟩
    · show m.size = s'.disk.sizeBytes
      rw [h.size_eq, hs]
    · intro i hi
      have hi' : i < m.size := hi
      show guestByte s' i = some (m.bytes.write off data.length (Mem.ofList data) i)
      rw [hw.guest i (held_of_lt (by rw [← h.size_eq]; exact hi'))]
      by_cases hin : off ≤ i ∧ i < off + data.length
      · rw [if_pos hin, Mem.write_in hin.1 hin.2]
        rfl
      · rw [if_neg hin, Mem.write_out (by omega), h.bytes_eq i hi']
  · rw [vdiWrite_out (by rw [← h.size_eq]; exact hsz)]
    simp only [Flat.exec, if_neg hsz]
    exact ⟨rfl, h⟩

theorem Models.reopen {s : DiskState} {m : Flat} (h : Models s m) :
    (answer (fun _ => []) (vdiOpen { s with disk := blankDisk })).1 = (m.exec .reopen).1 ∧
      Models (answer (fun _ => []) (vdiOpen { s with disk := blankDisk })).2
        (m.exec .reopen).2 := by
  rw [h.sound.vdiOpen_ok rfl]
  exact ⟨rfl, h.sound.reopened _, h.running, h.size_eq, h.bytes_eq⟩

/-- One operation: the same answer, and related states after it. -/
theorem Models.exec {s : DiskState} {m : Flat} (h : Models s m) (op : Op) :
    (s.exec op).1 = (m.exec op).1 ∧ Models (s.exec op).2 (m.exec op).2 := by
  cases op with
  | read off len =>
      have := h.read off len
      simp only [DiskState.exec]
      rw [this]
      exact ⟨rfl, h⟩
  | write off data => exact h.write off data
  | reopen => exact h.reopen

theorem Models.run {s : DiskState} {m : Flat} (h : Models s m) (ops : List Op) :
    s.run ops = m.run ops := by
  induction ops generalizing s m with
  | nil => rfl
  | cons op ops ih =>
      obtain ⟨hans, hnext⟩ := h.exec op
      simp only [DiskState.run, Flat.run]
      rw [hans, ih hnext]

theorem Models.after {s : DiskState} {m : Flat} (h : Models s m) (ops : List Op) :
    ∃ m', Models (s.after ops) m' ∧ m'.size = m.size := by
  induction ops generalizing s m with
  | nil => exact ⟨m, h, rfl⟩
  | cons op ops ih =>
      obtain ⟨m', hm', hsize⟩ := ih (h.exec op).2
      refine ⟨m', hm', hsize.trans ?_⟩
      cases op with
      | read off len => rfl
      | write off data =>
          simp only [Flat.exec]
          split <;> rfl
      | reopen => rfl

/-! ## A new image -/

/-- A host file that was just opened for a new image. -/
def newState (f : HostFile) : DiskState := { file := f, stop := none, disk := blankDisk }

/-- A new image stands for zeros. -/
theorem models_create {f : HostFile} {sizeBytes : Nat} {imageUuid uuid : Mem} {s : DiskState}
    (h : vdiCreateSparse sizeBytes imageUuid uuid (newState f) = .ok () s) :
    Models s { size := (sizeBytes + 511) / 512 * 512, bytes := Mem.zero } := by
  cases hl : layoutFor sizeBytes with
  | none =>
      rw [vdiCreateSparse_none hl] at h
      cases h
  | some l =>
      obtain ⟨s', hrun, hsound, hstop, hsize, hent, -⟩ :=
        vdiCreateSparse_ok (s := newState f) rfl rfl hl imageUuid uuid
      rw [hrun] at h
      cases h
      refine ⟨hsound, hstop, hsize.symm, fun i hi => ?_⟩
      have hi' : i < s.disk.sizeBytes := by
        rw [hsize]
        exact hi
      simp only [guestByte]
      rw [if_pos (hent _ (hsound.mapped.block_lt hi'))]
      rfl

/-- Every sequence of reads, writes and reopenings of a new sparse image is answered as a
flat disk of the rounded size, filled with zeros, answers it; and in every state on the way
an access outside the disk fails and changes nothing. -/
theorem sparse_image_is_flat {f : HostFile} {sizeBytes : Nat} {imageUuid uuid : Mem}
    {s : DiskState} (h : vdiCreateSparse sizeBytes imageUuid uuid (newState f) = .ok () s)
    (ops : List Op) :
    s.run ops = Flat.run { size := (sizeBytes + 511) / 512 * 512, bytes := Mem.zero } ops ∧
      ∀ off len data, ¬ off + len ≤ (sizeBytes + 511) / 512 * 512 → data.length = len →
        vdiRead off len (s.after ops) = .error (-1) (s.after ops) ∧
        vdiWrite off data (s.after ops) = .error (-1) (s.after ops) := by
  have hm := models_create h
  refine ⟨hm.run ops, fun off len data hout hlen => ?_⟩
  obtain ⟨m', hm', hsize⟩ := hm.after ops
  have hsz : (s.after ops).disk.sizeBytes = (sizeBytes + 511) / 512 * 512 := by
    rw [← hm'.size_eq, hsize]
  exact ⟨vdiRead_out (by rw [hsz]; exact hout), vdiWrite_out (by rw [hsz, hlen]; exact hout)⟩

theorem sparse_image_is_flat_small :
    ∃ s, vdiCreateSparse 1 Mem.zero Mem.zero (newState ⟨0, Mem.zero⟩) = .ok () s ∧
      s.run [.write 3 [7], .reopen, .read 2 3, .write 511 [1, 2]]
        = [some [], some [], some [0, 7, 0], none] := by
  have hl : layoutFor 1 = some ⟨512, 1, 512, 1024⟩ := rfl
  obtain ⟨s, hrun, -⟩ := vdiCreateSparse_ok (s := newState ⟨0, Mem.zero⟩) rfl rfl hl Mem.zero Mem.zero
  refine ⟨s, hrun, ?_⟩
  rw [(sparse_image_is_flat hrun _).1]
  decide

end Guppy.Vdisk
