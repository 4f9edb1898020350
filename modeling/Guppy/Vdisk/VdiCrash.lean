import Guppy.Vdisk.VdiFlat

set_option autoImplicit false

/-! # Writes that stop half-way

A run writes to a new sparse image. The host may stop after any number of host writes of a
`vdi_write`; the image is then opened again. A run in which no stop falls between the map
entry and the allocated count of a fresh block keeps the image sound, and no event of it
changes what the blocks it does not write read as (`Reached.isolated`). A stop at that
point leaves a block that is mapped and not counted. The next allocation hands it out again,
and two guest blocks then share their bytes (`torn_stop_aliases`).
-/

namespace Guppy.Vdisk

open Prog

/-- One event of a run: a write, or a write during which the host stops after `k` host
writes, followed by `vdi_open`. -/
inductive Event
  | write (off : Nat) (data : List UInt8)
  | stop (off : Nat) (data : List UInt8) (k : Nat)

namespace Event

def off : Event → Nat
  | write off _ => off
  | stop off _ _ => off

def len : Event → Nat
  | write _ data => data.length
  | stop _ data _ => data.length

/-- The host stops right after the map entry of a fresh block. -/
def Torn (s : DiskState) : Event → Prop
  | write _ _ => False
  | stop off data k => TornAt s off data.length k

end Event

/-- The image after an event, or `none` when `vdi_open` refuses it. -/
def DiskState.event (s : DiskState) : Event → Option DiskState
  | .write off data => some (answer (fun _ => []) (vdiWrite off data s)).2
  | .stop off data k =>
      let t := (answer (fun _ => []) (vdiWrite off data { s with stop := some k })).2
      match vdiOpen { t with stop := none, disk := blankDisk } with
      | .ok _ s' => some s'
      | .error _ _ => none

/-- The images of the runs whose events all meet `P`, starting with a new image. -/
inductive Reached (P : DiskState → Event → Prop) : DiskState → Prop
  | create {f : HostFile} {sizeBytes : Nat} {imageUuid uuid : Mem} {s : DiskState}
      (h : vdiCreateSparse sizeBytes imageUuid uuid (newState f) = .ok () s) : Reached P s
  | step {s s' : DiskState} {e : Event} (h : Reached P s) (hp : P s e)
      (he : s.event e = some s') : Reached P s'

/-- What reading a range gives. -/
def readBack (s : DiskState) (off len : Nat) : Answer := (answer id (vdiRead off len s)).1

/-- Guest blocks that hold no byte of the event's range read as before. -/
def Isolated (s : DiskState) (e : Event) (s' : DiskState) : Prop :=
  ∀ o l, (∀ i j, o ≤ i → i < o + l → e.off ≤ j → j < e.off + e.len →
      i / s.disk.blockSize ≠ j / s.disk.blockSize) →
    readBack s' o l = readBack s o l

/-! ## What a write leaves -/

/-- Two separated images of one shape that agree on the guest bytes of a range read alike
there. -/
theorem readBack_congr {s s' : DiskState} (h : Separated s) (h' : Separated s')
    (hsize : s'.disk.sizeBytes = s.disk.sizeBytes) {o l : Nat}
    (hbytes : ∀ i, o ≤ i → i < o + l → i < s.disk.sizeBytes → guestByte s' i = guestByte s i) :
    readBack s' o l = readBack s o l := by
  by_cases hin : o + l ≤ s.disk.sizeBytes
  · rw [readBack, readBack, h.vdiRead_ok hin, h'.vdiRead_ok (by rw [hsize]; exact hin)]
    refine congrArg some (List.map_congr_left (fun j hj => ?_))
    have := List.mem_range.mp hj
    rw [hbytes (o + j) (by omega) (by omega) (by omega)]
  · rw [readBack, readBack, vdiRead_out hin, vdiRead_out (by rw [hsize]; exact hin)]
    rfl

theorem Touched.isolated {s s' : DiskState} {e : Event} (h : Touched s s' e.off e.len)
    (hs : Separated s) : Isolated s e s' := by
  intro o l hapart
  refine readBack_congr hs h.separated (by rw [h.shape]) (fun i hi hi' hlt => ?_)
  refine h.outside i (held_of_lt hlt) ?_
  by_contra hin
  push Not at hin
  exact hapart i i hi hi' hin.1 hin.2 rfl

theorem Sound.with_stop {s : DiskState} (h : Sound s) (stop : Option Nat) :
    Sound { s with stop := stop } :=
  ⟨⟨h.dynamic, h.blockSize_pos, h.count_lt, h.size_le, h.header_map, h.map_data, h.data_file,
    h.allocated_le, h.entry_lt, h.entry_inj⟩, h.full, h.counted, h.described, h.size_pos, h.room,
    h.writable⟩

/-- A write that may be cut short touches only its range, unless it is torn. -/
theorem Sound.write_touched {s : DiskState} (h : Sound s) {off : Nat} {data : List UInt8}
    (hstop : ∀ k, s.stop = some k → ¬ TornAt s off data.length k) :
    Touched s (answer (fun _ => ([] : List UInt8)) (vdiWrite off data s)).2 off data.length := by
  by_cases hsz : off + data.length ≤ s.disk.sizeBytes
  · rw [vdiWrite_dynamic h.toSeparated h.writable hsz]
    cases hrun : vdiWriteLoop data.length off data s with
    | ok u s' => exact (vdiWriteLoop_ok _ _ _ _ _ (le_refl _) h.toSeparated hsz hrun).touched
    | error e s' =>
        rcases vdiWriteLoop_error _ _ _ _ _ _ (le_refl _) h.toSeparated hsz hrun with
          ⟨k, hk, hk0, hmap⟩ | ht
        · exact absurd ⟨hk0, hmap⟩ (hstop k hk)
        · exact ht
  · rw [vdiWrite_out hsz]
    exact Touched.refl h.toSeparated _ _

/-! ## Runs -/

/-- An event that is not torn completes, keeps the image sound and isolates its range. -/
theorem Sound.event {s : DiskState} (h : Sound s) (hrun : s.stop = none) {e : Event}
    (hne : ¬ e.Torn s) :
    ∃ s', s.event e = some s' ∧ Sound s' ∧ s'.stop = none ∧ Isolated s e s' := by
  cases e with
  | write off data =>
      have ht : Touched s (answer (fun _ => ([] : List UInt8)) (vdiWrite off data s)).2 off
          data.length := h.write_touched (by
        intro k hk
        rw [hrun] at hk
        cases hk)
      refine ⟨_, rfl, h.of_kept ht.toKept, ?_, ht.isolated (e := .write off data) h.toSeparated⟩
      by_cases hsz : off + data.length ≤ s.disk.sizeBytes
      · obtain ⟨s', hw, hstop, -⟩ := h.vdiWrite_ok hrun hsz
        rw [hw]
        exact hstop
      · rw [vdiWrite_out hsz]
        exact hrun
  | stop off data k =>
      have hs := h.with_stop (some k)
      have hsteps : writeSteps { s with stop := some k } data.length off data.length
          = writeSteps s data.length off data.length := by
        refine writeSteps_congr ?_ _ _ _ ?_
        · rfl
        · intro i _ _
          rfl
      have ht := @Sound.write_touched _ hs off data (by
        intro k' hk'
        cases hk'
        rw [TornAt, hsteps]
        exact hne)
      set t := (answer (fun _ => ([] : List UInt8)) (vdiWrite off data { s with stop := some k })).2
        with htdef
      have htsound := (hs.of_kept ht.toKept).with_stop none
      have hopen := htsound.vdiOpen_ok (d := blankDisk) rfl
      refine ⟨_, ?_, htsound.reopened t.file.size, rfl, ?_⟩
      · simp only [DiskState.event, ← htdef]
        rw [hopen]
      · -- reopening gives back the disk, so it reads as the image the stop left
        intro o l hapart
        have hread := ht.isolated (e := .stop off data k) hs.toSeparated o l hapart
        calc readBack { t with stop := none, disk := { t.disk with hostSizeBytes := t.file.size } }
              o l
            = readBack t o l := readBack_congr (hs.of_kept ht.toKept).toSeparated
                (htsound.reopened t.file.size).toSeparated rfl (fun _ _ _ _ => rfl)
          _ = readBack { s with stop := some k } o l := hread
          _ = readBack s o l := readBack_congr h.toSeparated hs.toSeparated rfl
                (fun _ _ _ _ => rfl)

theorem Reached.sound {s : DiskState} (h : Reached (fun s e => ¬ e.Torn s) s) :
    Sound s ∧ s.stop = none := by
  induction h with
  | create h =>
      have hm := models_create h
      exact ⟨hm.sound, hm.running⟩
  | step _ hp he ih =>
      obtain ⟨s₂, he₂, hsound, hstop, -⟩ := ih.1.event ih.2 hp
      rw [he] at he₂
      cases he₂
      exact ⟨hsound, hstop⟩

/-- In every run without a torn stop every event completes and leaves the guest blocks it
does not write as they were. -/
theorem untorn_runs_isolate {s : DiskState} (h : Reached (fun s e => ¬ e.Torn s) s) (e : Event)
    (he : ¬ e.Torn s) : ∃ s', s.event e = some s' ∧ Isolated s e s' := by
  obtain ⟨hsound, hstop⟩ := h.sound
  obtain ⟨s', hev, -, -, hiso⟩ := hsound.event hstop he
  exact ⟨s', hev, hiso⟩

/-! ## A torn stop -/

/-- The image of two guest blocks that `vdi_create_sparse` makes. -/
def twoBlocks : DiskState :=
  (answer (fun _ => []) (vdiCreateSparse 2097152 Mem.zero Mem.zero (newState ⟨0, Mem.zero⟩))).2

theorem twoBlocks_created :
    vdiCreateSparse 2097152 Mem.zero Mem.zero (newState ⟨0, Mem.zero⟩) = .ok () twoBlocks := by
  have hl : layoutFor 2097152 = some ⟨2097152, 2, 512, 1024⟩ := rfl
  obtain ⟨s, hrun, -⟩ := vdiCreateSparse_ok (s := newState ⟨0, Mem.zero⟩) rfl rfl hl Mem.zero Mem.zero
  rw [twoBlocks, hrun]
  rfl

/-- A run of events. -/
def DiskState.events (s : DiskState) : List Event → Option DiskState
  | [] => some s
  | e :: es => (s.event e).bind (fun s' => s'.events es)

theorem Reached.events {P : DiskState → Event → Prop} (hp : ∀ s e, P s e) :
    ∀ (es : List Event) {s s' : DiskState}, Reached P s → s.events es = some s' → Reached P s' := by
  intro es
  induction es with
  | nil =>
      intro s s' h hs
      cases hs
      exact h
  | cons e es ih =>
      intro s s' h hs
      obtain ⟨s₁, h₁, h₂⟩ := Option.bind_eq_some_iff.mp hs
      exact ih (h.step (hp s e) h₁) h₂

/-- The first write stops right after the map entry of block 0; the second write allocates
the same data block for block 1. -/
def tornEvents : List Event := [.stop 0 [1] 17, .write 1048576 [2]]

/-- The run stops after the seventeenth host write, the map entry of a fresh block. From
then on a write to block 1 is a write to block 0. -/
theorem torn_stop_aliases :
    ¬ ∀ s, Reached (fun _ _ => True) s → ∀ e, ∃ s', s.event e = some s' ∧ Isolated s e s' := by
  intro hall
  have hev : (twoBlocks.events tornEvents).isSome = true := by decide +kernel
  obtain ⟨s, hs⟩ := Option.isSome_iff_exists.mp hev
  have hreach := Reached.events (fun _ _ => trivial) tornEvents (.create twoBlocks_created) hs
  obtain ⟨s', he, hiso⟩ := hall s hreach (.write 1048576 [3])
  have hbs : s.disk.blockSize = 1048576 := by
    have h : (twoBlocks.events tornEvents).map (fun s => s.disk.blockSize) = some 1048576 := by
      decide +kernel
    rw [hs] at h
    exact Option.some.inj h
  have hbefore : readBack s 0 1 = some [2] := by
    have h : (twoBlocks.events tornEvents).map (fun s => readBack s 0 1) = some (some [2]) := by
      decide +kernel
    rw [hs] at h
    exact Option.some.inj h
  have hafter : readBack s' 0 1 = some [3] := by
    have h : ((twoBlocks.events tornEvents).bind (·.event (.write 1048576 [3]))).map
        (fun s => readBack s 0 1) = some (some [3]) := by
      decide +kernel
    rw [hs, Option.bind_some, he] at h
    exact Option.some.inj h
  have hsame := hiso 0 1 (by
    intro i j _ hi hj hj'
    simp only [Event.off, Event.len, List.length_cons, List.length_nil] at hj hj'
    rw [hbs]
    omega)
  rw [hbefore, hafter] at hsame
  exact absurd hsame (by decide)

/-- A stop one host write later is not torn: the block is counted, and block 1 gets a data
block of its own. -/
theorem untorn_runs_isolate_counted :
    ∃ s', twoBlocks.event (.stop 0 [1] 18) = some s' ∧ Isolated twoBlocks (.stop 0 [1] 18) s' :=
  untorn_runs_isolate (.create twoBlocks_created) _
    (by show ¬ TornAt twoBlocks 0 1 18; decide +kernel)

end Guppy.Vdisk
