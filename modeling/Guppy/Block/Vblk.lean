import Guppy.Lib.Bytes
import Guppy.Vfs.Path

set_option autoImplicit false

/-! # Block devices

`src/diskio.c` maps device keys to attached disks; `src/vblk.c` keeps the registry of block
devices, whole disks and partitions, and translates the offsets of a partition to offsets of
the disk behind it.

The registry is an array that only grows; a slot whose name is empty is free. Names are C
strings in buffers of 32 bytes. `src/diskio.c` takes a key that it does not know for a host
path; the keys of registered devices are known, so this is left out.
-/

namespace Guppy.Block

open Vfs

def uint32 : Nat := 4294967296
def uint64 : Nat := 18446744073709551616

/-- `LSEC`. -/
def lsec : Nat := 512

/-! ## Attached disks -/

/-- An attached disk: its logical size, a 64-bit number, and its bytes. -/
structure Disk where
  size : Nat
  writable : Bool
  bytes : Mem
  size_lt : size < uint64

/-- `vdisk_read`. -/
def Disk.read (k : Disk) (off len : Nat) : Option Mem :=
  if off ≤ k.size ∧ len ≤ k.size - off then some (k.bytes.slice off len) else none

/-- `vdisk_write`. -/
def Disk.write (k : Disk) (off len : Nat) (src : Mem) : Option Disk :=
  if k.writable = true ∧ off ≤ k.size ∧ len ≤ k.size - off then
    some { k with bytes := k.bytes.write off len src }
  else none

/-- The map from device keys to disks. -/
abbrev Diskio := List (Text × Disk)

/-- `map_find_index`. -/
def mapFind (io : Diskio) (key : Text) : Option Disk := (io.find? (fun e => e.1 = key)).map (·.2)

/-- `diskio_pread` of a mapped key. -/
def diskioPread (io : Diskio) (key : Text) (off len : Nat) : Option Mem :=
  (mapFind io key).bind (fun k => k.read off len)

/-- Replace the disk at the first entry of a key. -/
def mapSet (io : Diskio) (key : Text) (k : Disk) : Diskio :=
  match io with
  | [] => []
  | e :: io => if e.1 = key then (key, k) :: io else e :: mapSet io key k

/-- `diskio_pwrite` of a mapped key. -/
def diskioPwrite (io : Diskio) (key : Text) (off len : Nat) (src : Mem) : Option Diskio :=
  ((mapFind io key).bind (fun k => k.write off len src)).map (mapSet io key)

/-- `diskio_size_bytes`. -/
def diskioSizeBytes (io : Diskio) (key : Text) : Nat := ((mapFind io key).map Disk.size).getD 0

def diskioMaxMap : Nat := 64

/-- `diskio_attach_image` with the disk that `vdisk_open` returned. The key is looked up as it
is given, and stored in a buffer of 32 bytes. -/
def diskioAttachImage (io : Diskio) (devkey : Text) (k : Disk) : Option Diskio :=
  if devkey = [] ∨ k.size = 0 then none
  else if (mapFind io devkey).isSome then some (mapSet io devkey k)
  else if diskioMaxMap ≤ io.length then none
  else some (io ++ [(devkey.take 31, k)])

/-- `diskio_detach`. -/
def diskioDetach (io : Diskio) (devkey : Text) : Diskio := io.eraseP (fun e => e.1 = devkey)

/-! ## The registry -/

/-- `vblk_t`. -/
structure Vblk where
  name : Text
  dev : Text
  partIndex : Int
  fstype : Text
  lbaStart : Nat
  lbaSize : Nat
  blockBytes : Nat
  ro : Bool
  deriving DecidableEq

/-- A slot after `memset(&g_vblk[i], 0, sizeof g_vblk[i])`. -/
def Vblk.empty : Vblk := ⟨[], [], 0, [], 0, 0, 0, false⟩

/-- `g_vblk[0]`, ..., `g_vblk[g_vblk_count - 1]`. -/
abbrev Registry := List Vblk

/-- `VBLK_MAX`. -/
def vblkMax : Nat := 256

/-- `find_by_name`: the first slot of that name. -/
def findByName (reg : Registry) (name : Text) : Option Nat :=
  reg.findIdx? (fun e => e.name ≠ [] ∧ e.name = name)

/-- `vblk_by_name`. -/
def vblkByName (reg : Registry) (name : Text) : Option Vblk :=
  (findByName reg name).bind (fun i => reg[i]?)

/-- `vblk_register`: over the entry of that name, else in the first free slot, else in a new
slot. -/
def vblkRegister (reg : Registry) (entry : Vblk) : Option Registry :=
  if entry.name = [] then none
  else
    match findByName reg entry.name with
    | some i => some (reg.set i entry)
    | none =>
        match reg.findIdx? (fun e => e.name = []) with
        | some i => some (reg.set i entry)
        | none => if vblkMax ≤ reg.length then none else some (reg ++ [entry])

def isDigit (c : UInt8) : Bool := 48 ≤ c ∧ c ≤ 57

/-- `name` is `parent` followed by digits, at least one. -/
def isChildName (parent name : Text) : Bool :=
  parent <+: name ∧ name.drop parent.length ≠ [] ∧ (name.drop parent.length).all isDigit

/-- `vblk_remove_children`. -/
def vblkRemoveChildren (reg : Registry) (parent : Text) : Registry :=
  if parent = [] then reg
  else reg.map (fun e => if isChildName parent e.name then Vblk.empty else e)

/-- `base_of`. -/
def baseOf (key : Text) : Text :=
  if key.take 5 = [47, 100, 101, 118, 47] then key.drop 5 else key

/-- `vblk_open`: by name or by backing device, in the order of the slots; then by the name
without `/dev/`. -/
def vblkOpen (reg : Registry) (key : Text) : Option Vblk :=
  if key = [] then none
  else
    match reg.find? (fun e => e.name ≠ [] ∧ (e.name = key ∨ (e.dev ≠ [] ∧ e.dev = key))) with
    | some e => if e.lbaSize = 0 then none else some e
    | none =>
        if baseOf key = key then none
        else
          match reg.find? (fun e => e.name = baseOf key) with
          | some e => if e.lbaSize = 0 then none else some e
          | none => none

/-! ## Input and output -/

/-- `vblk_limit_bytes`. -/
def vblkLimitBytes (dev : Vblk) : Nat :=
  if dev.lbaSize = 0 then uint64 - 1 else dev.lbaSize * lsec % uint64

/-- `vblk_backing_key`. -/
def vblkBackingKey (dev : Vblk) : Text := if dev.dev ≠ [] then dev.dev else dev.name

/-- `dev->lba_start * LSEC + off` -/
def absOff (dev : Vblk) (off : Nat) : Nat := (dev.lbaStart * lsec + off) % uint64

/-- `vblk_read_bytes`. -/
def vblkReadBytes (io : Diskio) (dev : Vblk) (off len : Nat) : Option Mem :=
  if vblkLimitBytes dev < off ∨ vblkLimitBytes dev - off < len then none
  else diskioPread io (vblkBackingKey dev) (absOff dev off) len

/-- `vblk_write_bytes`. -/
def vblkWriteBytes (io : Diskio) (dev : Vblk) (off len : Nat) (src : Mem) : Option Diskio :=
  if dev.ro = true then none
  else if vblkLimitBytes dev < off ∨ vblkLimitBytes dev - off < len then none
  else diskioPwrite io (vblkBackingKey dev) (absOff dev off) len src

/-- `vblk_read_blocks` for one block. -/
def vblkReadBlock (io : Diskio) (dev : Vblk) (lba : Nat) : Option Mem :=
  let bsz := if dev.blockBytes ≠ 0 then dev.blockBytes else lsec
  if (uint64 - 1) / bsz < lba then none else vblkReadBytes io dev (lba * bsz) bsz

/-- `vblk_size_bytes`. -/
def vblkSizeBytes (io : Diskio) (dev : Vblk) : Nat :=
  if dev.lbaSize ≠ 0 then dev.lbaSize * lsec % uint64
  else diskioSizeBytes io (vblkBackingKey dev) - dev.lbaStart * lsec % uint64

end Guppy.Block
