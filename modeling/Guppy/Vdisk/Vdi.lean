import Guppy.Vdisk.Host

set_option autoImplicit false

/-! # The VDI backend

`lib/vdisk/src/backend_vdi.c`: creating an image, opening one, and reading and writing guest
bytes. A dynamic image is a header, a block map with one 32-bit entry for each
guest block, and a data area that grows by whole blocks. The entry of a guest block is its
position in the data area, or `vdiBlockUnallocated`.
-/

namespace Guppy.Vdisk

open Prog

def vdiSignature : Nat := 0xBEDA107F
def vdiVersion11 : Nat := 0x00010001
def vdiImageTypeDynamic : Nat := 1
def vdiImageTypeFixed : Nat := 2
def vdiSectorSize : Nat := 512
def vdiBlockSize : Nat := 1048576
def vdiHeaderBytes : Nat := 512
def vdiBlockUnallocated : Nat := 0xFFFFFFFF

/-- `round_up_u64`, in 64-bit arithmetic. -/
def roundUpU64 (n a : Nat) : Nat := (n + a - 1) % (uint64Max + 1) / a * a % (uint64Max + 1)

/-! ## Opening -/

/-- The disk that `vdi_open` fills in from the header `h`. -/
def diskOfHeader (d : Disk) (h : Mem) (hostSize : Nat) : Disk :=
  { sizeBytes := h.rd64 0x170
    dataOffset := h.rd32 0x158
    hostSizeBytes := hostSize
    blockSize := h.rd32 0x178
    blocksOffset := h.rd32 0x154
    blocksCount := h.rd32 0x180
    blocksAllocated := h.rd32 0x184
    imageType := h.rd32 0x4c
    writable := d.writable }

/-- The checks `vdi_open` makes on the header fields alone. -/
def headerBad (h : Mem) : Bool :=
  h.rd32 0x40 ≠ vdiSignature || h.rd32 0x44 ≠ vdiVersion11 || h.rd32 0x48 < 0x180 ||
  (h.rd32 0x4c ≠ vdiImageTypeFixed && h.rd32 0x4c ≠ vdiImageTypeDynamic) ||
  h.rd32 0x168 ≠ vdiSectorSize || h.rd64 0x170 = 0 || h.rd32 0x178 = 0 || h.rd32 0x180 = 0 ||
  h.rd32 0x154 = 0 || h.rd32 0x158 = 0 || h.rd32 0x158 ≤ h.rd32 0x154 || h.rd32 0x17c ≠ 0 ||
  h.rd32 0x180 < h.rd32 0x184

def vdiOpen : Prog DiskState Unit := do
  let h ← vdiskHostRead 0 vdiHeaderBytes
  let hostSize ← vdiskHostGetSize
  let d := diskOfHeader (← get).disk h hostSize
  failIf (headerBad h = true) (-1)
  failIf (d.blocksCount * d.blockSize < d.sizeBytes) (-1)
  if d.imageType = vdiImageTypeFixed then
    failIf (d.blocksAllocated ≠ d.blocksCount ∨ uint64Max - d.dataOffset < d.sizeBytes) (-1)
    failIf (hostSize < d.dataOffset + d.sizeBytes) (-1)
    modify (fun s => { s with disk := d })
  else
    failIf ((uint64Max - d.dataOffset) / d.blockSize < d.blocksAllocated) (-1)
    failIf (hostSize < d.dataOffset + d.blocksAllocated * d.blockSize) (-1)
    modify (fun s => { s with disk := d })

/-! ## Creating a sparse image -/

/-- The bytes of a string literal. -/
def cstr (t : String) : Mem := Mem.ofList t.toUTF8.toList

/-- `init_header`. The two UUIDs come from the caller or from `make_uuid`, which mixes the
clock and an address; here they are given. -/
def initHeader (sizeBytes imageType blocks offBlocks offData : Nat) (imageUuid uuid : Mem) :
    Mem :=
  let h := Mem.zero.write 0 35 (cstr "<<< Guppy VirtualBox Disk Image >>>\n")
  let h := h.wr32 0x40 vdiSignature
  let h := h.wr32 0x44 vdiVersion11
  let h := h.wr32 0x48 0x180
  let h := h.wr32 0x4c imageType
  let h := h.write 0x54 15
    (cstr (if imageType = vdiImageTypeFixed then "Guppy fixed VDI" else "Guppy sparse VDI"))
  let h := h.wr32 0x154 offBlocks
  let h := h.wr32 0x158 offData
  let h := h.wr32 0x168 vdiSectorSize
  let h := h.wr64 0x170 sizeBytes
  let h := h.wr32 0x178 vdiBlockSize
  let h := h.wr32 0x17c 0
  let h := h.wr32 0x180 blocks
  let h := h.wr32 0x184 (if imageType = vdiImageTypeFixed then blocks else 0)
  let h := h.write 0x188 16 imageUuid
  h.write 0x198 16 uuid

/-- Size, block count and the offsets of the map and of the data area. -/
structure Layout where
  sizeBytes : Nat
  blocks : Nat
  offBlocks : Nat
  offData : Nat

/-- `layout_for`: the additions and the rounding are 64-bit. -/
def layoutFor (sizeBytes : Nat) : Option Layout :=
  if sizeBytes = 0 ∨ uint64Max - (vdiSectorSize - 1) < sizeBytes then none
  else
    let size := roundUpU64 sizeBytes vdiSectorSize
    let blocks := (size + vdiBlockSize - 1) % (uint64Max + 1) / vdiBlockSize
    if uint32Max < blocks then none
    else if blocks = 0 then none
    else
      let mapPadded := roundUpU64 (blocks * 4) vdiSectorSize
      if uint32Max - vdiHeaderBytes < mapPadded then none
      else some ⟨size, blocks, vdiHeaderBytes, vdiHeaderBytes + mapPadded⟩

/-- Write `left` zero bytes from `pos` on, at most `chunk` bytes at a time. `fuel` bounds
the number of writes. -/
def zeroFill (chunk : Nat) : Nat → Nat → Nat → Prog DiskState Unit
  | 0, _, _ => pure ()
  | fuel + 1, pos, left =>
      if left = 0 then pure ()
      else do
        let n := min left chunk
        vdiskHostWrite pos n Mem.zero
        zeroFill chunk fuel (pos + n) (left - n)

/-- `write_map` for a sparse image: every entry is unallocated, and the rest of the map
area is zero. -/
def writeMap (blocks offBlocks offData : Nat) : Prog DiskState Unit := do
  let _ ← forLoop (fun i (_ : Unit) =>
    vdiskHostWrite (offBlocks + i * 4) 4 (Mem.le vdiBlockUnallocated)) 0 blocks ()
  let pos := offBlocks + blocks * 4
  zeroFill 4096 (offData - pos) pos (offData - pos)

/-- `write_map`: in a fixed image the entry of a block is its own number. -/
def writeMapOf (fixed : Bool) (blocks offBlocks offData : Nat) : Prog DiskState Unit := do
  let _ ← forLoop (fun i (_ : Unit) =>
    vdiskHostWrite (offBlocks + i * 4) 4 (Mem.le (if fixed = true then i else vdiBlockUnallocated)))
    0 blocks ()
  let pos := offBlocks + blocks * 4
  zeroFill 4096 (offData - pos) pos (offData - pos)

theorem writeMapOf_sparse : writeMapOf false = writeMap := rfl

def vdiCreateSparse (sizeBytes : Nat) (imageUuid uuid : Mem) : Prog DiskState Unit := do
  match layoutFor sizeBytes with
  | none => throw (-1)
  | some l =>
      let h := initHeader l.sizeBytes vdiImageTypeDynamic l.blocks l.offBlocks l.offData
        imageUuid uuid
      vdiskHostWrite 0 vdiHeaderBytes h
      writeMap l.blocks l.offBlocks l.offData
      modify (fun s => { s with disk :=
        { sizeBytes := l.sizeBytes
          dataOffset := l.offData
          hostSizeBytes := l.offData
          blockSize := vdiBlockSize
          blocksOffset := l.offBlocks
          blocksCount := l.blocks
          blocksAllocated := 0
          imageType := vdiImageTypeDynamic
          writable := s.disk.writable } })

/-! ## Creating a fixed image -/

/-- `vdi_create_fixed`: one byte at the very end gives the file its size. -/
def vdiCreateFixed (sizeBytes : Nat) (imageUuid uuid : Mem) : Prog DiskState Unit := do
  match layoutFor sizeBytes with
  | none => throw (-1)
  | some l =>
      failIf (uint64Max - l.offData < l.sizeBytes) (-1)
      let hostSize := l.offData + l.sizeBytes
      let h := initHeader l.sizeBytes vdiImageTypeFixed l.blocks l.offBlocks l.offData
        imageUuid uuid
      vdiskHostWrite 0 vdiHeaderBytes h
      writeMapOf true l.blocks l.offBlocks l.offData
      vdiskHostWrite (hostSize - 1) 1 Mem.zero
      modify (fun s => { s with disk :=
        { sizeBytes := l.sizeBytes
          dataOffset := l.offData
          hostSizeBytes := hostSize
          blockSize := vdiBlockSize
          blocksOffset := l.offBlocks
          blocksCount := l.blocks
          blocksAllocated := l.blocks
          imageType := vdiImageTypeFixed
          writable := s.disk.writable } })

/-- `rc=(flags & VDISK_CREATE_SPARSE) ? drv->create_sparse(d,n) : drv->create(d,n)` -/
def vdiCreate (sparse : Bool) (sizeBytes : Nat) (imageUuid uuid : Mem) : Prog DiskState Unit :=
  if sparse = true then vdiCreateSparse sizeBytes imageUuid uuid
  else vdiCreateFixed sizeBytes imageUuid uuid

/-! ## Reading and writing -/

def boundsOk (d : Disk) (off len : Nat) : Bool := off ≤ d.sizeBytes && len ≤ d.sizeBytes - off

def mapGet (guestBlock : Nat) : Prog DiskState Nat := do
  let d := (← get).disk
  failIf (d.blocksCount ≤ guestBlock) (-1)
  let e ← vdiskHostRead (d.blocksOffset + guestBlock * 4) 4
  pure (e.rd32 0)

def mapSet (guestBlock entry : Nat) : Prog DiskState Unit := do
  let d := (← get).disk
  failIf (d.blocksCount ≤ guestBlock) (-1)
  vdiskHostWrite (d.blocksOffset + guestBlock * 4) 4 (Mem.le entry)

def updateAllocated : Prog DiskState Unit := do
  let d := (← get).disk
  vdiskHostWrite 0x184 4 (Mem.le d.blocksAllocated)

/-- `allocate_block`: zero a fresh block at the end of the data area, publish it in the
map, then count it in the header. -/
def allocateBlock (guestBlock : Nat) : Prog DiskState Nat := do
  let d := (← get).disk
  let entry := d.blocksAllocated
  failIf (d.blocksCount ≤ entry) (-1)
  failIf ((uint64Max - d.dataOffset) / d.blockSize < entry) (-1)
  zeroFill 65536 d.blockSize (d.dataOffset + entry * d.blockSize) d.blockSize
  mapSet guestBlock entry
  modify (fun s => { s with disk :=
    { s.disk with blocksAllocated := (s.disk.blocksAllocated + 1) % (uint32Max + 1) } })
  updateAllocated
  modify (fun s => { s with disk :=
    { s.disk with hostSizeBytes :=
        s.disk.dataOffset + s.disk.blocksAllocated * s.disk.blockSize } })
  pure entry

/-- The part of a guest range of `len` bytes at `off` that lies in the block of `off`. -/
def chunkLen (d : Disk) (off len : Nat) : Nat := min (d.blockSize - off % d.blockSize) len

/-- One iteration of the loop of `vdi_read`: `n` bytes inside the block of `off`. -/
def vdiReadChunk (off n : Nat) : Prog DiskState (List UInt8) := do
  let d := (← get).disk
  let inBlock := off % d.blockSize
  let entry ← mapGet (off / d.blockSize % (uint32Max + 1))
  if entry = vdiBlockUnallocated then pure (List.replicate n (0 : UInt8))
  else do
    failIf (d.blocksAllocated ≤ entry) (-1)
    let b ← vdiskHostRead (d.dataOffset + entry * d.blockSize + inBlock) n
    pure (b.toList 0 n)

/-- The loop of `vdi_read` over the guest blocks of a range; `fuel` bounds the iterations. -/
def vdiReadLoop : Nat → Nat → Nat → Prog DiskState (List UInt8)
  | 0, _, _ => pure []
  | fuel + 1, off, len =>
      if len = 0 then pure []
      else do
        let d := (← get).disk
        let n := chunkLen d off len
        let out ← vdiReadChunk off n
        let rest ← vdiReadLoop fuel (off + n) (len - n)
        pure (out ++ rest)

def vdiRead (off len : Nat) : Prog DiskState (List UInt8) := do
  let d := (← get).disk
  failIf (boundsOk d off len = false) (-1)
  if d.imageType = vdiImageTypeFixed then do
    let b ← vdiskHostRead (d.dataOffset + off) len
    pure (b.toList 0 len)
  else vdiReadLoop len off len

/-- The entry of a guest block that is about to be written, allocated when it has none. -/
def entryForWrite (guestBlock : Nat) : Prog DiskState Nat := do
  let d := (← get).disk
  let entry ← mapGet guestBlock
  if entry = vdiBlockUnallocated then allocateBlock guestBlock
  else do
    failIf (d.blocksAllocated ≤ entry) (-1)
    pure entry

/-- One iteration of the loop of `vdi_write`: the bytes `data`, inside the block of `off`. -/
def vdiWriteChunk (off : Nat) (data : List UInt8) : Prog DiskState Unit := do
  let d := (← get).disk
  let inBlock := off % d.blockSize
  let entry ← entryForWrite (off / d.blockSize % (uint32Max + 1))
  vdiskHostWrite (d.dataOffset + entry * d.blockSize + inBlock) data.length (Mem.ofList data)

/-- The loop of `vdi_write` over the guest blocks of a range. -/
def vdiWriteLoop : Nat → Nat → List UInt8 → Prog DiskState Unit
  | 0, _, _ => pure ()
  | fuel + 1, off, data =>
      if data = [] then pure ()
      else do
        let d := (← get).disk
        let n := chunkLen d off data.length
        vdiWriteChunk off (data.take n)
        vdiWriteLoop fuel (off + n) (data.drop n)

def vdiWrite (off : Nat) (data : List UInt8) : Prog DiskState Unit := do
  let d := (← get).disk
  failIf (d.writable = false ∨ boundsOk d off data.length = false) (-1)
  if d.imageType = vdiImageTypeFixed then
    vdiskHostWrite (d.dataOffset + off) data.length (Mem.ofList data)
  else vdiWriteLoop data.length off data

end Guppy.Vdisk
