import OctoOS.Heap

set_option autoImplicit false

/-! # The machine under the FAT driver (`kernel/ata.c`, statics of `kernel/fat.c`)

The operations of the FAT driver: sector transfers between the disk and `sector_buf` or a heap
buffer, loads and stores of `sector_buf`, heap calls, the working directory and console output.
Each is one atomic step of a `Prog`; a timer interrupt can come between any two of them.

Whether an access fails is decided by `fails n lba`, for the `n`-th access since boot at `lba`. The
driver itself refuses addresses at or above 2^28 (`ataFails`). A failing access leaves disk and
buffer as they were. -/

namespace OctoOS

open Atomic

abbrev Bytes := List UInt8

-- questions about all members of a list go through the list, not through the type
instance (priority := high) decidableForallMem {α : Type} (l : List α) (p : α → Prop) [DecidablePred p] :
    Decidable (∀ x ∈ l, p x) := List.decidableBAll p l

/-- `SECTOR_SIZE`. -/
def sectorSize : ℕ := 512

/-- The bytes of a sector; only those below `sectorSize` are ever read. -/
abbrev Sector := ℕ → UInt8

abbrev Disk := ℕ → Sector

/-- The statics of `fat.c` (except the mounted geometry `fs`), the disk, the heap and what was
    written to the console. -/
structure FatState where
  disk : Disk
  sectorBuf : Sector
  cwdCluster : UInt16
  cwdPath : Bytes
  heap : Heap
  console : Bytes
  ataCount : ℕ

/-- One step of the driver. -/
inductive FatOp where
  /-- `ata_read(lba, 1, sector_buf)` -/
  | ataRead (lba : ℕ)
  /-- `ata_write(lba, 1, sector_buf)` -/
  | ataWrite (lba : ℕ)
  /-- `ata_read(lba, count, buf)` into the heap block `buf` -/
  | ataReadTo (lba count buf : ℕ)
  /-- `ata_write(lba, count, buf)` from a heap block that holds `data` -/
  | ataWriteFrom (lba count : ℕ) (data : Bytes)
  | bufLoad
  /-- stores of consecutive bytes of `sector_buf` -/
  | bufStore (off : ℕ) (data : Bytes)
  | kmalloc (size : ℕ)
  | kfree (ptr : ℕ)
  /-- stores into bytes `off .. off + len` of the heap block `buf` -/
  | heapStore (buf off len : ℕ)
  | getCwdCluster
  | setCwdCluster (c : UInt16)
  | getCwdPath
  | setCwdPath (path : Bytes)
  | print (text : Bytes)

/-- The answers: `true` for an access that succeeded, `none` for a transfer that did not. -/
def FatOp.Ans : FatOp → Type
  | .ataRead _ => Bool
  | .ataWrite _ => Bool
  | .ataReadTo _ _ _ => Option Bytes
  | .ataWriteFrom _ _ _ => Bool
  | .bufLoad => Sector
  | .kmalloc _ => ℕ
  | .getCwdCluster => UInt16
  | .getCwdPath => Bytes
  | _ => Unit

def fatSig : Sig := ⟨FatOp, FatOp.Ans⟩

/-- Transfer of one sector from `src` over `dst`. -/
def transfer (dst src : Sector) : Sector := fun i => if i < sectorSize then src i else dst i

/-- The first bytes of `data` as a sector. -/
def toSector (data : Bytes) : Sector := fun i => data.getD i 0

/-- The bytes of a sector as a list. -/
def sectorBytes (s : Sector) : Bytes := (List.range sectorSize).map s

/-- `s` with `data` stored from `off` on. -/
def storeBytes (s : Sector) (off : ℕ) (data : Bytes) : Sector :=
  fun i => if off ≤ i ∧ i < off + data.length then data.getD (i - off) 0 else s i

/-- Which accesses to the device fail, by their number and their sector. -/
abbrev Faults := ℕ → ℕ → Bool

abbrev noFaults : Faults := fun _ _ => false

/-- The access limit of `ata_read` and `ata_write`, on top of what the device does. -/
def ataFails (fault : Faults) : Faults :=
  fun n lba => decide (2 ^ 28 ≤ lba) || fault n lba

/-- The loop of `ata_read`: the bytes read (`none` after an error) and the accesses made. -/
def readSectors (fails : Faults) (disk : Disk) : ℕ → ℕ → ℕ → Option Bytes × ℕ
  | 0, n, _ => (some [], n)
  | count + 1, n, lba =>
    if fails n lba then (none, n + 1)
    else
      let r := readSectors fails disk count (n + 1) (lba + 1)
      (r.1.map (sectorBytes (disk lba) ++ ·), r.2)

/-- The loop of `ata_write`. Sectors written before an error stay written. -/
def writeSectors (fails : Faults) : ℕ → ℕ → ℕ → Bytes → Disk → Bool × ℕ × Disk
  | 0, n, _, _, disk => (true, n, disk)
  | count + 1, n, lba, data, disk =>
    if fails n lba then (false, n + 1, disk)
    else writeSectors fails count (n + 1) (lba + 1) (data.drop sectorSize)
      (Function.update disk lba (transfer (disk lba) (toSector data)))

/-- The payload size of the heap block at `ptr`. -/
def Heap.payload (h : Heap) (ptr : ℕ) : ℕ := h.mem (sub32 ptr blockHeader)

/-- What each step does. A store outside a heap block is undefined. -/
def fatHandler (fails : Faults) : Handler fatSig FatState
  | .ataRead lba, st =>
    if fails st.ataCount lba then .ok (false, { st with ataCount := st.ataCount + 1 })
    else .ok (true, { st with
      ataCount := st.ataCount + 1, sectorBuf := transfer st.sectorBuf (st.disk lba) })
  | .ataWrite lba, st =>
    if fails st.ataCount lba then .ok (false, { st with ataCount := st.ataCount + 1 })
    else .ok (true, { st with
      ataCount := st.ataCount + 1,
      disk := Function.update st.disk lba (transfer (st.disk lba) st.sectorBuf) })
  | .ataReadTo lba count buf, st =>
    if st.heap.payload buf < count * sectorSize then .error .undefined
    else
      let r := readSectors fails st.disk count st.ataCount lba
      .ok (r.1, { st with ataCount := r.2 })
  | .ataWriteFrom lba count data, st =>
    let r := writeSectors fails count st.ataCount lba data st.disk
    .ok (r.1, { st with ataCount := r.2.1, disk := r.2.2 })
  | .bufLoad, st => .ok (st.sectorBuf, st)
  | .bufStore off data, st => .ok ((), { st with sectorBuf := storeBytes st.sectorBuf off data })
  | .kmalloc size, st =>
    match st.heap.kmalloc size with
    | .ok (p, heap) => .ok (p, { st with heap := heap })
    | .error w => .error w
  | .kfree ptr, st =>
    match st.heap.kfree ptr with
    | .ok heap => .ok ((), { st with heap := heap })
    | .error w => .error w
  | .heapStore buf off len, st =>
    if st.heap.payload buf < off + len then .error .undefined else .ok ((), st)
  | .getCwdCluster, st => .ok (st.cwdCluster, st)
  | .setCwdCluster c, st => .ok ((), { st with cwdCluster := c })
  | .getCwdPath, st => .ok (st.cwdPath, st)
  | .setCwdPath path, st => .ok ((), { st with cwdPath := path })
  | .print text, st => .ok ((), { st with console := st.console ++ text })

/-- The steps on a device with the faults `fault`, under the access limit. -/
abbrev ataHandler (fault : Faults) : Handler fatSig FatState := fatHandler (ataFails fault)

/-! ## The steps as programs -/

/-- Programs of the FAT driver. -/
abbrev Fat (α : Type) := Prog fatSig α

def ataRead (lba : ℕ) : Fat Bool := perform (S := fatSig) (.ataRead lba)
def ataWrite (lba : ℕ) : Fat Bool := perform (S := fatSig) (.ataWrite lba)
def ataReadTo (lba count buf : ℕ) : Fat (Option Bytes) :=
  perform (S := fatSig) (.ataReadTo lba count buf)
def ataWriteFrom (lba count : ℕ) (data : Bytes) : Fat Bool :=
  perform (S := fatSig) (.ataWriteFrom lba count data)
def bufLoad : Fat Sector := perform (S := fatSig) .bufLoad
def bufStore (off : ℕ) (data : Bytes) : Fat Unit := perform (S := fatSig) (.bufStore off data)
def kmalloc (size : ℕ) : Fat ℕ := perform (S := fatSig) (.kmalloc size)
def kfree (ptr : ℕ) : Fat Unit := perform (S := fatSig) (.kfree ptr)
def heapStore (buf off len : ℕ) : Fat Unit := perform (S := fatSig) (.heapStore buf off len)
def getCwdCluster : Fat UInt16 := perform (S := fatSig) .getCwdCluster
def setCwdCluster (c : UInt16) : Fat Unit := perform (S := fatSig) (.setCwdCluster c)
def getCwdPath : Fat Bytes := perform (S := fatSig) .getCwdPath
def setCwdPath (path : Bytes) : Fat Unit := perform (S := fatSig) (.setCwdPath path)
def print (text : Bytes) : Fat Unit := perform (S := fatSig) (.print text)

/-- The bytes of a string constant of the source. -/
def str (s : String) : Bytes := s.toList.map (fun c => UInt8.ofNat c.toNat)

end OctoOS
