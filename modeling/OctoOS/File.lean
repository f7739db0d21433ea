import OctoOS.Fat
import Mathlib.Algebra.Group.Int.Defs

set_option autoImplicit false

/-! # File descriptors (`kernel/file.c`)

The table `files[]` over the FAT driver. Reads buffer the whole file at open; writes accumulate in
a buffer and go to the disk at close. The bytes in the buffers are kept in `ram`; what the driver
does inside its own transfer buffers is not part of it, since no slot points there. `abs_path` copies
the working directory into the path of a slot before it looks at the length, so its stores are
those of the C code, byte by byte, on the layout of `struct file`. -/

namespace OctoOS

open Atomic

def maxFiles : ℕ := 16
def fdBase : Int := 3
def writeCap : ℕ := 64 * 1024
def pathMax : ℕ := 96

def oRdonly : ℕ := 0
def oWronly : ℕ := 1

/-- `struct file`. -/
structure File where
  used : ℕ
  pid : ℕ
  mode : ℕ
  path : ℕ → UInt8
  buf : ℕ
  size : ℕ
  pos : ℕ

/-- `memset(f, 0, sizeof(*f))`. -/
def File.zero : File := ⟨0, 0, 0, fun _ => 0, 0, 0, 0⟩

/-- `sizeof(struct file)`. -/
def sizeofFile : ℕ := 120

/-- `offsetof(struct file, path)`. -/
def pathOffset : ℕ := 12

/-- A word with its byte `k` replaced. -/
def setByte (w k : ℕ) (c : UInt8) : ℕ := w - w / 256 ^ k % 256 * 256 ^ k + c.toNat * 256 ^ k

/-- A store to byte `k` of a `struct file`. -/
def File.setByte (f : File) (k : ℕ) (c : UInt8) : File :=
  if k < 4 then { f with used := OctoOS.setByte f.used k c }
  else if k < 8 then { f with pid := OctoOS.setByte f.pid (k - 4) c }
  else if k < 12 then { f with mode := OctoOS.setByte f.mode (k - 8) c }
  else if k < 108 then { f with path := Function.update f.path (k - 12) c }
  else if k < 112 then { f with buf := OctoOS.setByte f.buf (k - 108) c }
  else if k < 116 then { f with size := OctoOS.setByte f.size (k - 112) c }
  else { f with pos := OctoOS.setByte f.pos (k - 116) c }

/-- Stores from byte `off` of `files[]` on; behind the last slot they are undefined. -/
def storeFiles (files : ℕ → File) (off : ℕ) : Bytes → Option (ℕ → File)
  | [] => some files
  | c :: cs =>
    if off < maxFiles * sizeofFile then
      let i := off / sizeofFile
      storeFiles (Function.update files i ((files i).setByte (off % sizeofFile) c)) (off + 1) cs
    else none

/-- What `abs_path` copies in front of a path. -/
def cwdPart (cwd path : Bytes) : Bytes :=
  if path.head? = some slash then []
  else if 1 < cwd.length then cwd ++ [slash]
  else cwd

/-- The absolute form of a path. -/
def absText (cwd path : Bytes) : Bytes := cwdPart cwd path ++ path

/-- `abs_path` to the path of slot `i`: whether it succeeded, and the table. -/
def absPath (cwd path : Bytes) (i : ℕ) (files : ℕ → File) : Option (Bool × (ℕ → File)) := do
  let out := i * sizeofFile + pathOffset
  let n := (cwdPart cwd path).length
  let files ← storeFiles files out (cwdPart cwd path)
  if pathMax < n + path.length + 1 then return (false, files)
  else return (true, ← storeFiles files (out + n) (path ++ [0]))

/-- The string in the path of a slot. -/
def File.pathText (f : File) : Bytes := ((List.range pathMax).map f.path).takeWhile (· ≠ 0)

/-- The table, the driver below it, and the bytes in the buffers. -/
structure FileSys where
  fat : FatState
  files : ℕ → File
  ram : ℕ → UInt8

/-- The `n` bytes at an address. -/
def loadBytes (ram : ℕ → UInt8) (a n : ℕ) : Bytes := (List.range n).map (fun k => ram (a + k))

/-- `(int)n`. -/
def toInt32 (n : ℕ) : Int := if n < 2 ^ 31 then n else n - 2 ^ 32

/-- `get`: the index of the slot. -/
def getFile (files : ℕ → File) (pid : ℕ) (fd : Int) : Option ℕ :=
  let i := fd - fdBase
  if i < 0 ∨ maxFiles ≤ i ∨ (files i.toNat).used = 0 ∨ (files i.toNat).pid ≠ pid then none
  else some i.toNat

/-- The search of `file_open` for an unused slot. -/
def freeSlotLoop (files : ℕ → File) : ℕ → ℕ → Option ℕ
  | 0, _ => none
  | n + 1, i => if (files i).used = 0 then some i else freeSlotLoop files n (i + 1)

/-- The bytes that a close hands to `fat_write_file`, with their path. -/
def FileSys.pending (s : FileSys) (f : File) : Bytes × Bytes :=
  (f.pathText, loadBytes s.ram f.buf f.size)

section Calls

variable (fs : Fs) (fails : Faults)

/-- The end of `file_open`. -/
def openSlot (pid mode i : ℕ) (f : File) (s : FileSys) : Int × FileSys :=
  (i + fdBase, { s with files := Function.update s.files i { f with used := 1, pid := pid, mode := mode } })

/-- `file_open`. -/
def fileOpen (pid : ℕ) (path : Bytes) (mode : ℕ) (s : FileSys) : Except Stop (Int × FileSys) :=
  match freeSlotLoop s.files maxFiles 0 with
  | none => .ok (-1, s)
  | some i =>
    match absPath s.fat.cwdPath path i (Function.update s.files i File.zero) with
    | none => .error .undefined
    | some (false, files) => .ok (-1, { s with files := files })
    | some (true, files) =>
      let f := files i
      if mode = oRdonly then
        match (fatReadFile fs f.pathText).run (fatHandler fails) s.fat with
        | .error w => .error w
        | .ok (none, fat) => .ok (-1, { s with fat := fat, files := files })
        | .ok (some (buf, data), fat) =>
          .ok (openSlot pid mode i { f with buf := buf, size := data.length }
            ⟨fat, files, storeBytes s.ram buf data⟩)
      else if mode = oWronly then
        match s.fat.heap.kmalloc writeCap with
        | .error w => .error w
        | .ok (buf, heap) =>
          let s := { s with fat := { s.fat with heap := heap }, files := files }
          if buf = 0 then .ok (-1, s)
          else .ok (openSlot pid mode i { f with buf := buf } s)
      else .ok (-1, { s with files := files })

/-- The write of `file_close`. -/
def closeWrite (f : File) (s : FileSys) : Except Stop (Int × FatState) :=
  if f.mode = oWronly then
    (fatWriteFile fs (s.pending f).1 (s.pending f).2).run (fatHandler fails) s.fat
  else .ok (0, s.fat)

/-- `file_close` of the slot `i`, after the check. -/
def closeSlot (i : ℕ) (s : FileSys) : Except Stop (Int × FileSys) := do
  let f := s.files i
  let (rc, fat) ← closeWrite fs fails f s
  let heap ← fat.heap.kfree f.buf
  .ok (rc, { s with
    fat := { fat with heap := heap }, files := Function.update s.files i { f with used := 0 } })

/-- `file_close`. -/
def fileClose (pid : ℕ) (fd : Int) (s : FileSys) : Except Stop (Int × FileSys) :=
  match getFile s.files pid fd with
  | none => .ok (-1, s)
  | some i => closeSlot fs fails i s

/-- `file_read`: the result and the bytes stored at `dst`. A load outside the buffer is
    undefined. -/
def fileRead (pid : ℕ) (fd : Int) (n : ℕ) (s : FileSys) : Except Stop ((Int × Bytes) × FileSys) :=
  match getFile s.files pid fd with
  | none => .ok ((-1, []), s)
  | some i =>
    let f := s.files i
    if f.mode ≠ oRdonly then .ok ((-1, []), s)
    else
      let left := sub32 f.size f.pos
      let n := if left < n then left else n
      if s.fat.heap.payload f.buf < f.pos + n then .error .undefined
      else .ok ((toInt32 n, loadBytes s.ram (f.buf + f.pos) n),
        { s with files := Function.update s.files i { f with pos := w32 (f.pos + n) } })

/-- `file_write` of the bytes at `src`. A store outside the buffer is undefined. -/
def fileWrite (pid : ℕ) (fd : Int) (src : Bytes) (s : FileSys) : Except Stop (Int × FileSys) :=
  match getFile s.files pid fd with
  | none => .ok (-1, s)
  | some i =>
    let f := s.files i
    let n := src.length
    if f.mode ≠ oWronly then .ok (-1, s)
    else if writeCap < w32 (f.size + n) then .ok (-1, s)
    else if s.fat.heap.payload f.buf < f.size + n then .error .undefined
    else .ok (toInt32 n, { s with
      files := Function.update s.files i { f with size := w32 (f.size + n) }
      ram := storeBytes s.ram (f.buf + f.size) src })

/-- The loop of `file_close_all` over the `n` slots from `i` on. -/
def fileCloseAllLoop (pid : ℕ) : ℕ → ℕ → FileSys → Except Stop FileSys
  | 0, _, s => .ok s
  | n + 1, i, s =>
    if (s.files i).used ≠ 0 ∧ (s.files i).pid = pid then do
      let (_, s) ← fileClose fs fails pid (i + fdBase) s
      fileCloseAllLoop pid n (i + 1) s
    else fileCloseAllLoop pid n (i + 1) s

/-- `file_close_all`. -/
def fileCloseAll (pid : ℕ) (s : FileSys) : Except Stop FileSys :=
  fileCloseAllLoop fs fails pid maxFiles 0 s

end Calls

end OctoOS
