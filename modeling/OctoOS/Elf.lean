import OctoOS.Lib.Prog
import OctoOS.Paging

set_option autoImplicit false

/-! # The ELF loader (`kernel/elf.c`)

The loader is a program over reads of the image, calls of `paging_user_page` and copies into the
frames it answers. Offsets into the image are added to its address in 32 bits, so the byte at
offset `k` of an image is defined for every `k` below 2^32; those at and above its size are
whatever else is in memory there. -/

namespace OctoOS

open Atomic

/-- One step of the loader. -/
inductive ElfOp where
  /-- a read of `len` bytes at `image + off` -/
  | imgLoad (off len : ℕ)
  /-- `paging_user_page(pgdir, va)` -/
  | userPage (va : ℕ)
  /-- stores of consecutive bytes from physical address `a` on -/
  | frameStore (a : ℕ) (data : List UInt8)

def ElfOp.Ans : ElfOp → Type
  | .imgLoad _ _ => List UInt8
  | .userPage _ => ℕ
  | .frameStore _ _ => Unit

def elfSig : Sig := ⟨ElfOp, ElfOp.Ans⟩

/-- The `len` bytes of the image from `off` on. -/
def imageBytes (image : ℕ → UInt8) (off len : ℕ) : List UInt8 :=
  (List.range len).map (fun k => image (w32 (off + k)))

/-- What each step does, for an image and the page directory it is loaded into. -/
def elfHandler (image : ℕ → UInt8) (pgdir : ℕ) : Handler elfSig Phys
  | .imgLoad off len, s => .ok (imageBytes image off len, s)
  | .userPage va, s => .ok (pagingUserPage pgdir va s)
  | .frameStore a data, s => .ok ((), { s with mem := s.mem.write a data })

/-- Programs of the loader. -/
abbrev Elf (α : Type) := Prog elfSig α

def imgLoad (off len : ℕ) : Elf (List UInt8) := perform (S := elfSig) (.imgLoad off len)
def userPage (va : ℕ) : Elf ℕ := perform (S := elfSig) (.userPage va)
def frameStore (a : ℕ) (data : List UInt8) : Elf Unit := perform (S := elfSig) (.frameStore a data)

/-- The little-endian number in bytes `off .. off + n` of a struct. -/
def field (data : List UInt8) (off : ℕ) : ℕ → ℕ
  | 0 => 0
  | n + 1 => (data.getD off 0).toNat + 256 * field data (off + 1) n

/-- The fields of `struct elf32_ehdr` that the loader reads. -/
structure Ehdr where
  ident : List UInt8
  type : ℕ
  machine : ℕ
  entry : ℕ
  phoff : ℕ
  phentsize : ℕ
  phnum : ℕ
  deriving DecidableEq

/-- `sizeof(struct elf32_ehdr)`. -/
def ehdrSize : ℕ := 52

def readEhdr (data : List UInt8) : Ehdr where
  ident := data.take 16
  type := field data 16 2
  machine := field data 18 2
  entry := field data 24 4
  phoff := field data 28 4
  phentsize := field data 42 2
  phnum := field data 44 2

/-- The fields of `struct elf32_phdr` that the loader reads. -/
structure Phdr where
  type : ℕ
  offset : ℕ
  vaddr : ℕ
  filesz : ℕ
  memsz : ℕ
  deriving DecidableEq

/-- `sizeof(struct elf32_phdr)`. -/
def phdrSize : ℕ := 32

def readPhdr (data : List UInt8) : Phdr where
  type := field data 0 4
  offset := field data 4 4
  vaddr := field data 8 4
  filesz := field data 16 4
  memsz := field data 20 4

/-- `PT_LOAD`. -/
def ptLoad : ℕ := 1

/-- The checks of `elf_load` on the file header; `true` is the `return -1`. -/
def badIdent (eh : Ehdr) : Bool :=
  eh.ident.getD 0 0 ≠ 0x7F || eh.ident.getD 1 0 ≠ 0x45 || eh.ident.getD 2 0 ≠ 0x4C ||
    eh.ident.getD 3 0 ≠ 0x46 || eh.ident.getD 4 0 ≠ 1 || eh.ident.getD 5 0 ≠ 1 ||
    eh.type ≠ 2 || eh.machine ≠ 3

/-- The checks on the program header table. The product and the sum are in 32 bits. -/
def badTable (eh : Ehdr) (size : ℕ) : Bool :=
  eh.phentsize < phdrSize || eh.phnum = 0 || size < w32 (eh.phoff + w32 (eh.phnum * eh.phentsize))

/-- The checks on a `PT_LOAD` header, with its sums in 32 bits. -/
def badSegment (ph : Phdr) (size : ℕ) : Bool :=
  ph.memsz < ph.filesz || size < w32 (ph.offset + ph.filesz) || ph.vaddr < userBase ||
    w32 (ph.vaddr + ph.memsz) < ph.vaddr || userBase + userImageMax < w32 (ph.vaddr + ph.memsz)

/-- The rounds given to the loop over the pages of a segment. -/
def pageLoopBound : ℕ := 2 ^ 20

/-- The copy in `load_segment`: the intersection of the page at `va`, whose frame is `frame`, with
    the file data of the segment. -/
def loadPage (ph : Phdr) (va frame : ℕ) : Elf Unit :=
  let start := if ph.vaddr < va then va else ph.vaddr
  let fend := w32 (ph.vaddr + ph.filesz)
  let stop := if w32 (va + frameSize) < fend then w32 (va + frameSize) else fend
  if start < stop then do
    let data ← imgLoad (w32 (ph.offset + sub32 start ph.vaddr)) (stop - start)
    frameStore (w32 (frame + sub32 start va)) data
  else return ()

/-- The loop of `load_segment` from the page at `va` on; `false` is the `return -1`. -/
def loadSegmentLoop (ph : Phdr) : ℕ → ℕ → Elf Bool
  | 0, _ => .stop .diverges
  | fuel + 1, va =>
    if va < w32 (ph.vaddr + ph.memsz) then do
      let frame ← userPage va
      if frame = 0 then return false
      else do
        loadPage ph va frame
        loadSegmentLoop ph fuel (w32 (va + frameSize))
    else return true

/-- `load_segment`. -/
def loadSegment (ph : Phdr) : Elf Bool :=
  loadSegmentLoop ph pageLoopBound (ph.vaddr / frameSize * frameSize)

/-- The address of the `i`-th program header, as an offset into the image. -/
def phdrOffset (eh : Ehdr) (i : ℕ) : ℕ := w32 (eh.phoff + w32 (i * eh.phentsize))

/-- The checks of `elf_load` on the `PT_LOAD` header at `off`; `none` is the `return -1`. The sizes are
    compared before the other two fields are read. -/
def checkPhdr (size off : ℕ) : Elf (Option Phdr) := do
  let sizes ← imgLoad (w32 (off + 16)) 8
  if field sizes 4 4 < field sizes 0 4 then return none
  else do
    let place ← imgLoad (w32 (off + 4)) 8
    let ph : Phdr := ⟨ptLoad, field place 0 4, field place 4 4, field sizes 0 4, field sizes 4 4⟩
    if badSegment ph size then return none else return some ph

/-- The loop of `elf_load` over the `n` program headers from `i` on; `false` is the `return -1`. -/
def elfLoadLoop (eh : Ehdr) (size : ℕ) : ℕ → ℕ → Elf Bool
  | 0, _ => return true
  | n + 1, i => do
    let type := field (← imgLoad (phdrOffset eh i) 4) 0 4
    if type ≠ ptLoad then elfLoadLoop eh size n (i + 1)
    else do
      match ← checkPhdr size (phdrOffset eh i) with
      | none => return false
      | some ph => if ← loadSegment ph then elfLoadLoop eh size n (i + 1) else return false

/-- `elf_load` behind the read of the file header. -/
def elfLoadWith (eh : Ehdr) (size : ℕ) : Elf (Option ℕ) :=
  if badIdent eh then return none
  else if badTable eh size then return none
  else do
    if ← elfLoadLoop eh size eh.phnum 0 then
      if eh.entry < userBase ∨ userBase + userImageMax ≤ eh.entry then return none
      else return some eh.entry
    else return none

/-- `elf_load`: the entry point, or `none` for -1. -/
def elfLoad (size : ℕ) : Elf (Option ℕ) :=
  if size < ehdrSize then return none
  else do elfLoadWith (readEhdr (← imgLoad 0 ehdrSize)) size

end OctoOS
