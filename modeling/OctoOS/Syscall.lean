import OctoOS.File
import OctoOS.Console
import OctoOS.Paging

set_option autoImplicit false

/-! # System calls (`kernel/syscall.c`)

`syscall_dispatch` as a program whose steps are the accesses to the memory of the caller and the
calls into the rest of the kernel. The memory is seen through the page directory of the caller: a
byte at every address, and the addresses whose page is present; an access to any other address is a
page fault in ring 0, from which the kernel does not return. Pointers are 32 bits wide and wrap
around. `file_open` reads the bytes that `strlen` has just read, so its accesses are not repeated. -/

namespace OctoOS

open Atomic

/-- The registers of the caller that a system call reads. -/
structure Regs where
  eax : UInt32
  ebx : UInt32
  ecx : UInt32
  edx : UInt32

/-- The numbers of `syscall.h`. -/
inductive Syscall where
  | exit | putc | getc | puts | ticks | yield | open | close | read | write | getargs
  deriving DecidableEq

/-- The call with a number. -/
def Syscall.ofNumber (n : UInt32) : Option Syscall :=
  match n.toNat with
  | 1 => some .exit
  | 2 => some .putc
  | 3 => some .getc
  | 4 => some .puts
  | 5 => some .ticks
  | 6 => some .yield
  | 7 => some .open
  | 8 => some .close
  | 9 => some .read
  | 10 => some .write
  | 11 => some .getargs
  | _ => none

/-- `user_range`. -/
def userRange (ptr len : UInt32) : Bool := 0x40000000 ≤ ptr && len ≤ 0x40400000 - ptr

/-- One step of a system call. -/
inductive SysOp where
  /-- a byte of the caller's memory -/
  | load (a : ℕ)
  | store (a : ℕ) (b : UInt8)
  | putc (c : UInt8)
  | getc
  | trygetc
  | ticks
  | exit (code : Int)
  | yield
  /-- the string `task_current()->args` -/
  | args
  | open (path : Bytes) (mode : ℕ)
  | close (fd : Int)
  /-- `file_read` up to the copy to the caller -/
  | read (fd : Int) (n : ℕ)
  /-- the checks of `file_write`: whether it comes to its copy -/
  | admits (fd : Int) (n : ℕ)
  | write (fd : Int) (src : Bytes)

def SysOp.Ans : SysOp → Type
  | .load _ => UInt8
  | .getc => UInt8
  | .trygetc => Option UInt8
  | .ticks => ℕ
  | .exit _ => Empty
  | .args => Bytes
  | .open _ _ => Int
  | .close _ => Int
  | .read _ _ => Int × Bytes
  | .admits _ _ => Bool
  | .write _ _ => Int
  | _ => Unit

def sysSig : Sig := ⟨SysOp, SysOp.Ans⟩

abbrev Sys := Prog sysSig

/-- What a system call works on. It comes in with interrupts off; when `console_getc` has had to wait, they
    are on (`intr`), and `others` are the states in which interrupts and other tasks leave the ring, in
    the order in which the call gets to see them. -/
structure SysState where
  mem : Mem
  mapped : ℕ → Bool
  con : Console
  intr : Bool
  others : List Console
  out : Bytes
  ticks : ℕ
  pid : ℕ
  args : Bytes
  files : FileSys

/-- The ring as the next access finds it. -/
def SysState.look (s : SysState) : SysState :=
  match s.intr, s.others with
  | true, con :: rest => { s with con := con, others := rest }
  | _, _ => s

/-- `inbuf[in_tail]`, and the increment of `in_tail`. -/
def SysState.take (s : SysState) : UInt8 × SysState :=
  (s.con.inbuf s.con.inTail, { s with con := { s.con with inTail := s.con.inTail + 1 } })

/-- The wait of `console_getc` on an empty ring; `none` if it never ends. -/
def awaitByte : List Console → Option (Console × List Console)
  | [] => none
  | con :: rest => if con.inHead = con.inTail then awaitByte rest else some (con, rest)

/-- Whether `file_write` comes to its copy. -/
def fileWriteAdmits (files : ℕ → File) (pid : ℕ) (fd : Int) (n : ℕ) : Bool :=
  match getFile files pid fd with
  | none => false
  | some i => (files i).mode = oWronly ∧ w32 ((files i).size + n) ≤ writeCap

section Handler

variable (fs : Fs) (fails : Faults)

/-- A call into `file.c`. -/
def onFiles {α : Type} (s : SysState) (r : Except Stop (α × FileSys)) : Except Stop (α × SysState) :=
  r.map (fun r => (r.1, { s with files := r.2 }))

/-- The meaning of the steps. `task_exit` does not return. -/
def sysHandler : Handler sysSig SysState
  | .load a, s => if s.mapped a then .ok (s.mem a, s) else .error .undefined
  | .store a b, s =>
    if s.mapped a then .ok ((), { s with mem := Function.update s.mem a b }) else .error .undefined
  | .putc c, s => .ok ((), { s with out := s.out ++ [c] })
  | .getc, s =>
    if s.con.inHead = s.con.inTail then
      match awaitByte s.others with
      | none => .error .diverges
      | some (con, rest) => .ok { s with con := con, intr := true, others := rest }.look.take
    else .ok s.look.take
  | .trygetc, s =>
    if s.look.con.inHead = s.look.con.inTail then .ok (none, s.look)
    else .ok (some s.look.look.take.1, s.look.look.take.2)
  | .ticks, s => .ok (s.ticks, s)
  | .exit _, _ => .error .diverges
  | .yield, s => .ok ((), s)
  | .args, s => .ok (s.args, s)
  | .open path mode, s => onFiles s (fileOpen fs fails s.pid path mode s.files)
  | .close fd, s => onFiles s (fileClose fs fails s.pid fd s.files)
  | .read fd n, s => onFiles s (fileRead s.pid fd n s.files)
  | .admits fd n, s => .ok (fileWriteAdmits s.files.files s.pid fd n, s)
  | .write fd src, s => onFiles s (fileWrite s.pid fd src s.files)

end Handler

namespace Sys

def load (a : ℕ) : Sys UInt8 := perform (S := sysSig) (.load a)
def store (a : ℕ) (b : UInt8) : Sys Unit := perform (S := sysSig) (.store a b)
def putc (c : UInt8) : Sys Unit := perform (S := sysSig) (.putc c)
def getc : Sys UInt8 := perform (S := sysSig) .getc
def trygetc : Sys (Option UInt8) := perform (S := sysSig) .trygetc
def ticks : Sys ℕ := perform (S := sysSig) .ticks
def exit (code : Int) : Sys Empty := perform (S := sysSig) (.exit code)
def yield : Sys Unit := perform (S := sysSig) .yield
def args : Sys Bytes := perform (S := sysSig) .args
def openFile (path : Bytes) (mode : ℕ) : Sys Int := perform (S := sysSig) (.open path mode)
def closeFile (fd : Int) : Sys Int := perform (S := sysSig) (.close fd)
def readFile (fd : Int) (n : ℕ) : Sys (Int × Bytes) := perform (S := sysSig) (.read fd n)
def admits (fd : Int) (n : ℕ) : Sys Bool := perform (S := sysSig) (.admits fd n)
def writeFile (fd : Int) (src : Bytes) : Sys Int := perform (S := sysSig) (.write fd src)

section Runs

variable (fs : Fs) (fails : Faults) (s : SysState)

theorem load_run (a : ℕ) : (load a).run (sysHandler fs fails) s
    = if s.mapped a then .ok (s.mem a, s) else .error .undefined :=
  (Prog.run_perform (sysHandler fs fails) (SysOp.load a : sysSig.Op) s).trans rfl

theorem store_run (a : ℕ) (b : UInt8) : (store a b).run (sysHandler fs fails) s
    = if s.mapped a then .ok ((), { s with mem := Function.update s.mem a b })
      else .error .undefined :=
  (Prog.run_perform (sysHandler fs fails) (SysOp.store a b : sysSig.Op) s).trans rfl

end Runs

end Sys

/-! ## Loops over the caller's memory -/

/-- The address of byte `i` at a pointer. -/
def addrOf (ptr : UInt32) (i : ℕ) : ℕ := w32 (ptr.toNat + i)

/-- The `n` bytes from byte `i` on, as `memcpy` loads them. -/
def copyIn (src : UInt32) : ℕ → ℕ → Sys Bytes
  | 0, _ => return []
  | n + 1, i => do
    let b ← Sys.load (addrOf src i)
    return b :: (← copyIn src n (i + 1))

/-- Bytes stored from byte `i` on, as `memcpy` stores them. -/
def copyOut (dst : UInt32) : Bytes → ℕ → Sys Unit
  | [], _ => return ()
  | b :: rest, i => do
    Sys.store (addrOf dst i) b
    copyOut dst rest (i + 1)

/-- `strlen`, with the bytes it passes; it gives up when it has been everywhere. -/
def strlenLoop (s : UInt32) : ℕ → ℕ → Sys Bytes
  | 0, _ => .stop .diverges
  | fuel + 1, i => do
    let c ← Sys.load (addrOf s i)
    if c = 0 then return [] else return c :: (← strlenLoop s fuel (i + 1))

/-- The loop of `SYS_PUTS` over the `n` bytes from byte `i` on. -/
def putsLoop (s : UInt32) : ℕ → ℕ → Sys Unit
  | 0, _ => return ()
  | n + 1, i => do
    let c ← Sys.load (addrOf s i)
    if c = 0 then return ()
    else
      Sys.putc c
      putsLoop s n (i + 1)

/-- The loop of `SYS_WRITE` to the console over the `n` bytes from byte `i` on. -/
def writeConsoleLoop (s : UInt32) : ℕ → ℕ → Sys Unit
  | 0, _ => return ()
  | n + 1, i => do
    Sys.putc (← Sys.load (addrOf s i))
    writeConsoleLoop s n (i + 1)

/-- The loop of `read_console`, with room for `n` more bytes; the number of bytes in the buffer. -/
def drainConsoleLoop (buf : UInt32) : ℕ → ℕ → Sys ℕ
  | 0, got => return got
  | n + 1, got => do
    match ← Sys.trygetc with
    | none => return got
    | some c =>
      Sys.store (addrOf buf got) c
      drainConsoleLoop buf n (got + 1)

/-! ## The calls -/

/-- `(int)(char)c`. -/
def charToInt (c : UInt8) : Int := if c < 0x80 then c.toNat else c.toNat - 256

def sysPuts (r : Regs) : Sys Int :=
  if !userRange r.ebx 1 then return -1
  else do
    putsLoop r.ebx 4096 0
    return 0

def sysOpen (r : Regs) : Sys Int :=
  if !userRange r.ebx 1 then return -1
  else do
    let path ← strlenLoop r.ebx (2 ^ 32) 0
    if 80 < path.length then return -1 else Sys.openFile path r.ecx.toNat

/-- `read_console`. -/
def drainConsole (buf len : UInt32) : Sys Int :=
  if len = 0 then return 0
  else do
    let c ← Sys.getc
    Sys.store (addrOf buf 0) c
    let got ← drainConsoleLoop buf (len.toNat - 1) 1
    return toInt32 got

def sysRead (r : Regs) : Sys Int :=
  if !userRange r.ecx r.edx then return -1
  else if r.ebx = 0 then drainConsole r.ecx r.edx
  else do
    let (n, data) ← Sys.readFile (toInt32 r.ebx.toNat) r.edx.toNat
    copyOut r.ecx data 0
    return n

def sysWrite (r : Regs) : Sys Int :=
  if !userRange r.ecx r.edx then return -1
  else if r.ebx = 1 ∨ r.ebx = 2 then do
    writeConsoleLoop r.ecx r.edx.toNat 0
    return toInt32 r.edx.toNat
  else do
    if ← Sys.admits (toInt32 r.ebx.toNat) r.edx.toNat then
      Sys.writeFile (toInt32 r.ebx.toNat) (← copyIn r.ecx r.edx.toNat 0)
    else return -1

/-- How much of the arguments fits: `len` of `SYS_GETARGS`. -/
def argsLen (args : Bytes) (size : UInt32) : ℕ :=
  if size.toNat < args.length + 1 then (if size ≠ 0 then size.toNat - 1 else 0) else args.length

def sysGetargs (r : Regs) : Sys Int :=
  if !userRange r.ebx r.ecx then return -1
  else do
    let args ← Sys.args
    let len := argsLen args r.ecx
    copyOut r.ebx (args.take len) 0
    Sys.store (addrOf r.ebx len) 0
    return len

/-- `syscall_dispatch`. -/
def syscallDispatch (r : Regs) : Sys Int :=
  match Syscall.ofNumber r.eax with
  | none => return -1
  | some .exit => do
    let e ← Sys.exit (toInt32 r.ebx.toNat)
    e.elim
  | some .putc => do
    Sys.putc (UInt8.ofNat r.ebx.toNat)
    return 0
  | some .getc => do return charToInt (← Sys.getc)
  | some .puts => sysPuts r
  | some .ticks => do return toInt32 (← Sys.ticks)
  | some .yield => do
    Sys.yield
    return 0
  | some .open => sysOpen r
  | some .close => Sys.closeFile (toInt32 r.ebx.toNat)
  | some .read => sysRead r
  | some .write => sysWrite r
  | some .getargs => sysGetargs r

end OctoOS
