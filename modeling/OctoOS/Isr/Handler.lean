import OctoOS.Isr
import OctoOS.Keyboard
import OctoOS.Console.Printf
import OctoOS.Lib.Pic

set_option autoImplicit false

/-! # The interrupt handler (`isr_handler` and `pic_remap` of `kernel/idt.c`)

`isr_handler` is a program of port accesses and calls into the rest of the kernel. Its only loop, over
the bytes of the serial line, is unbounded, so the program stops at the head of the loop and says where
it goes on. -/

namespace OctoOS

open Atomic

/-- What the handler does to the machine and the rest of the kernel. -/
inductive IsrOp where
  | inb (port : UInt16)
  | outb (port : UInt16) (v : UInt8)
  | timerTick
  /-- load `shift`, `caps` and `ext` -/
  | keys
  | setKeys (k : Keyboard)
  | consoleInput (c : UInt8)
  | schedPreempt
  /-- `syscall_dispatch` -/
  | syscall (r : IsrRegs)
  /-- `task_current`: its name and its pid -/
  | current
  | kprintf (fmt : Bytes) (args : List Arg)
  /-- does not return -/
  | taskExit (code : UInt32)
  /-- `cli; hlt` for ever -/
  | halt

def IsrOp.Ans : IsrOp → Type
  | .inb _ => UInt8
  | .keys => Keyboard
  | .syscall _ => UInt32
  | .current => Bytes × UInt32
  | .taskExit _ => Empty
  | .halt => Empty
  | _ => Unit

def isrSig : Sig := ⟨IsrOp, IsrOp.Ans⟩

/-- Where a part of the handler ends. -/
inductive IsrExit where
  /-- it returns, with the frame as it is then -/
  | done (r : IsrRegs)
  /-- it goes on at the head of the loop over the serial line -/
  | serial (r : IsrRegs)

abbrev IsrProg := Prog isrSig

namespace IsrProg

def inb (port : UInt16) : IsrProg UInt8 := perform (S := isrSig) (.inb port)
def outb (port : UInt16) (v : UInt8) : IsrProg Unit := perform (S := isrSig) (.outb port v)
def timerTick : IsrProg Unit := perform (S := isrSig) .timerTick
def keys : IsrProg Keyboard := perform (S := isrSig) .keys
def setKeys (k : Keyboard) : IsrProg Unit := perform (S := isrSig) (.setKeys k)
def consoleInput (c : UInt8) : IsrProg Unit := perform (S := isrSig) (.consoleInput c)
def schedPreempt : IsrProg Unit := perform (S := isrSig) .schedPreempt
def syscallDispatch (r : IsrRegs) : IsrProg UInt32 := perform (S := isrSig) (.syscall r)
def taskCurrent : IsrProg (Bytes × UInt32) := perform (S := isrSig) .current
def kprintf (fmt : Bytes) (args : List Arg) : IsrProg Unit := perform (S := isrSig) (.kprintf fmt args)
def taskExit (code : UInt32) : IsrProg Empty := perform (S := isrSig) (.taskExit code)
def halt : IsrProg Empty := perform (S := isrSig) .halt

end IsrProg

/-- `exception_names`. -/
def exceptionNames : List String :=
  ["divide error", "debug", "NMI", "breakpoint", "overflow", "bound range", "invalid opcode",
    "device not available", "double fault", "coprocessor overrun", "invalid TSS", "segment not present",
    "stack fault", "general protection", "page fault", "reserved", "x87 FP", "alignment check",
    "machine check", "SIMD FP", "virtualization", "control protection", "reserved", "reserved",
    "reserved", "reserved", "reserved", "reserved", "hypervisor", "VMM communication", "security",
    "reserved"]

def exceptionName (n : UInt32) : Bytes := str (exceptionNames.getD n.toNat "")

/-- The end of `keyboard_irq`, for a code that has a character. -/
def keyboardInput : Option UInt8 → IsrProg Unit
  | some c => IsrProg.consoleInput c
  | none => return ()

/-- `keyboard_irq`. -/
def keyboardIrq : IsrProg Unit := do
  let sc ← IsrProg.inb 0x60
  let k ← IsrProg.keys
  IsrProg.setKeys (k.irq sc).1
  keyboardInput (k.irq sc).2

/-- The end of `isr_handler`: the end of interrupt. -/
def sendEoi (r : IsrRegs) : IsrProg IsrExit := do
  if 40 ≤ r.intNo then IsrProg.outb 0xA0 0x20
  IsrProg.outb 0x20 0x20
  return .done r

/-- The loop over the serial line, one turn of it, and what follows it. -/
def serialLoop (r : IsrRegs) : IsrProg IsrExit := do
  if (← IsrProg.inb 0x3FD) &&& 0x01 ≠ 0 then
    IsrProg.consoleInput (← IsrProg.inb 0x3F8)
    return .serial r
  else sendEoi r

/-- `isr_handler` for an exception. -/
def isrException (r : IsrRegs) : IsrProg IsrExit := do
  if r.cs &&& 3 = 3 then
    let (name, pid) ← IsrProg.taskCurrent
    IsrProg.kprintf (str "\n%s in '%s' (pid %d) at %p -- killed\n")
      [.str (some (exceptionName r.intNo)), .str (some name), .word pid, .word r.eip]
    let e ← IsrProg.taskExit 0xFFFFFFFF
    nomatch e
  else
    IsrProg.kprintf (str "\nPANIC: exception %u (%s), err=%x, eip=%p\n")
      [.word r.intNo, .str (some (exceptionName r.intNo)), .word r.errCode, .word r.eip]
    let e ← IsrProg.halt
    nomatch e

/-- `isr_handler`. -/
def isrHandler (r : IsrRegs) : IsrProg IsrExit :=
  if r.intNo < 32 then isrException r
  else if r.intNo = 128 then do
    let v ← IsrProg.syscallDispatch r
    return .done { r with eax := v }
  else if r.intNo = 32 then do
    IsrProg.timerTick
    IsrProg.outb 0x20 0x20
    IsrProg.schedPreempt
    return .done r
  else if r.intNo = 33 then do
    keyboardIrq
    sendEoi r
  else if r.intNo = 36 then return .serial r
  else sendEoi r

/-! ## The interrupt controllers -/

/-- `io_wait`. -/
def ioWait : PortIo.Driver Unit := PortIo.outb 0x80 0

/-- `pic_remap`. -/
def picRemap : PortIo.Driver Unit := do
  PortIo.outb 0x20 0x11; ioWait
  PortIo.outb 0xA0 0x11; ioWait
  PortIo.outb 0x21 0x20; ioWait
  PortIo.outb 0xA1 0x28; ioWait
  PortIo.outb 0x21 0x04; ioWait
  PortIo.outb 0xA1 0x02; ioWait
  PortIo.outb 0x21 0x01; ioWait
  PortIo.outb 0xA1 0x01; ioWait
  PortIo.outb 0x21 (~~~0x17)
  PortIo.outb 0xA1 0xFF

open Pic

/-- A controller without requests, and without a line in service. -/
def restingChip (offset mask : ℕ) : Chip :=
  ⟨fun _ => false, fun _ => false, mask.testBit, offset, []⟩

/-- `pic_remap` on controllers in any state: requests from before are lost. -/
theorem picRemap_run (p : Pair) :
    picRemap.run device.handler p = .ok ((), ⟨restingChip 32 0xE8, restingChip 40 0xFF⟩) := rfl

end OctoOS
