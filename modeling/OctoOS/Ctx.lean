import OctoOS.Lib.X86
import OctoOS.Task

set_option autoImplicit false

/-! # Context switches (`kernel/ctx.asm`, `kernel/task.c`)

The two routines of `ctx.asm` instruction by instruction, and around them the system they are used
in: `task_spawn_user` builds the first frame of a task, `schedule` calls `ctx_switch`, and in between
the running task computes. Memory is what the kernel sees of it, which is the same in every address
space: the task table and the kernel stacks. A task that waits carries, as a record of the past, the
registers it had when it called `ctx_switch`. -/

namespace OctoOS

open X86

/-- `ctx_switch`. -/
def ctxSwitch : List Instr :=
  [.load .eax .esp 4,
   .load .edx .esp 8,
   .push .ebp,
   .push .ebx,
   .push .esi,
   .push .edi,
   .pushfd,
   .store .eax .esp,
   .mov .esp .edx,
   .popfd,
   .pop .edi,
   .pop .esi,
   .pop .ebx,
   .pop .ebp,
   .ret]

/-- `user_entry` in front of its `iretd`. -/
def userSegments : List Instr :=
  [.movLow .eax 0x23,
   .movSeg .ds .eax,
   .movSeg .es .eax,
   .movSeg .fs .eax,
   .movSeg .gs .eax]

/-- `user_entry`. -/
def userEntryCode : List Instr := userSegments ++ [.iretd]

/-- `sizeof(struct task)`: seven words, the name and the arguments. -/
def taskSize : ℕ := 7 * 4 + 16 + 64

/-- Where the table of tasks and `user_entry` lie. -/
structure CtxLayout where
  tasksAddr : ℕ
  userEntryAddr : UInt32
  fits : tasksAddr + maxTasks * taskSize < 2 ^ 32

/-- `&tasks[i].esp`; it is the first field. -/
def CtxLayout.espAt (lay : CtxLayout) (i : ℕ) : ℕ := lay.tasksAddr + i * taskSize

/-- What a task is doing. -/
inductive CtxState where
  | running
  /-- It has called `ctx_switch` with these registers, to go on at `ret`. -/
  | called (c : Cpu) (ret : UInt32)
  /-- `task_spawn_user` has made it; it has not run yet. -/
  | spawned (entry : UInt32)

/-- A task with its kernel stack, the bytes from `lo` up to `hi`. -/
structure CtxTask where
  /-- the field of `struct task`: 0 for the boot task, which has the boot stack -/
  kstack : ℕ
  lo : ℕ
  hi : ℕ
  state : CtxState

structure CtxSys where
  cpu : Cpu
  /-- `tss.esp0` -/
  esp0 : ℕ
  current : ℕ
  tasks : ℕ → Option CtxTask

/-- The ranges `[a, b)` and `[a', b')` have nothing in common. -/
def RangesApart (a b a' b' : ℕ) : Prop := b ≤ a' ∨ b' ≤ a
  deriving Decidable

/-- The table of tasks and a stack have nothing in common. -/
def CtxLayout.Clear (lay : CtxLayout) (lo hi : ℕ) : Prop :=
  RangesApart lo hi lay.tasksAddr (lay.tasksAddr + maxTasks * taskSize)
  deriving Decidable

namespace CtxSys

variable (lay : CtxLayout)

/-- The boot task on the boot stack. -/
def boot (c : Cpu) (esp0 lo hi : ℕ) : CtxSys where
  cpu := c
  esp0 := esp0
  current := 0
  tasks := fun i => if i = 0 then some ⟨0, lo, hi, .running⟩ else none

/-- `tasks[i].esp`. -/
def savedEsp (s : CtxSys) (i : ℕ) : ℕ := s.cpu.mem.word (lay.espAt i)

/-- The bytes that are left alone while the task `t` in slot `i` waits: those of its stack at and
    above the saved stack pointer, and the stack pointer itself. -/
def Kept (s : CtxSys) (i : ℕ) (t : CtxTask) (a : ℕ) : Prop :=
  (s.savedEsp lay i ≤ a ∧ a < t.hi) ∨ (lay.espAt i ≤ a ∧ a < lay.espAt i + 4)

/-- What the running task may make of the machine. -/
def MayBecome (s : CtxSys) (c : Cpu) : Prop :=
  ∀ i t, s.tasks i = some t → i ≠ s.current → ∀ a, s.Kept lay i t a → c.mem a = s.cpu.mem a

/-- A new kernel stack at `kstack` for slot `i`: below 4 GiB and away from everything else. -/
structure HasRoom (s : CtxSys) (i kstack : ℕ) : Prop where
  slot : i < maxTasks
  free : s.tasks i = none
  pos : 0 < kstack
  below : kstack + kstackSize < 2 ^ 32
  clear : lay.Clear kstack (kstack + kstackSize)
  apart : ∀ k t, s.tasks k = some t → RangesApart kstack (kstack + kstackSize) t.lo t.hi

/-- The end of `task_spawn_user`, as in `startTask`. -/
def spawn (i kstack : ℕ) (entry : UInt32) (s : CtxSys) : CtxSys :=
  let stack := pushWords (firstFrame lay.userEntryAddr.toNat entry.toNat)
    (w32 (kstack + kstackSize), s.cpu.mem)
  { s with
    cpu := { s.cpu with mem := stack.2.setWord (lay.espAt i) stack.1 }
    tasks := Function.update s.tasks i (some ⟨kstack, kstack, kstack + kstackSize, .spawned entry⟩) }

/-- The running task is about to execute `call ctx_switch` for the task in slot `j`: in ring 0, with
    `&prev->esp` and `to->esp` on top of its stack and room on it for what is pushed. -/
structure Calls (s : CtxSys) (j : ℕ) : Prop where
  other : j ≠ s.current
  ring : s.cpu.seg .cs &&& 3 = 0
  oldEsp : s.cpu.mem.word (s.cpu.reg .esp).toNat = lay.espAt s.current
  newEsp : s.cpu.mem.word ((s.cpu.reg .esp).toNat + 4) = s.savedEsp lay j
  room : ∀ t, s.tasks s.current = some t →
    t.lo + 24 ≤ (s.cpu.reg .esp).toNat ∧ (s.cpu.reg .esp).toNat + 8 ≤ t.hi

/-- `schedule` from `tss_set_esp0` on; the call of `ctx_switch` pushes `ret`. -/
def switch (j : ℕ) (ret : UInt32) (s : CtxSys) (t : CtxTask) : CtxSys where
  cpu := run gdtDpl ctxSwitch (s.cpu.push ret)
  esp0 := if t.kstack ≠ 0 then w32 (t.kstack + kstackSize) else s.esp0
  current := j
  tasks := Function.update (Function.update s.tasks s.current
      ((s.tasks s.current).map (fun p => { p with state := .called s.cpu ret })))
    j (some { t with state := .running })

end CtxSys

/-- What can happen, from the boot task on. -/
inductive CtxRun (lay : CtxLayout) : CtxSys → Prop where
  | boot (c : Cpu) (esp0 lo hi : ℕ) : hi < 2 ^ 32 → lay.Clear lo hi →
      CtxRun lay (CtxSys.boot c esp0 lo hi)
  | compute {s : CtxSys} (c : Cpu) : CtxRun lay s → s.MayBecome lay c → CtxRun lay { s with cpu := c }
  | spawn {s : CtxSys} (i kstack : ℕ) (entry : UInt32) : CtxRun lay s → s.HasRoom lay i kstack →
      CtxRun lay (s.spawn lay i kstack entry)
  | reap {s : CtxSys} (i : ℕ) : CtxRun lay s → i ≠ s.current →
      CtxRun lay { s with tasks := Function.update s.tasks i none }
  | switch {s : CtxSys} {t : CtxTask} (j : ℕ) (ret : UInt32) : CtxRun lay s → s.Calls lay j →
      s.tasks j = some t → CtxRun lay (s.switch j ret t)

/-- The machine is at `user_entry`, and `user_entry` starts the process: its `iretd` finds the frame
    for ring 3 as the last words of the kernel stack that ends at `esp0`. -/
structure EntersUser (lay : CtxLayout) (entry : UInt32) (s : CtxSys) : Prop where
  start : s.cpu.eip = lay.userEntryAddr
  frame : (run gdtDpl userSegments s.cpu).Has [entry, UInt32.ofNat selUcode, 0x202, UInt32.ofNat userStackTop,
    UInt32.ofNat selUdata]
  empty : ((run gdtDpl userSegments s.cpu).reg .esp).toNat + 4 * 5 = s.esp0
  eip : (run gdtDpl userEntryCode s.cpu).eip = entry
  eflags : (run gdtDpl userEntryCode s.cpu).eflags.val = 0x202
  esp : (run gdtDpl userEntryCode s.cpu).reg .esp = UInt32.ofNat userStackTop
  cs : (run gdtDpl userEntryCode s.cpu).seg .cs = UInt16.ofNat selUcode
  data : ∀ g, g ≠ .cs → (run gdtDpl userEntryCode s.cpu).seg g = UInt16.ofNat selUdata

/-- The task `t` goes on in the state `s`: behind its call of `ctx_switch`, with the registers it had
    there, or in ring 3 at the entry point of its program. -/
def CtxTask.Resumes (lay : CtxLayout) (t : CtxTask) (s : CtxSys) : Prop :=
  match t.state with
  | .running => False
  | .called c ret => s.cpu.eip = ret ∧ s.cpu.eflags = c.eflags ∧
      ∀ r ∈ [Reg.ebp, .ebx, .esi, .edi, .esp], s.cpu.reg r = c.reg r
  | .spawned entry => EntersUser lay entry s

end OctoOS
