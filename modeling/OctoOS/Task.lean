import OctoOS.File.Owner
import OctoOS.Elf

set_option autoImplicit false

/-! # Tasks (`kernel/task.c`)

The task table, the scheduler's registers (CR3 and the stack pointer in the TSS) and below them the
physical memory, the files and the heap. Task 0 is the shell; the others are processes in ring 3.
A context switch is seen from the table: `ctx_switch` stores the stack pointer of the task that
leaves, which is an argument here, and goes on with the task that comes. The bytes on a kernel stack
are in the `ram` of the files, as all heap payloads are. -/

namespace OctoOS

open Atomic

def maxTasks : ℕ := 8
def kstackSize : ℕ := 4096

def selUcode : ℕ := 0x18 ||| 3
def selUdata : ℕ := 0x20 ||| 3

/-- The privilege level of the segments of `gdt_init`. -/
def gdtDpl (sel : UInt16) : UInt16 := if sel.toNat / 8 = 3 ∨ sel.toNat / 8 = 4 then 3 else 0

/-- `enum task_state`. -/
inductive TaskState where
  | free
  | ready
  | zombie
  deriving DecidableEq

/-- `struct task`. -/
structure Task where
  esp : ℕ
  cr3 : ℕ
  state : TaskState
  kstack : ℕ
  pgdir : ℕ
  pid : ℕ
  exitCode : Int
  name : ℕ → UInt8
  args : ℕ → UInt8

/-- `memset(t, 0, sizeof(*t))`; `TASK_FREE` is 0. -/
def Task.zero : Task := ⟨0, 0, .free, 0, 0, 0, 0, fun _ => 0, fun _ => 0⟩

/-- The statics of `task.c`, the registers and what the tasks hold. -/
structure Kernel where
  tasks : ℕ → Task
  current : ℕ
  nextPid : ℕ
  cr3 : ℕ
  esp0 : ℕ
  phys : Phys
  files : FileSys

/-- `console_puts`. -/
def Kernel.puts (text : Bytes) (s : Kernel) : Kernel :=
  { s with files := { s.files with
      fat := { s.files.fat with console := s.files.fat.console ++ text } } }

/-- The machine before `task_init`: `gdt_init` set `esp0`, and `paging_init` loaded CR3. -/
def Kernel.boot (kdir : ℕ) (phys : Phys) (files : FileSys) : Kernel where
  tasks := fun _ => Task.zero
  current := 0
  nextPid := 1
  cr3 := kdir
  esp0 := 0x90000
  phys := phys
  files := files

/-- `task_init`. -/
def taskInit (kdir : ℕ) (s : Kernel) : Kernel :=
  { s with
    tasks := Function.update s.tasks 0 { s.tasks 0 with
      state := .ready
      cr3 := kdir
      pid := s.nextPid
      name := storeBytes (s.tasks 0).name 0 (str "shell" ++ [0]) }
    nextPid := w32 (s.nextPid + 1)
    current := 0 }

/-! ## `task_spawn_user` -/

/-- The search for a free slot. -/
def freeTask (tasks : ℕ → Task) : Option ℕ :=
  (List.range maxTasks).find? (fun i => (tasks i).state = .free)

/-- The loops that copy the name and the arguments: at most `n` characters, and a NUL. -/
def copyText (dst : ℕ → UInt8) (n : ℕ) (src : Bytes) : ℕ → UInt8 :=
  storeBytes dst 0 ((src.takeWhile (· ≠ 0)).take n ++ [0])

/-- `*--sp = w` for one word after the other. -/
def pushWords : List ℕ → ℕ × Mem → ℕ × Mem
  | [], st => st
  | w :: ws, (sp, ram) => pushWords ws (sub32 sp 4, ram.setWord (sub32 sp 4) w)

/-- What a new kernel stack holds: the frame for `iretd`, the address of `user_entry`, and what
    `ctx_switch` pops. -/
def firstFrame (userEntryAddr entry : ℕ) : List ℕ :=
  [selUdata, userStackTop, 0x202, selUcode, entry, userEntryAddr, 0, 0, 0, 0, 0x002]

section Calls

variable (fs : Fs) (fails : Faults) (kdir userEntryAddr : ℕ)

/-- The end of `task_spawn_user`, when it has everything. -/
def startTask (slot pgdir entry kstack : ℕ) (name args : Bytes) (s : Kernel) : Int × Kernel :=
  let stack := pushWords (firstFrame userEntryAddr entry) (w32 (kstack + kstackSize), s.files.ram)
  let t := s.tasks slot
  (toInt32 s.nextPid, { s with
    tasks := Function.update s.tasks slot
      { esp := stack.1
        cr3 := pgdir
        state := .ready
        kstack := kstack
        pgdir := pgdir
        pid := s.nextPid
        exitCode := 0
        name := copyText t.name 15 name
        args := copyText t.args 63 args }
    nextPid := w32 (s.nextPid + 1)
    files := { s.files with ram := stack.2 } })

/-- `task_spawn_user`. -/
def taskSpawnUser (name : Bytes) (image : ℕ → UInt8) (size : ℕ) (args : Bytes) (s : Kernel) :
    Except Stop (Int × Kernel) :=
  match freeTask s.tasks with
  | none => .ok (-1, s.puts (str "too many tasks\n"))
  | some slot =>
    match pagingNewUser kdir s.phys with
    | (pgdir, phys) =>
      if pgdir = 0 then .ok (-1, { s with phys := phys }.puts (str "out of memory\n"))
      else
        match (elfLoad size).run (elfHandler image pgdir) phys with
        | .error w => .error w
        | .ok (none, phys) =>
          .ok (-1, { s with phys := pagingDestroyUser pgdir phys }.puts
            (str "not a valid executable\n"))
        | .ok (some entry, phys) =>
          match s.files.fat.heap.kmalloc kstackSize with
          | .error w => .error w
          | .ok (kstack, heap) =>
            let files := { s.files with fat := { s.files.fat with heap := heap } }
            if kstack = 0 then
              .ok (-1, { s with phys := pagingDestroyUser pgdir phys, files := files }.puts
                (str "out of memory\n"))
            else
              .ok (startTask userEntryAddr slot pgdir entry kstack name args
                { s with phys := phys, files := files })

/-- `task_reap` of the task in slot `i`. -/
def taskReap (i : ℕ) (s : Kernel) : Except Stop Kernel :=
  let t := s.tasks i
  if t.state ≠ .zombie then .ok s
  else do
    let files ← fileCloseAll fs fails t.pid s.files
    let phys := if t.pgdir ≠ 0 then pagingDestroyUser t.pgdir s.phys else s.phys
    let heap ← if t.kstack ≠ 0 then files.fat.heap.kfree t.kstack else .ok files.fat.heap
    .ok { s with
      tasks := Function.update s.tasks i Task.zero
      phys := phys
      files := { files with fat := { files.fat with heap := heap } } }

/-! ## The scheduler -/

/-- The search of `schedule`: the other tasks in turn, and the current one last. -/
def nextReady (tasks : ℕ → Task) (current : ℕ) : Option ℕ :=
  ((List.range' 1 maxTasks).map (fun i => (current + i) % maxTasks)).find?
    (fun cand => (tasks cand).state = .ready)

/-- The switch of `schedule` to the task `next`; `ctx_switch` stores `esp`. -/
def switchTo (next esp : ℕ) (s : Kernel) : Kernel :=
  let prev := s.tasks s.current
  let dest := s.tasks next
  { s with
    current := next
    esp0 := if dest.kstack ≠ 0 then w32 (dest.kstack + kstackSize) else s.esp0
    cr3 := if dest.cr3 ≠ prev.cr3 then dest.cr3 else s.cr3
    tasks := Function.update s.tasks s.current { prev with esp := esp } }

/-- `schedule`. -/
def schedule (esp : ℕ) (s : Kernel) : Kernel :=
  let next := (nextReady s.tasks s.current).getD s.current
  if next = s.current then s else switchTo next esp s

/-- What `task_exit` does before it calls `schedule`. -/
def markZombie (code : Int) (s : Kernel) : Kernel :=
  let t := s.tasks s.current
  { s with
    tasks := Function.update s.tasks s.current { t with exitCode := code, state := .zombie } }

/-- `task_exit`, up to the switch. -/
def taskExit (code : Int) (esp : ℕ) (s : Kernel) : Kernel := schedule esp (markZombie code s)

/-! ## What happens to the machine -/

/-- A call of a process into `file.c`. -/
inductive FileRequest where
  | open (path : Bytes) (mode : ℕ)
  | read (fd : Int) (n : ℕ)
  | write (fd : Int) (src : Bytes)
  | close (fd : Int)

/-- The request as the process `pid` makes it. -/
def FileRequest.call (pid : ℕ) : FileRequest → FileCall
  | .open path mode => .open pid path mode
  | .read fd n => .read pid fd n
  | .write fd src => .write pid fd src
  | .close fd => .close pid fd

inductive TaskEvent where
  | spawn (name : Bytes) (image : ℕ → UInt8) (size : ℕ) (args : Bytes)
  | reap (i : ℕ)
  /-- The timer interrupt, or `SYS_YIELD`. -/
  | preempt (esp : ℕ)
  /-- `SYS_EXIT`, or a fault in ring 3. -/
  | exit (code : Int) (esp : ℕ)
  /-- The process stores a byte; a store that does not translate is a fault. -/
  | store (va : ℕ) (b : UInt8)
  | file (r : FileRequest)

namespace TaskEvent

/-- Who can do this: the shell alone spawns and reaps. -/
def By (s : Kernel) : TaskEvent → Prop
  | .spawn _ _ _ _ => s.current = 0
  | .reap i => s.current = 0 ∧ i < maxTasks
  | .preempt _ => True
  | .exit _ _ => s.current ≠ 0
  | .store va _ => s.current ≠ 0 ∧ va < 2 ^ 32
  | .file _ => s.current ≠ 0

/-- What it does. -/
def exec (s : Kernel) : TaskEvent → Except Stop Kernel
  | .spawn name image size args =>
    (taskSpawnUser kdir userEntryAddr name image size args s).map Prod.snd
  | .reap i => taskReap fs fails i s
  | .preempt esp => .ok (schedule esp s)
  | .exit code esp => .ok (taskExit code esp s)
  | .store va b =>
    match walk true s.phys.mem s.cr3 va with
    | none => .ok s
    | some pa => .ok { s with phys := { s.phys with mem := Function.update s.phys.mem pa b } }
  | .file r => ((r.call (s.tasks s.current).pid).exec fs fails s.files).map
      (fun x => { s with files := x.2 })

instance (s : Kernel) (e : TaskEvent) : Decidable (e.By s) := by
  cases e <;> unfold TaskEvent.By <;> infer_instance

end TaskEvent

/-- Events one after another; each of them meets `ok`. -/
inductive TaskRun (ok : Kernel → TaskEvent → Prop) (s₀ : Kernel) : List TaskEvent → Kernel → Prop where
  | nil : TaskRun ok s₀ [] s₀
  | snoc {es : List TaskEvent} {s s' : Kernel} {e : TaskEvent} : TaskRun ok s₀ es s → ok s e →
      e.exec fs fails kdir userEntryAddr s = .ok s' → TaskRun ok s₀ (es ++ [e]) s'

end Calls

end OctoOS
