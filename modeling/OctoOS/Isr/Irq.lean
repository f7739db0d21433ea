import OctoOS.Isr.Handler

set_option autoImplicit false

/-! # Interrupts and tasks together

The machine: the interrupt controllers, the keyboard controller and the UART, and the tasks with what
each of them is doing. A task runs ordinary code (of a program or of the kernel), or the interrupt handler,
or a system call that the handler has called; below that lies what was interrupted, each with the
interrupt flag of its frame. Anything may happen in any order: devices request, the processor accepts a
request when interrupts are on, the running code does its next operation, and the timer handler or the
code switches to another task.

The order of the end of interrupt and the switch in the timer handler is what this rests on: a
controller has a line in service only while the running task is in the handler of that line, with
interrupts off. So whenever interrupts are on nothing is in service, every request that is not masked is
accepted, and the end of interrupt that the handler sends is the one for its own line.

Code between the interrupts is not modelled: it may switch interrupts on and off, call `schedule`, trap
and exit at any time, and `schedule` may choose any task. The handler itself does not fault, and there is
no non-maskable interrupt. -/

namespace OctoOS

open Atomic Pic

/-! ## The machine -/

/-- The keyboard controller: its output buffer, and the codes that wait for it. -/
structure Ps2 where
  out : Option UInt8
  queue : List UInt8

/-- The receiver of the UART: its FIFO, and its interrupt line. -/
structure Uart where
  fifo : List UInt8
  line : Bool

/-- What a task is doing. -/
inductive Work where
  | code
  | isr (p : IsrProg IsrExit)
  /-- in `syscall_dispatch`, called by the handler -/
  | call (k : UInt32 → IsrProg IsrExit)

/-- Not in the handler. -/
def Work.Code : Work → Prop
  | .isr _ => False
  | _ => True

/-- A task: its interrupt flag, what it is doing, and what was interrupted for it. -/
structure Context where
  ifl : Bool
  work : Work
  below : List (Bool × Work)

structure IrqSys where
  pic : Pair
  ps2 : Ps2
  uart : Uart
  ticks : UInt32
  keys : Keyboard
  cur : ℕ
  tasks : ℕ → Option Context

/-- What a handler read from a device. -/
inductive Reading where
  | scan (sc : UInt8)
  | byte (b : UInt8)

/-- What is seen from outside: what the devices receive, what the handlers read from them, and what
    reaches `console_input`. -/
inductive IrqEvent where
  | typed (sc : UInt8)
  | arrived (b : UInt8)
  | reading (r : Reading)
  | input (c : UInt8)

/-- The running task becomes `c`. -/
def IrqSys.put (s : IrqSys) (c : Context) : IrqSys :=
  { s with tasks := Function.update s.tasks s.cur (some c) }

/-- The stub of vector `r.intNo` calls `isr_handler`. -/
def IrqSys.enter (s : IrqSys) (c : Context) (r : IsrRegs) : IrqSys :=
  s.put ⟨false, .isr (isrHandler r), (c.ifl, c.work) :: c.below⟩

/-- An operation of the handler that returns at once. A device may give any answer that its state
    allows. -/
inductive IsrAnswers : (o : IsrOp) → o.Ans → IrqSys → List IrqEvent → IrqSys → Prop
  | scan {s : IrqSys} {sc : UInt8} {q : List UInt8} (hout : s.ps2 = ⟨some sc, q⟩) :
      IsrAnswers (.inb 0x60) sc s [.reading (.scan sc)] { s with ps2 := ⟨none, q⟩ }
  | stale {s : IrqSys} (hout : s.ps2.out = none) (v : UInt8) : IsrAnswers (.inb 0x60) v s [] s
  | status {s : IrqSys} {v : UInt8} (hv : v &&& 0x01 ≠ 0 ↔ s.uart.fifo ≠ []) :
      IsrAnswers (.inb 0x3FD) v s [] s
  -- The line falls with the last byte, and it may fall before.
  | receive {s : IrqSys} {b : UInt8} {rest : List UInt8} (hfifo : s.uart.fifo = b :: rest) (line : Bool)
      (hline : line = true → rest ≠ [] ∧ s.uart.line = true) :
      IsrAnswers (.inb 0x3F8) b s [.reading (.byte b)] { s with uart := ⟨rest, line⟩ }
  | empty {s : IrqSys} (hfifo : s.uart.fifo = []) (v : UInt8) : IsrAnswers (.inb 0x3F8) v s [] s
  | outb (s : IrqSys) (port : UInt16) (v : UInt8) :
      IsrAnswers (.outb port v) () s [] { s with pic := s.pic.outb port v }
  | timerTick (s : IrqSys) : IsrAnswers .timerTick () s [] { s with ticks := s.ticks + 1 }
  | keys (s : IrqSys) : IsrAnswers .keys s.keys s [] s
  | setKeys (s : IrqSys) (k : Keyboard) : IsrAnswers (.setKeys k) () s [] { s with keys := k }
  | consoleInput (s : IrqSys) (c : UInt8) : IsrAnswers (.consoleInput c) () s [.input c] s
  | current (s : IrqSys) (name : Bytes) (pid : UInt32) : IsrAnswers .current (name, pid) s [] s
  | kprintf (s : IrqSys) (fmt : Bytes) (args : List Arg) : IsrAnswers (.kprintf fmt args) () s [] s

inductive IrqStep : IrqSys → List IrqEvent → IrqSys → Prop
  /-- the timer, or a device whose line is masked -/
  | request (s : IrqSys) {n : ℕ} (hn : n ≠ 1 ∧ n ≠ 4) : IrqStep s [] { s with pic := s.pic.raise n }
  /-- the keyboard sends a scan code -/
  | type (s : IrqSys) (sc : UInt8) :
      IrqStep s [.typed sc] { s with ps2 := ⟨s.ps2.out, s.ps2.queue ++ [sc]⟩ }
  /-- the next scan code comes into the output buffer -/
  | load {s : IrqSys} {sc : UInt8} {q : List UInt8} (hout : s.ps2 = ⟨none, sc :: q⟩) :
      IrqStep s [] { s with ps2 := ⟨some sc, q⟩, pic := s.pic.raise 1 }
  /-- the serial line receives a byte -/
  | arrive {s : IrqSys} (hroom : s.uart.fifo.length < 16) (b : UInt8) :
      IrqStep s [.arrived b] { s with uart := ⟨s.uart.fifo ++ [b], s.uart.line⟩ }
  /-- a byte finds no room in the UART and is lost -/
  | overrun {s : IrqSys} (hfull : s.uart.fifo.length = 16) : IrqStep s [] s
  /-- the UART requests: 14 bytes are there, or no more come -/
  | rise {s : IrqSys} (hfifo : s.uart.fifo ≠ []) (hline : s.uart.line = false) :
      IrqStep s [] { s with uart := ⟨s.uart.fifo, true⟩, pic := s.pic.raise 4 }
  | accept {s : IrqSys} {c : Context} {v : ℕ} {pic : Pair} {r : IsrRegs} (hcur : s.tasks s.cur = some c)
      (hifl : c.ifl = true) (hack : s.pic.acknowledge = some (v, pic)) (hr : r.intNo = UInt32.ofNat v) :
      IrqStep s [] ({ s with pic := pic }.enter c r)
  /-- the request is gone when the processor asks for the vector: it gets line 7 of the master -/
  | spurious {s : IrqSys} {c : Context} {r : IsrRegs} (hcur : s.tasks s.cur = some c)
      (hifl : c.ifl = true) (hr : r.intNo = UInt32.ofNat (s.pic.master.offset + 7)) :
      IrqStep s [] (s.enter c r)
  /-- an exception, or `int 0x80` -/
  | trap {s : IrqSys} {c : Context} {r : IsrRegs} (hcur : s.tasks s.cur = some c) (hcode : c.work.Code)
      (hr : r.intNo < 32 ∨ r.intNo = 128) : IrqStep s [] (s.enter c r)
  | act {s s' : IrqSys} {c : Context} {o : IsrOp} {k : o.Ans → IsrProg IsrExit} {a : o.Ans}
      {es : List IrqEvent} (hcur : s.tasks s.cur = some c) (hwork : c.work = .isr (.op o k))
      (hans : IsrAnswers o a s es s') : IrqStep s es (s'.put { c with work := .isr (k a) })
  | loop {s : IrqSys} {c : Context} {r : IsrRegs} (hcur : s.tasks s.cur = some c)
      (hwork : c.work = .isr (.ret (.serial r))) :
      IrqStep s [] (s.put { c with work := .isr (serialLoop r) })
  | preempt {s : IrqSys} {c c' : Context} {k : Unit → IsrProg IsrExit} {j : ℕ}
      (hcur : s.tasks s.cur = some c) (hwork : c.work = .isr (.op .schedPreempt k))
      (hnext : s.tasks j = some c') :
      IrqStep s [] { s.put { c with work := .isr (k ()) } with cur := j }
  | syscall {s : IrqSys} {c : Context} {r : IsrRegs} {k : UInt32 → IsrProg IsrExit}
      (hcur : s.tasks s.cur = some c) (hwork : c.work = .isr (.op (.syscall r) k)) :
      IrqStep s [] (s.put { c with work := .call k })
  | sysret {s : IrqSys} {c : Context} {k : UInt32 → IsrProg IsrExit} (hcur : s.tasks s.cur = some c)
      (hwork : c.work = .call k) (v : UInt32) : IrqStep s [] (s.put { c with work := .isr (k v) })
  /-- the loop of `task_exit` -/
  | exit {s : IrqSys} {c : Context} {code : UInt32} {k : Empty → IsrProg IsrExit}
      (hcur : s.tasks s.cur = some c) (hwork : c.work = .isr (.op (.taskExit code) k)) :
      IrqStep s [] (s.put { c with work := .code })
  | iret {s : IrqSys} {c : Context} {r : IsrRegs} {f : Bool} {w : Work} {below : List (Bool × Work)}
      (hcur : s.tasks s.cur = some c) (hwork : c.work = .isr (.ret (.done r)))
      (hbelow : c.below = (f, w) :: below) : IrqStep s [] (s.put ⟨f, w, below⟩)
  /-- `cli`, `sti`, `popf` -/
  | flag {s : IrqSys} {c : Context} (hcur : s.tasks s.cur = some c) (hcode : c.work.Code) (b : Bool) :
      IrqStep s [] (s.put { c with ifl := b })
  /-- the code calls `schedule` -/
  | yield {s : IrqSys} {c c' : Context} {j : ℕ} (hcur : s.tasks s.cur = some c) (hcode : c.work.Code)
      (hnext : s.tasks j = some c') : IrqStep s [] { s with cur := j }
  /-- a new task: interrupts stay off until the `iretd` of `user_entry` -/
  | spawn {s : IrqSys} {j : ℕ} (hfree : s.tasks j = none) (r : IsrRegs) :
      IrqStep s [] { s with
        tasks := Function.update s.tasks j (some ⟨false, .isr (.ret (.done r)), [(true, .code)]⟩) }
  | reap (s : IrqSys) {j : ℕ} (hj : j ≠ s.cur) :
      IrqStep s [] { s with tasks := Function.update s.tasks j none }

/-- A run, with what was seen of it. -/
inductive IrqRun (s₀ : IrqSys) : List IrqEvent → IrqSys → Prop
  | boot : IrqRun s₀ [] s₀
  | step {s s' : IrqSys} {tr es : List IrqEvent} (h : IrqRun s₀ tr s) (hstep : IrqStep s es s') :
      IrqRun s₀ (tr ++ es) s'

/-- The machine when `idt_init` switches interrupts on: the shell is the only task. -/
structure Booted (s : IrqSys) : Prop where
  remapped : ∃ p, picRemap.run device.handler p = .ok ((), s.pic)
  shell : s.tasks s.cur = some ⟨true, .code, []⟩
  alone : ∀ j, j ≠ s.cur → s.tasks j = none

theorem Booted.pic {s : IrqSys} (h : Booted s) : s.pic = ⟨restingChip 32 0xE8, restingChip 40 0xFF⟩ := by
  obtain ⟨p, hp⟩ := h.remapped
  rw [picRemap_run] at hp
  exact (Prod.mk.inj (Except.ok.inj hp)).2.symm

/-! ## What is left of a handler -/

/-- Operations that touch no device. -/
def IsrOp.Calm : IsrOp → Prop
  | .schedPreempt | .syscall _ | .current | .kprintf _ _ | .taskExit _ | .halt => True
  | _ => False

/-- Operations before the end of interrupt. -/
def IsrOp.Quick : IsrOp → Prop
  | .inb _ | .timerTick | .keys | .setKeys _ | .consoleInput _ => True
  | _ => False

/-- No end of interrupt is to come, and no device is touched. -/
def Free : IsrProg IsrExit → Prop
  | .ret (.done _) => True
  | .ret (.serial _) => False
  | .stop _ => False
  | .op o k => o.Calm ∧ ∀ a, Free (k a)

/-- One end of interrupt is to come, on the master, and no switch before it. -/
def Owes : IsrProg IsrExit → Prop
  | .ret (.done _) => False
  | .ret (.serial r) => r.intNo = 36
  | .stop _ => False
  | .op o k => o = .outb 0x20 0x20 ∧ (∀ a, Free (k a)) ∨ o.Quick ∧ ∀ a, Owes (k a)

theorem not_owes_of_free {p : IsrProg IsrExit} (hfree : Free p) : ¬ Owes p := by
  intro howes
  cases p with
  | ret e =>
    cases e with
    | done r => exact howes
    | serial r => exact hfree
  | stop w => exact hfree
  | op o k =>
    obtain ⟨hcalm, -⟩ := hfree
    rcases howes with ⟨rfl, -⟩ | ⟨hquick, -⟩
    · exact hcalm
    · cases o <;> first | exact hcalm | exact hquick

variable {r : IsrRegs}

theorem owes_sendEoi (hr : r.intNo < 40) : Owes (sendEoi r) := by
  have hlow : ¬ (40 ≤ r.intNo) := by
    rw [UInt32.not_le]
    exact hr
  rw [sendEoi, if_neg hlow]
  exact Or.inl ⟨rfl, fun _ => trivial⟩

theorem owes_serialLoop (hr : r.intNo = 36) : Owes (serialLoop r) := by
  refine Or.inr ⟨trivial, fun (v : UInt8) => ?_⟩
  show Owes (if v &&& 0x01 ≠ 0 then _ else _)
  split
  · exact Or.inr ⟨trivial, fun _ => Or.inr ⟨trivial, fun _ => hr⟩⟩
  · exact owes_sendEoi (by rw [hr]; decide)

theorem owes_keyboardIrq (hr : r.intNo < 40) : Owes (keyboardIrq >>= fun _ => sendEoi r) := by
  refine Or.inr ⟨trivial, fun sc => Or.inr ⟨trivial, fun k => Or.inr ⟨trivial, fun _ => ?_⟩⟩⟩
  show Owes ((keyboardInput (Keyboard.irq k sc).2).bind fun _ => sendEoi r)
  cases (Keyboard.irq k sc).2 with
  | some c => exact Or.inr ⟨trivial, fun _ => owes_sendEoi hr⟩
  | none => exact owes_sendEoi hr

/-- The handler of a request. -/
theorem owes_isrHandler (hlow : ¬ r.intNo < 32) (hhigh : r.intNo < 40) : Owes (isrHandler r) := by
  have hcall : r.intNo ≠ 128 := by
    intro h
    rw [h] at hhigh
    exact absurd hhigh (by decide)
  rw [isrHandler, if_neg hlow, if_neg hcall]
  split_ifs with htimer hkeys hserial
  · exact Or.inr ⟨trivial, fun _ => Or.inl ⟨rfl, fun _ => ⟨trivial, fun _ => trivial⟩⟩⟩
  · exact owes_keyboardIrq hhigh
  · exact hserial
  · exact owes_sendEoi hhigh

/-- The handler of an exception and of a system call. -/
theorem free_isrHandler (hr : r.intNo < 32 ∨ r.intNo = 128) : Free (isrHandler r) := by
  rcases hr with hlow | hcall
  · rw [isrHandler, if_pos hlow, isrException]
    split_ifs
    · exact ⟨trivial, fun _ => ⟨trivial, fun _ => ⟨trivial, nofun⟩⟩⟩
    · exact ⟨trivial, fun _ => ⟨trivial, nofun⟩⟩
  · rw [isrHandler, if_neg (by rw [hcall]; decide), if_pos hcall]
    exact ⟨trivial, fun _ => trivial⟩

/-! ## Service -/

def Work.Free : Work → Prop
  | .code => True
  | .isr p => OctoOS.Free p
  | .call k => ∀ v, OctoOS.Free (k v)

def Work.Owes : Work → Prop
  | .isr p => OctoOS.Owes p
  | _ => False

theorem Work.Free.not_owes {w : Work} (h : w.Free) : ¬ w.Owes := by
  intro howes
  cases w with
  | code => exact howes
  | call k => exact howes
  | isr p => exact not_owes_of_free h howes

/-- `pic_remap` was here. -/
structure Remapped (p : Pair) : Prop where
  offset : p.master.offset = 32
  mask : ∀ n, p.master.imr n = (0xE8).testBit n
  slaveMask : ∀ n, p.slave.imr n = (0xFF).testBit n

/-- The running task, and the master: nothing is in service; or the task owes an end of interrupt, with
    interrupts off, and there is at most one line in service. -/
def Mode (c : Context) (m : Chip) : Prop :=
  c.work.Free ∧ m.Quiet ∨ c.work.Owes ∧ c.ifl = false ∧ (m.Quiet ∨ ∃ n, m.Serves n)

structure Orderly (s : IrqSys) : Prop where
  mapped : Remapped s.pic
  slave : s.pic.slave.Quiet
  others : ∀ j c, j ≠ s.cur → s.tasks j = some c → c.work.Free
  below : ∀ j c, s.tasks j = some c → ∀ fw ∈ c.below, fw.2.Free
  current : ∃ c, s.tasks s.cur = some c ∧ Mode c s.pic.master

section Acknowledge

variable {p : Pair} {n v : ℕ}

theorem Remapped.slave_pending (h : Remapped p) (irr : ℕ → Bool) : p.slave.pending irr = none := by
  rw [Chip.pending, Chip.first, List.find?_eq_none]
  intro n hn
  rw [h.slaveMask n]
  have hmask : ∀ n ∈ List.range 8, (0xFF).testBit n = true := by decide
  simp [hmask n hn]

theorem Remapped.requests (h : Remapped p) : p.requests = Function.update p.master.irr 2 false := by
  rw [Pair.requests, h.slave_pending]
  rfl

/-- The lines that are not masked: the timer, the keyboard and the serial line, besides the slave. -/
theorem unmasked_line : ∀ n < 8, (0xE8).testBit n = false → n ≠ 2 → n = 0 ∨ n = 1 ∨ n = 4 := by decide

/-- Only the timer, the keyboard and the serial line are ever acknowledged. -/
theorem Remapped.acknowledge (h : Remapped p) {q : Pair} (hack : p.acknowledge = some (v, q)) :
    ∃ n, (n = 0 ∨ n = 1 ∨ n = 4) ∧ p.master.irr n = true ∧ v = 32 + n ∧
      q = { p with master := p.master.serve n } := by
  rw [Pair.acknowledge, h.requests] at hack
  cases hpend : p.master.pending (Function.update p.master.irr 2 false) with
  | none =>
    rw [hpend] at hack
    exact nomatch hack
  | some n =>
    obtain ⟨hn, hp⟩ := Chip.first_eq_some hpend
    simp only [Bool.and_eq_true, Bool.not_eq_true', h.mask n] at hp
    obtain ⟨⟨hirr, hmask⟩, -⟩ := hp
    have hne : n ≠ 2 := by
      rintro rfl
      simp at hirr
    rw [Function.update_of_ne hne] at hirr
    rw [hpend] at hack
    refine ⟨n, unmasked_line n hn hmask hne, hirr, ?_⟩
    split at hack
    · rename_i heq
      exact nomatch heq
    · rename_i heq
      exact absurd (Option.some.inj heq) hne
    · rename_i m _ heq
      obtain rfl : n = m := Option.some.inj heq
      cases hack
      exact ⟨by rw [h.offset], rfl⟩

/-- When nothing is in service, a request that is not masked is acknowledged, or one before it. -/
theorem Remapped.acknowledges (h : Remapped p) (hquiet : p.master.Quiet) (hn : n = 0 ∨ n = 1 ∨ n = 4)
    (hirr : p.master.irr n = true) : ∃ m q, m ≤ n ∧ p.acknowledge = some (32 + m, q) := by
  have hline : n < 8 ∧ n ≠ 2 ∧ (0xE8).testBit n = false := by
    rcases hn with rfl | rfl | rfl <;> decide
  have hask : (Function.update p.master.irr 2 false n && !p.master.imr n && p.master.unblocked n) = true := by
    rw [Function.update_of_ne hline.2.1, hirr, h.mask, hline.2.2, hquiet.unblocked]
    rfl
  obtain ⟨m, hm, hpend⟩ : ∃ m, m ≤ n ∧ p.master.pending (Function.update p.master.irr 2 false) = some m :=
    Chip.first_le hline.1 hask
  have hne : m ≠ 2 := by
    rintro rfl
    have hreq := (Chip.first_eq_some hpend).2
    simp at hreq
  refine ⟨m, { p with master := p.master.serve m }, hm, ?_⟩
  rw [Pair.acknowledge, h.requests, hpend]
  split
  · rename_i heq
    exact nomatch heq
  · rename_i heq
    exact absurd (Option.some.inj heq) hne
  · rename_i k _ heq
    obtain rfl : m = k := Option.some.inj heq
    rw [h.offset]

end Acknowledge

section Orderly

variable {s s' : IrqSys} {c c' : Context} {es : List IrqEvent}

theorem Remapped.of_eq {p q : Pair} (h : Remapped p) (hoffset : q.master.offset = p.master.offset)
    (hmask : q.master.imr = p.master.imr) (hslave : q.slave.imr = p.slave.imr) : Remapped q :=
  ⟨hoffset.trans h.offset, fun n => hmask ▸ h.mask n, fun n => hslave ▸ h.slaveMask n⟩

section

variable (h : Orderly s) (hcur : s.tasks s.cur = some c)

include h hcur

theorem Orderly.mode : Mode c s.pic.master := by
  obtain ⟨c0, hc0, hmode⟩ := h.current
  obtain rfl : c0 = c := Option.some.inj (hc0.symm.trans hcur)
  exact hmode

/-- With interrupts on nothing is in service. -/
theorem Orderly.quiet_of_ifl (hifl : c.ifl = true) : c.work.Free ∧ s.pic.master.Quiet := by
  rcases h.mode hcur with hrest | ⟨-, hoff, -⟩
  · exact hrest
  · rw [hifl] at hoff
    exact nomatch hoff

/-- Nor while a task that owes nothing is running. -/
theorem Orderly.quiet_of_free (hfree : c.work.Free) : s.pic.master.Quiet := by
  rcases h.mode hcur with hrest | ⟨howes, -⟩
  · exact hrest.2
  · exact absurd howes hfree.not_owes

theorem Orderly.free_of_code (hcode : c.work.Code) : c.work.Free := by
  rcases h.mode hcur with hrest | ⟨howes, -⟩
  · exact hrest.1
  · cases hw : c.work with
    | code => exact trivial
    | isr p =>
      rw [hw] at hcode
      exact hcode.elim
    | call k =>
      rw [hw] at howes
      exact howes.elim

/-- A task that is about to do a calm operation owes nothing. -/
theorem Orderly.free_of_calm {o : IsrOp} {k : o.Ans → IsrProg IsrExit}
    (hwork : c.work = .isr (.op o k)) (hcalm : o.Calm) : c.work.Free ∧ ∀ a, Free (k a) := by
  have hmode := h.mode hcur
  rw [Mode, hwork] at hmode
  rw [hwork]
  rcases hmode with ⟨hfree, -⟩ | ⟨⟨rfl, -⟩ | ⟨hquick, -⟩, -⟩
  · exact ⟨hfree, hfree.2⟩
  · exact hcalm.elim
  · cases o <;> first | exact hcalm.elim | exact hquick.elim

theorem Orderly.free_of_call {k : UInt32 → IsrProg IsrExit} (hwork : c.work = .call k) : c.work.Free ∧ ∀ v, Free (k v) := by
  have hfree := h.free_of_code hcur (by rw [hwork]; trivial)
  refine ⟨hfree, ?_⟩
  rw [hwork] at hfree
  exact hfree

theorem Orderly.free_of_done {r : IsrRegs} (hwork : c.work = .isr (.ret (.done r))) : c.work.Free := by
  rcases h.mode hcur with ⟨hfree, -⟩ | ⟨howes, -⟩
  · exact hfree
  · rw [hwork] at howes
    exact howes.elim

end

/-- What the devices and the keyboard's flags hold does not matter. -/
theorem Orderly.congr (h : Orderly s) (hpic : s'.pic = s.pic) (hcur : s'.cur = s.cur)
    (htasks : s'.tasks = s.tasks) : Orderly s' := by
  obtain ⟨pic, ps2, uart, ticks, keys, cur, tasks⟩ := s'
  obtain rfl : pic = s.pic := hpic
  obtain rfl : cur = s.cur := hcur
  obtain rfl : tasks = s.tasks := htasks
  exact ⟨h.mapped, h.slave, h.others, h.below, h.current⟩

/-- A request changes nothing that is in service. -/
theorem Orderly.request (h : Orderly s) (n : ℕ) : Orderly { s with pic := s.pic.raise n } := by
  by_cases hn : n < 8
  · have hraise : s.pic.raise n
        = { s.pic with master := { s.pic.master with irr := Function.update s.pic.master.irr n true } } :=
      if_pos hn
    rw [hraise]
    exact ⟨h.mapped.of_eq rfl rfl rfl, h.slave, h.others, h.below, h.current⟩
  · have hraise : s.pic.raise n
        = { s.pic with slave := { s.pic.slave with irr := Function.update s.pic.slave.irr (n - 8) true } } :=
      if_neg hn
    rw [hraise]
    exact ⟨h.mapped.of_eq rfl rfl rfl, h.slave, h.others, h.below, h.current⟩

/-- The running task goes on as `c'`. -/
theorem Orderly.put (h : Orderly s) (hpic : Remapped s'.pic) (hslave : s'.pic.slave.Quiet)
    (hcur : s'.cur = s.cur) (htasks : s'.tasks = s.tasks) (hbelow : ∀ fw ∈ c'.below, fw.2.Free)
    (hmode : Mode c' s'.pic.master) : Orderly (s'.put c') := by
  have hother : ∀ j, j ≠ s'.cur → (s'.put c').tasks j = s.tasks j := by
    intro j hj
    rw [← htasks]
    exact Function.update_of_ne hj _ _
  have hself : (s'.put c').tasks s'.cur = some c' := Function.update_self ..
  refine ⟨hpic, hslave, ?_, ?_, c', hself, hmode⟩
  · intro j c hj hc
    rw [hother j hj] at hc
    exact h.others j c (hcur ▸ hj) hc
  · intro j c hc
    by_cases hj : j = s'.cur
    · rw [hj, hself] at hc
      obtain rfl : c' = c := Option.some.inj hc
      exact hbelow
    · rw [hother j hj] at hc
      exact h.below j c hc

/-- The running task goes on with other work that owes nothing. -/
theorem Orderly.work (h : Orderly s) (hcur : s.tasks s.cur = some c) (hfree : c.work.Free)
    (hbelow : ∀ fw ∈ c'.below, fw.2.Free) (hfree' : c'.work.Free) : Orderly (s.put c') :=
  h.put h.mapped h.slave rfl rfl hbelow (Or.inl ⟨hfree', h.quiet_of_free hcur hfree⟩)

/-- Another task runs. -/
theorem Orderly.switch (h : Orderly s) (hcur : s.tasks s.cur = some c) (hfree : c.work.Free) {j : ℕ}
    (hnext : s.tasks j = some c') : Orderly { s with cur := j } := by
  have hall : ∀ i c, s.tasks i = some c → c.work.Free := by
    intro i d hi
    by_cases hic : i = s.cur
    · rw [hic, hcur] at hi
      exact Option.some.inj hi ▸ hfree
    · exact h.others i d hic hi
  exact ⟨h.mapped, h.slave, fun i d _ hi => hall i d hi, h.below, c', hnext,
    Or.inl ⟨hall j c' hnext, h.quiet_of_free hcur hfree⟩⟩

/-- An operation of the handler changes the controllers only by a write to a port. -/
theorem IsrAnswers.frame {o : IsrOp} {a : o.Ans} (h : IsrAnswers o a s es s') :
    s'.cur = s.cur ∧ s'.tasks = s.tasks ∧
      (s'.pic = s.pic ∨ ∃ port v, o = .outb port v ∧ s'.pic = s.pic.outb port v) := by
  cases h with
  | @outb _ port v => exact ⟨rfl, rfl, Or.inr ⟨port, v, rfl, rfl⟩⟩
  | _ => exact ⟨rfl, rfl, Or.inl rfl⟩

/-- A task that does not run is made or cleared. -/
theorem Orderly.setTask (h : Orderly s) {j : ℕ} (hj : j ≠ s.cur) {t : Option Context}
    (ht : ∀ c ∈ t, c.work.Free ∧ ∀ fw ∈ c.below, fw.2.Free) :
    Orderly { s with tasks := Function.update s.tasks j t } := by
  have hsame : ∀ i c, Function.update s.tasks j t i = some c → i = j ∧ t = some c ∨ s.tasks i = some c := by
    intro i c hi
    by_cases hij : i = j
    · rw [hij, Function.update_self] at hi
      exact Or.inl ⟨hij, hi⟩
    · rw [Function.update_of_ne hij] at hi
      exact Or.inr hi
  obtain ⟨c0, hc0, hmode⟩ := h.current
  refine ⟨h.mapped, h.slave, ?_, ?_, c0, ?_, hmode⟩
  · intro i c hi hc
    rcases hsame i c hc with ⟨-, rfl⟩ | hold
    · exact (ht c rfl).1
    · exact h.others i c hi hold
  · intro i c hc
    rcases hsame i c hc with ⟨-, rfl⟩ | hold
    · exact (ht c rfl).2
    · exact h.below i c hold
  · rw [← hc0]
    exact Function.update_of_ne (Ne.symm hj) _ _

theorem Orderly.act (h : Orderly s) {o : IsrOp} {k : o.Ans → IsrProg IsrExit} {a : o.Ans}
    (hcur : s.tasks s.cur = some c) (hwork : c.work = .isr (.op o k)) (hans : IsrAnswers o a s es s') :
    Orderly (s'.put { c with work := .isr (k a) }) := by
  obtain ⟨hcur', htasks', hpic'⟩ := hans.frame
  have hbelow := h.below _ c hcur
  have hmode := h.mode hcur
  rw [Mode, hwork] at hmode
  rcases hmode with ⟨⟨hcalm, hk⟩, hquiet⟩ | ⟨hend | ⟨hquick, hk⟩, hifl, hserves⟩
  · have hpic : s'.pic = s.pic := by
      rcases hpic' with hpic | ⟨port, v, rfl, -⟩
      · exact hpic
      · exact hcalm.elim
    exact h.put (hpic ▸ h.mapped) (hpic ▸ h.slave) hcur' htasks' hbelow (Or.inl ⟨hk a, hpic ▸ hquiet⟩)
  · obtain ⟨rfl, hk⟩ := hend
    have hpic : s'.pic = { s.pic with master := s.pic.master.eoi } := by
      cases hans
      rfl
    have heoi : s.pic.master.eoi.Quiet := by
      rcases hserves with hquiet | ⟨n, hn⟩
      · rw [hquiet.eoi]
        exact hquiet
      · exact hn.eoi
    have hkeep : s.pic.master.eoi.offset = s.pic.master.offset ∧ s.pic.master.eoi.imr = s.pic.master.imr := by
      unfold Chip.eoi
      split <;> exact ⟨rfl, rfl⟩
    refine h.put ?_ ?_ hcur' htasks' hbelow (Or.inl ⟨hk a, ?_⟩)
    · rw [hpic]
      exact h.mapped.of_eq hkeep.1 hkeep.2 rfl
    · rw [hpic]
      exact h.slave
    · rw [hpic]
      exact heoi
  · have hpic : s'.pic = s.pic := by
      rcases hpic' with hpic | ⟨port, v, rfl, -⟩
      · exact hpic
      · exact hquick.elim
    exact h.put (hpic ▸ h.mapped) (hpic ▸ h.slave) hcur' htasks' hbelow
      (Or.inr ⟨hk a, hifl, hpic ▸ hserves⟩)

theorem Orderly.step (h : Orderly s) (hstep : IrqStep s es s') : Orderly s' := by
  cases hstep with
  | request hn => exact h.request _
  | type _ | arrive _ _ => exact h.congr rfl rfl rfl
  | load hout => exact (h.request 1).congr rfl rfl rfl
  | overrun _ => exact h
  | rise hfifo hline => exact (h.request 4).congr rfl rfl rfl
  | @accept c v pic r hcur hifl hack hr =>
    obtain ⟨hfree, hquiet⟩ := h.quiet_of_ifl hcur hifl
    obtain ⟨n, hn, hirr, rfl, rfl⟩ := h.mapped.acknowledge hack
    have hvec : ¬ r.intNo < 32 ∧ r.intNo < 40 := by
      rw [hr]
      rcases hn with rfl | rfl | rfl <;> decide
    have hline : n < 8 := by omega
    have hbelow : ∀ fw ∈ (c.ifl, c.work) :: c.below, fw.2.Free :=
      List.forall_mem_cons.2 ⟨hfree, h.below _ c hcur⟩
    exact h.put (h.mapped.of_eq rfl rfl rfl) h.slave rfl rfl hbelow
      (Or.inr ⟨owes_isrHandler hvec.1 hvec.2, rfl, Or.inr ⟨n, hquiet.serve hline⟩⟩)
  | @spurious c r hcur hifl hr =>
    obtain ⟨hfree, hquiet⟩ := h.quiet_of_ifl hcur hifl
    have hvec : ¬ r.intNo < 32 ∧ r.intNo < 40 := by
      rw [hr, h.mapped.offset]
      decide
    have hbelow : ∀ fw ∈ (c.ifl, c.work) :: c.below, fw.2.Free :=
      List.forall_mem_cons.2 ⟨hfree, h.below _ c hcur⟩
    exact h.put h.mapped h.slave rfl rfl hbelow
      (Or.inr ⟨owes_isrHandler hvec.1 hvec.2, rfl, Or.inl hquiet⟩)
  | @trap c r hcur hcode hr =>
    have hfree := h.free_of_code hcur hcode
    have hbelow : ∀ fw ∈ (c.ifl, c.work) :: c.below, fw.2.Free :=
      List.forall_mem_cons.2 ⟨hfree, h.below _ c hcur⟩
    exact h.work hcur hfree hbelow (free_isrHandler hr)
  | act hcur hwork hans => exact h.act hcur hwork hans
  | @loop c r hcur hwork =>
    have hmode := h.mode hcur
    rw [Mode, hwork] at hmode
    rcases hmode with ⟨hfree, -⟩ | ⟨howes, hserves⟩
    · exact hfree.elim
    · exact h.put h.mapped h.slave rfl rfl (h.below _ c hcur) (Or.inr ⟨owes_serialLoop howes, hserves⟩)
  | @preempt c c' k j hcur hwork hnext =>
    obtain ⟨hfree, hk⟩ := h.free_of_calm hcur hwork trivial
    have hput : Orderly (s.put { c with work := .isr (k ()) }) :=
      h.work hcur hfree (h.below _ c hcur) (hk ())
    have hself : (s.put { c with work := .isr (k ()) }).tasks s.cur = some { c with work := .isr (k ()) } :=
      Function.update_self ..
    by_cases hj : j = s.cur
    · exact hj ▸ hput.switch hself (hk ()) hself
    · have hnext' : (s.put { c with work := .isr (k ()) }).tasks j = some c' := by
        rw [← hnext]
        exact Function.update_of_ne hj _ _
      exact hput.switch hself (hk ()) hnext'
  | @syscall c r k hcur hwork =>
    obtain ⟨hfree, hk⟩ := h.free_of_calm hcur hwork trivial
    exact h.work hcur hfree (h.below _ c hcur) hk
  | @sysret c k hcur hwork v =>
    obtain ⟨hfree, hk⟩ := h.free_of_call hcur hwork
    exact h.work hcur hfree (h.below _ c hcur) (hk v)
  | @exit c code k hcur hwork =>
    obtain ⟨hfree, -⟩ := h.free_of_calm hcur hwork trivial
    exact h.work hcur hfree (h.below _ c hcur) trivial
  | @iret c r f w below hcur hwork hbelow =>
    have hall := h.below _ c hcur
    rw [hbelow, List.forall_mem_cons] at hall
    exact h.work hcur (h.free_of_done hcur hwork) hall.2 hall.1
  | @flag c hcur hcode b =>
    have hfree := h.free_of_code hcur hcode
    exact h.work hcur hfree (h.below _ c hcur) hfree
  | @yield c c' j hcur hcode hnext => exact h.switch hcur (h.free_of_code hcur hcode) hnext
  | @spawn j hnone r =>
    have hj : j ≠ s.cur := by
      rintro rfl
      obtain ⟨c, hc, -⟩ := h.current
      exact Option.some_ne_none _ (hc.symm.trans hnone)
    refine h.setTask hj ?_
    intro c hc
    cases hc
    exact ⟨trivial, List.forall_mem_singleton.2 trivial⟩
  | @reap j hj => exact h.setTask hj nofun

theorem Booted.orderly (h : Booted s) : Orderly s := by
  refine ⟨?_, ?_, ?_, ?_, _, h.shell, ?_⟩
  · rw [h.pic]
    exact ⟨rfl, fun _ => rfl, fun _ => rfl⟩
  · rw [h.pic]
    exact fun _ => rfl
  · intro j c hj hc
    rw [h.alone j hj] at hc
    exact nomatch hc
  · intro j c hc
    by_cases hj : j = s.cur
    · rw [hj, h.shell] at hc
      cases hc
      exact nofun
    · rw [h.alone j hj] at hc
      exact nomatch hc
  · rw [h.pic]
    exact Or.inl ⟨trivial, fun _ => rfl⟩

theorem IrqRun.orderly {s0 : IrqSys} {tr : List IrqEvent} (hboot : Booted s0) (hrun : IrqRun s0 tr s) :
    Orderly s := by
  induction hrun with
  | boot => exact hboot.orderly
  | step _ hstep ih => exact ih.step hstep

end Orderly

/-- In every run: with interrupts on nothing is in service, so every request of the timer, the keyboard
    or the serial line is acknowledged, or one of higher priority, with its own vector; a line is in
    service only while the running task is in a handler that is to send the end of interrupt, with
    interrupts off, and no other line is in service then; no other vector than those three ever comes
    from a request. -/
theorem irq_service {s0 s : IrqSys} {tr : List IrqEvent} (hboot : Booted s0) (hrun : IrqRun s0 tr s) :
    ∃ c, s.tasks s.cur = some c ∧
      (c.ifl = true → s.pic.master.Quiet ∧ s.pic.slave.Quiet ∧
        ∀ n, n = 0 ∨ n = 1 ∨ n = 4 → s.pic.master.irr n = true →
          ∃ m q, m ≤ n ∧ s.pic.acknowledge = some (32 + m, q)) ∧
      (∀ n, s.pic.master.isr n = true → c.ifl = false ∧ c.work.Owes ∧ ∀ m, s.pic.master.isr m = true → m = n) ∧
      (∀ n, s.pic.slave.isr n = false) ∧
      ∀ v q, s.pic.acknowledge = some (v, q) → v = 32 ∨ v = 33 ∨ v = 36 := by
  have h := hrun.orderly hboot
  obtain ⟨c, hc, hmode⟩ := h.current
  refine ⟨c, hc, ?_, ?_, h.slave, ?_⟩
  · intro hifl
    obtain ⟨-, hquiet⟩ := h.quiet_of_ifl hc hifl
    exact ⟨hquiet, h.slave, fun n hn hirr => h.mapped.acknowledges hquiet hn hirr⟩
  · intro n hn
    rcases hmode with ⟨-, hquiet⟩ | ⟨howes, hifl, hquiet | ⟨k, hk⟩⟩
    · rw [hquiet n] at hn
      exact nomatch hn
    · rw [hquiet n] at hn
      exact nomatch hn
    · refine ⟨hifl, howes, fun m hm => ?_⟩
      rw [hk.2] at hn hm
      exact (of_decide_eq_true hm).trans (of_decide_eq_true hn).symm
  · intro v q hack
    obtain ⟨n, hn, -, rfl, -⟩ := h.mapped.acknowledge hack
    omega

/-- The machine with only the shell. -/
def irqBoot : IrqSys where
  pic := ⟨restingChip 32 0xE8, restingChip 40 0xFF⟩
  ps2 := ⟨none, []⟩
  uart := ⟨[], false⟩
  ticks := 0
  keys := ⟨false, false, false⟩
  cur := 0
  tasks := fun j => if j = 0 then some ⟨true, .code, []⟩ else none

theorem booted_irqBoot : Booted irqBoot := ⟨⟨irqBoot.pic, rfl⟩, rfl, fun _ hj => if_neg hj⟩

/-- The frame of vector `n`. -/
def regsOf (n : UInt32) : IsrRegs := ⟨0, 0, 0, 0, 0, 0, 0, 0, n, 0, 0x1000, 0x08, 0x202⟩

/-- A tick of the timer is accepted. -/
def irqTick : IrqSys :=
  { irqBoot with pic := { irqBoot.pic with master := (irqBoot.pic.raise 0).master.serve 0 } }.enter
    ⟨true, .code, []⟩ (regsOf 32)

theorem irqRun_irqTick : IrqRun irqBoot [] irqTick :=
  .step (.step .boot (.request irqBoot (n := 0) (by decide)))
    (.accept (c := ⟨true, .code, []⟩) (v := 32) rfl rfl rfl rfl)

theorem irq_service_tick : irqTick.pic.master.isr 0 = true ∧
    ∃ c : Context, irqTick.tasks 0 = some c ∧ c.ifl = false ∧ c.work.Owes := by
  obtain ⟨c, hc, -, hserved, -⟩ := irq_service booted_irqBoot irqRun_irqTick
  obtain ⟨hifl, howes, -⟩ := hserved 0 rfl
  exact ⟨rfl, c, hc, hifl, howes⟩

end OctoOS
