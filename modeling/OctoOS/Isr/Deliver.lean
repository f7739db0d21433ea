import OctoOS.Isr.Irq

set_option autoImplicit false

/-! # What the devices deliver

Everything that the keyboard sends and the serial line receives is read by a handler exactly once and in
order, and reaches `console_input` decoded, in the order of the reads. A scan code in the output buffer
and a raised interrupt line always have a request at the controller or a handler that is to look after
them, so neither device is ever stuck: with one exception, since `pic_remap` forgets the requests from
before. A device that has raised its line by then is not heard again. -/

namespace OctoOS

open Atomic Pic

/-! ## What was seen -/

def typedOf (tr : List IrqEvent) : List UInt8 :=
  tr.filterMap fun
    | .typed sc => some sc
    | _ => none

def arrivedOf (tr : List IrqEvent) : List UInt8 :=
  tr.filterMap fun
    | .arrived b => some b
    | _ => none

def readingsOf (tr : List IrqEvent) : List Reading :=
  tr.filterMap fun
    | .reading r => some r
    | _ => none

def inputsOf (tr : List IrqEvent) : List UInt8 :=
  tr.filterMap fun
    | .input c => some c
    | _ => none

/-- The scan codes that were read. -/
def scansOf (tr : List IrqEvent) : List UInt8 :=
  (readingsOf tr).filterMap fun
    | .scan sc => some sc
    | .byte _ => none

/-- The bytes that were read from the UART. -/
def bytesOf (tr : List IrqEvent) : List UInt8 :=
  (readingsOf tr).filterMap fun
    | .byte b => some b
    | .scan _ => none

/-- What the readings mean: scan codes are decoded, bytes of the serial line stand for themselves. -/
def decodeReadings (k : Keyboard) : List Reading → Keyboard × Bytes
  | [] => (k, [])
  | .scan sc :: rs =>
    let r := decodeReadings (k.irq sc).1 rs
    (r.1, (k.irq sc).2.toList ++ r.2)
  | .byte b :: rs => ((decodeReadings k rs).1, b :: (decodeReadings k rs).2)

theorem decodeReadings_append (k : Keyboard) (rs rs' : List Reading) :
    decodeReadings k (rs ++ rs')
      = ((decodeReadings (decodeReadings k rs).1 rs').1,
          (decodeReadings k rs).2 ++ (decodeReadings (decodeReadings k rs).1 rs').2) := by
  induction rs generalizing k with
  | nil => rfl
  | cons r rs ih =>
    cases r with
    | scan sc =>
      rw [List.cons_append, decodeReadings, decodeReadings, ih, List.append_assoc]
    | byte b =>
      rw [List.cons_append, decodeReadings, decodeReadings, ih]
      rfl

/-! ## Where a handler is -/

/-- About to read the scan code. -/
def Scans : IsrProg IsrExit → Prop
  | .op (.inb port) _ => port = 0x60
  | _ => False

/-- About to read a byte from the UART. -/
def Fetches : IsrProg IsrExit → Prop
  | .op (.inb port) _ => port = 0x3F8
  | _ => False

/-- In the loop over the serial line, and not past its last test. -/
def Drains : IsrProg IsrExit → Prop
  | .ret (.serial _) => True
  | .op (.inb port) k =>
    port = 0x3FD ∧ (∀ v : UInt8, v &&& 0x01 ≠ 0 → Drains (k v)) ∨ port = 0x3F8 ∧ ∀ b, Drains (k b)
  | .op (.consoleInput _) k => Drains (k ())
  | _ => False

/-- What is still to be done for the last reading: the keyboard's flags then, and what goes to
    `console_input`. -/
def settle : IsrProg IsrExit → Keyboard → Keyboard × Bytes
  | .op .keys k, ks => settle (k ks) ks
  | .op (.setKeys ks') k, _ => settle (k ()) ks'
  | .op (.consoleInput c) k, ks => ((settle (k ()) ks).1, c :: (settle (k ()) ks).2)
  | _, ks => (ks, [])

/-- Operations that do something for a reading. -/
def IsrOp.Feeding : IsrOp → Prop
  | .keys | .setKeys _ | .consoleInput _ => True
  | _ => False

/-- What is to be done for an answer. -/
def IsrOp.due : (o : IsrOp) → o.Ans → Keyboard → Keyboard × Bytes
  | .inb port, (v : UInt8), ks =>
    if port = 0x60 then ((ks.irq v).1, (ks.irq v).2.toList) else if port = 0x3F8 then (ks, [v]) else (ks, [])
  | _, _, ks => (ks, [])

/-- The UART said that there is a byte. -/
def IsrOp.Ready : (o : IsrOp) → o.Ans → Prop
  | .inb port, (v : UInt8) => port = 0x3FD ∧ v &&& 0x01 ≠ 0
  | _, _ => False

/-- Everywhere in the rest of a handler: what was read is dealt with before the next reading, the scan
    code is read at most once, and the UART only when it has said that there is a byte. -/
def Reads : IsrProg IsrExit → Prop
  | .op o k => (∀ a, Reads (k a)) ∧ ∀ a, ¬ Scans (k a) ∧ (Fetches (k a) → o.Ready a ∧ Drains (k a)) ∧
      (Drains (k a) → Drains (.op o k)) ∧ (¬ o.Feeding → ∀ ks, settle (k a) ks = o.due a ks)
  | _ => True

/-- At none of the places where a device is looked after. -/
structure Aside (p : IsrProg IsrExit) : Prop where
  scans : ¬ Scans p
  fetches : ¬ Fetches p
  drains : ¬ Drains p
  settled : ∀ ks, settle p ks = (ks, [])

theorem aside_of_free {p : IsrProg IsrExit} (h : Free p) : Aside p := by
  cases p with
  | ret e =>
    cases e with
    | done r => exact ⟨id, id, id, fun _ => rfl⟩
    | serial r => exact h.elim
  | stop w => exact h.elim
  | op o k => cases o <;> first | exact h.1.elim | exact ⟨id, id, id, fun _ => rfl⟩

/-- A program that goes on aside, whatever it does now. -/
theorem reads_of_aside {o : IsrOp} {k : o.Ans → IsrProg IsrExit} (hk : ∀ a, Aside (k a))
    (hrest : ∀ a, Reads (k a)) (hdue : ¬ o.Feeding → ∀ a ks, o.due a ks = (ks, [])) : Reads (.op o k) :=
  ⟨hrest, fun a => ⟨(hk a).scans, fun h => ((hk a).fetches h).elim, fun h => ((hk a).drains h).elim,
    fun ho ks => ((hk a).settled ks).trans (hdue ho a ks).symm⟩⟩

theorem reads_of_free {p : IsrProg IsrExit} (h : Free p) : Reads p := by
  induction p with
  | ret e => trivial
  | stop w => trivial
  | op o k ih =>
    refine reads_of_aside (fun a => aside_of_free (h.2 a)) (fun a => ih a (h.2 a)) ?_
    intro _ a ks
    cases o <;> first | exact h.1.elim | rfl

variable {r : IsrRegs}

theorem aside_sendEoi (hr : r.intNo < 40) : Aside (sendEoi r) := by
  rw [sendEoi, if_neg (by rw [UInt32.not_le]; exact hr)]
  exact ⟨id, id, id, fun _ => rfl⟩

theorem reads_sendEoi (hr : r.intNo < 40) : Reads (sendEoi r) := by
  rw [sendEoi, if_neg (by rw [UInt32.not_le]; exact hr)]
  exact reads_of_aside (fun _ => aside_of_free trivial) (fun _ => trivial) (fun _ _ _ => rfl)

/-- The body of the loop over the serial line. -/
def serialBody (r : IsrRegs) : IsrProg IsrExit :=
  .op (.inb 0x3F8) fun b => .op (.consoleInput b) fun _ => .ret (.serial r)

/-- A turn of the loop: the body if there is a byte, and the end of interrupt otherwise. -/
theorem serialLoop_eq (r : IsrRegs) : serialLoop r
    = .op (.inb 0x3FD) fun v : UInt8 => if v &&& 0x01 ≠ 0 then serialBody r else sendEoi r := rfl

theorem drains_serialBody (r : IsrRegs) : Drains (serialBody r) := Or.inr ⟨rfl, fun _ => trivial⟩

theorem reads_serialBody (r : IsrRegs) : Reads (serialBody r) :=
  ⟨fun _ => ⟨fun _ => trivial, fun _ => ⟨id, nofun, fun h => h, fun h => absurd trivial h⟩⟩,
    fun _ => ⟨id, nofun, fun _ => drains_serialBody r, fun _ _ => rfl⟩⟩

theorem drains_serialLoop (r : IsrRegs) : Drains (serialLoop r) := by
  rw [serialLoop_eq]
  refine Or.inl ⟨rfl, fun v hv => ?_⟩
  show Drains (if v &&& 0x01 ≠ 0 then serialBody r else sendEoi r)
  rw [if_pos hv]
  exact drains_serialBody r

theorem reads_serialLoop (hr : r.intNo < 40) : Reads (serialLoop r) := by
  have hdrains := drains_serialLoop r
  rw [serialLoop_eq] at hdrains ⊢
  refine ⟨fun (v : UInt8) => ?_, fun (v : UInt8) => ?_⟩
  · show Reads (if v &&& 0x01 ≠ 0 then _ else _)
    split_ifs
    · exact reads_serialBody r
    · exact reads_sendEoi hr
  · have hend := aside_sendEoi hr
    by_cases hv : v &&& 0x01 ≠ 0
    · have hbody : (if v &&& 0x01 ≠ 0 then serialBody r else sendEoi r) = serialBody r := if_pos hv
      simp only [hbody]
      exact ⟨nofun, fun _ => ⟨⟨rfl, hv⟩, drains_serialBody r⟩, fun _ => hdrains, fun _ _ => rfl⟩
    · have hbody : (if v &&& 0x01 ≠ 0 then serialBody r else sendEoi r) = sendEoi r := if_neg hv
      simp only [hbody]
      exact ⟨hend.scans, fun h => (hend.fetches h).elim, fun _ => hdrains, fun _ => hend.settled⟩

/-- The handler of the keyboard behind the reading of `sc`, with the flags `k`. -/
def keyboardTail (r : IsrRegs) (k : Keyboard) (sc : UInt8) : IsrProg IsrExit :=
  keyboardInput (k.irq sc).2 >>= fun _ => sendEoi r

theorem keyboardIrq_eq (r : IsrRegs) : (keyboardIrq >>= fun _ => sendEoi r)
    = .op (.inb 0x60) fun sc : UInt8 => .op .keys fun k : Keyboard =>
        .op (.setKeys (k.irq sc).1) fun _ => keyboardTail r k sc := rfl

theorem keyboardTail_spec (hr : r.intNo < 40) (k : Keyboard) (sc : UInt8) :
    Reads (keyboardTail r k sc) ∧ ¬ Scans (keyboardTail r k sc) ∧ ¬ Fetches (keyboardTail r k sc) ∧
      ¬ Drains (keyboardTail r k sc) ∧
      ∀ ks, settle (keyboardTail r k sc) ks = (ks, (k.irq sc).2.toList) := by
  have hend := aside_sendEoi hr
  unfold keyboardTail
  cases (k.irq sc).2 with
  | none => exact ⟨reads_sendEoi hr, hend.scans, hend.fetches, hend.drains, hend.settled⟩
  | some c =>
    refine ⟨reads_of_aside (fun _ => hend) (fun _ => reads_sendEoi hr) (fun h => absurd trivial h), id, id,
      hend.drains, fun ks => ?_⟩
    show ((settle (sendEoi r) ks).1, c :: (settle (sendEoi r) ks).2) = _
    rw [hend.settled]
    rfl

theorem reads_keyboardIrq (hr : r.intNo < 40) : Reads (keyboardIrq >>= fun _ => sendEoi r) := by
  rw [keyboardIrq_eq]
  have htail := keyboardTail_spec hr
  refine ⟨fun (sc : UInt8) => ⟨fun (k : Keyboard) => ⟨fun _ => (htail k sc).1, fun _ => ?_⟩, fun (k : Keyboard) => ?_⟩,
    fun (sc : UInt8) => ?_⟩
  · obtain ⟨-, hscans, hfetches, hdrains, -⟩ := htail k sc
    exact ⟨hscans, fun h => (hfetches h).elim, fun h => (hdrains h).elim, fun h => absurd trivial h⟩
  · exact ⟨id, nofun, nofun, fun h => absurd trivial h⟩
  · refine ⟨id, nofun, nofun, fun _ ks => ?_⟩
    show settle (keyboardTail r ks sc) (ks.irq sc).1 = ((ks.irq sc).1, (ks.irq sc).2.toList)
    exact (htail ks sc).2.2.2.2 _

theorem not_drains_scan {k : UInt8 → IsrProg IsrExit} : ¬ Drains (.op (.inb 0x60) k) := by
  rintro (⟨hport, -⟩ | ⟨hport, -⟩)
  · cases hport
  · cases hport

/-- The handler when it is entered for vector `32 + n`: that of the keyboard is to read the scan code,
    that of the serial line is to drain the UART, and nothing else is to be done. -/
structure Enters (n : ℕ) (p : IsrProg IsrExit) : Prop where
  reads : Reads p
  scans : Scans p ↔ n = 1
  drains : Drains p ↔ n = 4
  fetches : ¬ Fetches p
  settled : ∀ ks, settle p ks = (ks, [])

theorem enters_isrHandler {n : ℕ} (hn : n < 8) (hr : r.intNo = UInt32.ofNat (32 + n)) :
    Enters n (isrHandler r) := by
  have hvec : ∀ n < 8, ¬ UInt32.ofNat (32 + n) < 32 ∧ UInt32.ofNat (32 + n) ≠ 128 ∧
      UInt32.ofNat (32 + n) < 40 ∧ (UInt32.ofNat (32 + n) = 32 ↔ n = 0) ∧
      (UInt32.ofNat (32 + n) = 33 ↔ n = 1) ∧ (UInt32.ofNat (32 + n) = 36 ↔ n = 4) := by decide
  obtain ⟨hlow, hcall, hhigh, htimer, hkeys, hserial⟩ := hvec n hn
  rw [← hr] at hlow hcall hhigh htimer hkeys hserial
  have hend := aside_sendEoi hhigh
  rw [isrHandler, if_neg hlow, if_neg hcall]
  split_ifs with h0 h1 h4
  · obtain rfl := htimer.1 h0
    exact ⟨reads_of_aside (fun _ => ⟨id, id, id, fun _ => rfl⟩)
      (fun _ => reads_of_aside (fun _ => ⟨id, id, id, fun _ => rfl⟩)
        (fun _ => reads_of_free ⟨trivial, fun _ => trivial⟩) (fun _ _ _ => rfl)) (fun _ _ _ => rfl),
      iff_of_false id (by decide), iff_of_false id (by decide), id, fun _ => rfl⟩
  · obtain rfl := hkeys.1 h1
    refine ⟨reads_keyboardIrq hhigh, ?_, ?_, ?_, ?_⟩ <;> rw [keyboardIrq_eq]
    · exact ⟨fun _ => rfl, fun _ => rfl⟩
    · exact iff_of_false not_drains_scan (by decide)
    · exact fun h => absurd h (by decide : (0x60 : UInt16) ≠ 0x3F8)
    · exact fun _ => rfl
  · obtain rfl := hserial.1 h4
    exact ⟨trivial, iff_of_false id (by decide), iff_of_true trivial rfl, id, fun _ => rfl⟩
  · exact ⟨reads_sendEoi hhigh, ⟨fun h => (hend.scans h).elim, fun h => (h1 (hkeys.2 h)).elim⟩,
      ⟨fun h => (hend.drains h).elim, fun h => (h4 (hserial.2 h)).elim⟩, hend.fetches, hend.settled⟩

/-! ## What a step does to the devices -/

namespace Work

def Scans : Work → Prop
  | .isr p => OctoOS.Scans p
  | _ => False

def Fetches : Work → Prop
  | .isr p => OctoOS.Fetches p
  | _ => False

def Drains : Work → Prop
  | .isr p => OctoOS.Drains p
  | _ => False

def Reads : Work → Prop
  | .isr p => OctoOS.Reads p
  | _ => True

def settle : Work → Keyboard → Keyboard × Bytes
  | .isr p, ks => OctoOS.settle p ks
  | _, ks => (ks, [])

/-- Work that owes nothing looks after no device. -/
theorem Free.aside {w : Work} (h : w.Free) :
    ¬ w.Scans ∧ ¬ w.Fetches ∧ ¬ w.Drains ∧ w.Reads ∧ ∀ ks, w.settle ks = (ks, []) := by
  cases w with
  | isr p =>
    have hp := aside_of_free h
    exact ⟨hp.scans, hp.fetches, hp.drains, reads_of_free h, hp.settled⟩
  | code | call _ => exact ⟨id, id, id, trivial, fun _ => rfl⟩

end Work

/-- The requests of the master. -/
def IrqSys.irr (s : IrqSys) : ℕ → Bool := s.pic.master.irr

/-- Nothing that concerns the devices is different, but for the requests. -/
structure SameDevices (s s' : IrqSys) : Prop where
  ps2 : s'.ps2 = s.ps2
  uart : s'.uart = s.uart
  keys : s'.keys = s.keys

/-- A step as the devices see it, with the work of the running task before and after it. -/
inductive Moves : IrqSys → Work → List IrqEvent → IrqSys → Work → Prop
  /-- tasks come and go that look after no device -/
  | rest {s s' : IrqSys} {w w' : Work} (hsame : SameDevices s s') (hirr : s'.irr = s.irr) (hw : w.Free)
      (hw' : w'.Free) : Moves s w [] s' w'
  | request {s s' : IrqSys} {w : Work} (hsame : SameDevices s s')
      (hirr : ∀ n, n = 1 ∨ n = 4 → s'.irr n = s.irr n) : Moves s w [] s' w
  | type {s : IrqSys} {w : Work} (sc : UInt8) :
      Moves s w [.typed sc] { s with ps2 := ⟨s.ps2.out, s.ps2.queue ++ [sc]⟩ } w
  | load {s : IrqSys} {w : Work} {sc : UInt8} {q : List UInt8} (hout : s.ps2 = ⟨none, sc :: q⟩) :
      Moves s w [] { s with ps2 := ⟨some sc, q⟩, pic := s.pic.raise 1 } w
  | arrive {s : IrqSys} {w : Work} (b : UInt8) :
      Moves s w [.arrived b] { s with uart := ⟨s.uart.fifo ++ [b], s.uart.line⟩ } w
  | rise {s : IrqSys} {w : Work} (hfifo : s.uart.fifo ≠ []) (hline : s.uart.line = false) :
      Moves s w [] { s with uart := ⟨s.uart.fifo, true⟩, pic := s.pic.raise 4 } w
  /-- line `n` is accepted -/
  | serve {s s' : IrqSys} {w : Work} {p : IsrProg IsrExit} {n : ℕ} (hsame : SameDevices s s')
      (hirr : s.irr n = true) (hirr' : s'.irr = Function.update s.irr n false) (hw : w.Free)
      (hp : Enters n p) : Moves s w [] s' (.isr p)
  /-- a handler is entered without a request -/
  | spurious {s s' : IrqSys} {w : Work} {p : IsrProg IsrExit} (hsame : SameDevices s s')
      (hirr : s'.irr = s.irr) (hw : w.Free) (hp : Enters 7 p) : Moves s w [] s' (.isr p)
  | act {s t s' : IrqSys} {o : IsrOp} {k : o.Ans → IsrProg IsrExit} {a : o.Ans} {es : List IrqEvent}
      (hans : IsrAnswers o a s es t) (hsame : SameDevices t s') (hirr : s'.irr = s.irr) :
      Moves s (.isr (.op o k)) es s' (.isr (k a))
  | loop {s s' : IrqSys} {r : IsrRegs} (hsame : SameDevices s s') (hirr : s'.irr = s.irr)
      (hr : r.intNo = 36) : Moves s (.isr (.ret (.serial r))) [] s' (.isr (serialLoop r))

theorem IrqSys.put_cur (s : IrqSys) (c : Context) : (s.put c).tasks (s.put c).cur = some c :=
  Function.update_self ..

theorem raise_irr (s : IrqSys) {n m : ℕ} (hm : m ≠ n) : (s.pic.raise n).master.irr m = s.irr m := by
  unfold Pair.raise
  split_ifs
  · exact Function.update_of_ne hm _ _
  · rfl

theorem IsrAnswers.irr {s s' : IrqSys} {o : IsrOp} {a : o.Ans} {es : List IrqEvent}
    (h : IsrAnswers o a s es s') (ho : o = .outb 0x20 0x20 ∨ ∀ port v, o ≠ .outb port v) : s'.irr = s.irr := by
  rcases h.frame with ⟨-, -, hpic | ⟨port, v, rfl, hpic⟩⟩
  · rw [IrqSys.irr, hpic]
    rfl
  · rcases ho with ho | ho
    · obtain ⟨rfl, rfl⟩ := IsrOp.outb.inj ho
      rw [IrqSys.irr, hpic]
      show (s.pic.master.eoi).irr = s.pic.master.irr
      unfold Chip.eoi
      split <;> rfl
    · exact absurd rfl (ho port v)

section Step

variable {s s' t : IrqSys} {c c' : Context} {es : List IrqEvent}

section

variable (h : Orderly s) (hcur : s.tasks s.cur = some c)

include h hcur

/-- The only port that a handler writes to is that of the end of interrupt. -/
theorem Orderly.act_moves {o : IsrOp} {k : o.Ans → IsrProg IsrExit} {a : o.Ans}
    (hwork : c.work = .isr (.op o k)) (hans : IsrAnswers o a s es t) :
    Moves s c.work es (t.put { c with work := .isr (k a) }) (.isr (k a)) := by
  have hmode := h.mode hcur
  rw [Mode, hwork] at hmode
  have ho : o = .outb 0x20 0x20 ∨ ∀ port v, o ≠ .outb port v := by
    rcases hmode with ⟨⟨hcalm, -⟩, -⟩ | ⟨⟨hend, -⟩ | ⟨hquick, -⟩, -⟩
    · exact Or.inr (by rintro port v rfl; exact hcalm)
    · exact Or.inl hend
    · exact Or.inr (by rintro port v rfl; exact hquick)
  rw [hwork]
  exact .act hans ⟨rfl, rfl, rfl⟩ (hans.irr ho)

theorem Orderly.loop_moves {r : IsrRegs} (hwork : c.work = .isr (.ret (.serial r))) :
    Moves s c.work [] (s.put { c with work := .isr (serialLoop r) }) (.isr (serialLoop r)) := by
  have hmode := h.mode hcur
  rw [Mode, hwork] at hmode
  rw [hwork]
  rcases hmode with ⟨hfree, -⟩ | ⟨howes, -⟩
  · exact hfree.elim
  · exact .loop ⟨rfl, rfl, rfl⟩ rfl howes

/-- Whichever task `schedule` goes on with, it looks after no device. -/
theorem Orderly.preempt_moves {k : Unit → IsrProg IsrExit} {j : ℕ}
    (hwork : c.work = .isr (.op .schedPreempt k)) (hnext : s.tasks j = some c') :
    ∃ d, (s.put { c with work := .isr (k ()) }).tasks j = some d ∧
      Moves s c.work [] { s.put { c with work := .isr (k ()) } with cur := j } d.work := by
  obtain ⟨hfree, hk⟩ := h.free_of_calm hcur hwork trivial
  by_cases hj : j = s.cur
  · subst hj
    exact ⟨_, IrqSys.put_cur s _, .rest ⟨rfl, rfl, rfl⟩ rfl hfree (hk ())⟩
  · exact ⟨c', (Function.update_of_ne hj _ _).trans hnext,
      .rest ⟨rfl, rfl, rfl⟩ rfl hfree (h.others j c' hj hnext)⟩

theorem Orderly.yield_moves {j : ℕ} (hcode : c.work.Code) (hnext : s.tasks j = some c') :
    Moves s c.work [] { s with cur := j } c'.work := by
  have hfree := h.free_of_code hcur hcode
  refine .rest ⟨rfl, rfl, rfl⟩ rfl hfree ?_
  by_cases hj : j = s.cur
  · rw [hj, hcur] at hnext
    exact Option.some.inj hnext ▸ hfree
  · exact h.others j c' hj hnext

end

/-- A step of the running task that begins and ends with no device to look after. -/
theorem moves_put (hfree : c.work.Free) (hfree' : c'.work.Free) :
    ∃ d, (s.put c').tasks (s.put c').cur = some d ∧ Moves s c.work [] (s.put c') d.work :=
  ⟨c', IrqSys.put_cur s c', .rest ⟨rfl, rfl, rfl⟩ rfl hfree hfree'⟩

theorem IrqStep.moves (h : Orderly s) (hcur : s.tasks s.cur = some c) (hstep : IrqStep s es s') :
    ∃ c', s'.tasks s'.cur = some c' ∧ Moves s c.work es s' c'.work := by
  have hsame : ∀ {d : Context}, s.tasks s.cur = some d → d = c := fun hd =>
    Option.some.inj (hd.symm.trans hcur)
  cases hstep with
  | request hn =>
    exact ⟨c, hcur, .request ⟨rfl, rfl, rfl⟩ fun m hm => raise_irr s (by rintro rfl; omega)⟩
  | type sc => exact ⟨c, hcur, .type sc⟩
  | load hout => exact ⟨c, hcur, .load hout⟩
  | arrive hroom b => exact ⟨c, hcur, .arrive b⟩
  | overrun _ => exact ⟨c, hcur, .request ⟨rfl, rfl, rfl⟩ fun _ _ => rfl⟩
  | rise hfifo hline => exact ⟨c, hcur, .rise hfifo hline⟩
  | @accept d v pic r hd hifl hack hr =>
    obtain rfl := hsame hd
    obtain ⟨hfree, -⟩ := h.quiet_of_ifl hd hifl
    obtain ⟨n, hn, hirr, rfl, rfl⟩ := h.mapped.acknowledge hack
    exact ⟨_, IrqSys.put_cur _ _, .serve ⟨rfl, rfl, rfl⟩ hirr rfl hfree (enters_isrHandler (by omega) hr)⟩
  | @spurious d r hd hifl hr =>
    obtain rfl := hsame hd
    obtain ⟨hfree, -⟩ := h.quiet_of_ifl hd hifl
    rw [h.mapped.offset] at hr
    exact ⟨_, IrqSys.put_cur _ _, .spurious ⟨rfl, rfl, rfl⟩ rfl hfree (enters_isrHandler (by decide) hr)⟩
  | @trap d r hd hcode hr =>
    obtain rfl := hsame hd
    exact moves_put (h.free_of_code hd hcode) (free_isrHandler hr)
  | @act t d o k a es hd hwork hans =>
    obtain rfl := hsame hd
    exact ⟨_, IrqSys.put_cur _ _, h.act_moves hd hwork hans⟩
  | @loop d r hd hwork =>
    obtain rfl := hsame hd
    exact ⟨_, IrqSys.put_cur _ _, h.loop_moves hd hwork⟩
  | @preempt d c' k j hd hwork hnext =>
    obtain rfl := hsame hd
    exact h.preempt_moves hd hwork hnext
  | @syscall d r k hd hwork =>
    obtain rfl := hsame hd
    obtain ⟨hfree, hk⟩ := h.free_of_calm hd hwork trivial
    exact moves_put hfree hk
  | @sysret d k hd hwork v =>
    obtain rfl := hsame hd
    obtain ⟨hfree, hk⟩ := h.free_of_call hd hwork
    exact moves_put hfree (hk v)
  | @exit d code k hd hwork =>
    obtain rfl := hsame hd
    exact moves_put (h.free_of_calm hd hwork trivial).1 trivial
  | @iret d r f w below hd hwork hbelow =>
    obtain rfl := hsame hd
    have hw := h.below _ d hd
    rw [hbelow, List.forall_mem_cons] at hw
    exact moves_put (h.free_of_done hd hwork) hw.1
  | @flag d hd hcode b =>
    obtain rfl := hsame hd
    have hfree := h.free_of_code hd hcode
    exact moves_put hfree hfree
  | @yield d c' j hd hcode hnext =>
    obtain rfl := hsame hd
    exact ⟨c', hnext, h.yield_moves hd hcode hnext⟩
  | @spawn j hnone r =>
    have hj : s.cur ≠ j := by
      rintro rfl
      exact Option.some_ne_none _ (hcur.symm.trans hnone)
    exact ⟨c, (Function.update_of_ne hj _ _).trans hcur, .request ⟨rfl, rfl, rfl⟩ fun _ _ => rfl⟩
  | @reap j hj =>
    exact ⟨c, (Function.update_of_ne (Ne.symm hj) _ _).trans hcur, .request ⟨rfl, rfl, rfl⟩ fun _ _ => rfl⟩

end Step

/-! ## Nothing is lost -/

section Append

variable (tr es : List IrqEvent)

@[simp] theorem typedOf_append : typedOf (tr ++ es) = typedOf tr ++ typedOf es := List.filterMap_append
@[simp] theorem arrivedOf_append : arrivedOf (tr ++ es) = arrivedOf tr ++ arrivedOf es := List.filterMap_append
@[simp] theorem readingsOf_append : readingsOf (tr ++ es) = readingsOf tr ++ readingsOf es := List.filterMap_append
@[simp] theorem inputsOf_append : inputsOf (tr ++ es) = inputsOf tr ++ inputsOf es := List.filterMap_append
@[simp] theorem scansOf_append : scansOf (tr ++ es) = scansOf tr ++ scansOf es := by
  rw [scansOf, readingsOf_append, List.filterMap_append]
  rfl
@[simp] theorem bytesOf_append : bytesOf (tr ++ es) = bytesOf tr ++ bytesOf es := by
  rw [bytesOf, readingsOf_append, List.filterMap_append]
  rfl

end Append

/-- The scan code in the output buffer has its request, or a handler that is to read it. -/
structure KeyInv (s0 : IrqSys) (tr : List IrqEvent) (s : IrqSys) (w : Work) : Prop where
  full : s.ps2.out ≠ none ↔ s.irr 1 = true ∨ w.Scans
  once : ¬ (s.irr 1 = true ∧ w.Scans)
  typed : s0.ps2.queue ++ typedOf tr = scansOf tr ++ (s.ps2.out.toList ++ s.ps2.queue)

/-- The line of the UART has its request, or a handler that is to look again. -/
structure LineInv (s0 : IrqSys) (tr : List IrqEvent) (s : IrqSys) (w : Work) : Prop where
  filled : s.uart.line = true → s.uart.fifo ≠ [] ∧ (s.irr 4 = true ∨ w.Drains)
  fetch : w.Fetches → s.uart.fifo ≠ []
  arrived : s0.uart.fifo ++ arrivedOf tr = bytesOf tr ++ s.uart.fifo

/-- What was read has reached `console_input`, but for what the running handler is still to do. -/
def LogInv (s0 : IrqSys) (tr : List IrqEvent) (s : IrqSys) (w : Work) : Prop :=
  decodeReadings s0.keys (readingsOf tr) = ((w.settle s.keys).1, inputsOf tr ++ (w.settle s.keys).2)

section Moves

variable {s0 s s' : IrqSys} {tr es : List IrqEvent} {w w' : Work}

theorem Moves.reads (h : Moves s w es s' w') (hw : w.Reads) : w'.Reads := by
  cases h with
  | rest hsame hirr hfree hfree' => exact hfree'.aside.2.2.2.1
  | serve _ _ _ _ hp | spurious _ _ _ hp => exact hp.reads
  | act hans hsame hirr => exact hw.1 _
  | loop hsame hirr hr => exact reads_serialLoop (by rw [hr]; decide)
  | _ => exact hw

/-- A step that does not concern the keyboard. -/
theorem KeyInv.congr (h : KeyInv s0 tr s w) (hps2 : s'.ps2 = s.ps2) (hirr : s'.irr 1 = s.irr 1)
    (hscans : w'.Scans ↔ w.Scans) (htyped : typedOf es = []) (hread : scansOf es = []) :
    KeyInv s0 (tr ++ es) s' w' := by
  refine ⟨?_, ?_, ?_⟩
  · rw [hps2, hirr, hscans]
    exact h.full
  · rw [hirr, hscans]
    exact h.once
  · rw [typedOf_append, scansOf_append, htyped, hread, List.append_nil, List.append_nil, hps2]
    exact h.typed

theorem KeyInv.moves (h : KeyInv s0 tr s w) (hw : w.Reads) (hmoves : Moves s w es s' w') :
    KeyInv s0 (tr ++ es) s' w' := by
  cases hmoves with
  | rest hsame hirr hfree hfree' =>
    exact h.congr hsame.ps2 (congrFun hirr 1) (iff_of_false hfree'.aside.1 hfree.aside.1) rfl rfl
  | request hsame hirr => exact h.congr hsame.ps2 (hirr 1 (Or.inl rfl)) Iff.rfl rfl rfl
  | type sc =>
    refine ⟨h.full, h.once, ?_⟩
    rw [typedOf_append, ← List.append_assoc, h.typed]
    simp [typedOf, scansOf, readingsOf]
  | @load _ sc q hout =>
    have hempty : ¬ (s.irr 1 = true ∨ w.Scans) := by
      rw [← h.full, hout]
      exact fun h => h rfl
    refine ⟨iff_of_true nofun (Or.inl rfl), fun hboth => hempty (Or.inr hboth.2), ?_⟩
    have htyped := h.typed
    rw [hout] at htyped
    simpa [typedOf, scansOf, readingsOf] using htyped
  | arrive b => exact h.congr rfl rfl Iff.rfl rfl rfl
  | rise hfifo hline => exact h.congr rfl (raise_irr s (by decide)) Iff.rfl rfl rfl
  | @serve _ _ p n hsame hirr hirr' hfree hp =>
    by_cases hn : n = 1
    · subst hn
      have hfull : s.ps2.out ≠ none := h.full.2 (Or.inl hirr)
      have hscans : OctoOS.Scans p := hp.scans.2 rfl
      refine ⟨?_, ?_, ?_⟩
      · rw [hsame.ps2]
        exact iff_of_true hfull (Or.inr hscans)
      · rw [hirr', Function.update_self]
        exact fun h => nomatch h.1
      · rw [List.append_nil, hsame.ps2]
        exact h.typed
    · have hirr1 : s'.irr 1 = s.irr 1 := by
        rw [hirr', Function.update_of_ne (Ne.symm hn)]
      exact h.congr hsame.ps2 hirr1 (iff_of_false (fun hs => hn (hp.scans.1 hs)) hfree.aside.1) rfl rfl
  | spurious hsame hirr hfree hp =>
    exact h.congr hsame.ps2 (congrFun hirr 1)
      (iff_of_false (fun hs => absurd (hp.scans.1 hs) (by decide)) hfree.aside.1) rfl rfl
  | @act t _ o k a _ hans hsame hirr =>
    have hnext : ¬ Scans (k a) := (hw.2 a).1
    cases hans with
    | @scan _ sc q hout =>
      have hirr1 : s.irr 1 = false := by
        rw [← Bool.not_eq_true]
        exact fun h1 => h.once ⟨h1, rfl⟩
      refine ⟨?_, fun hboth => hnext hboth.2, ?_⟩
      · rw [hsame.ps2, hirr, hirr1]
        exact iff_of_false (fun hout => hout rfl) (fun h => h.elim nofun hnext)
      · have htyped := h.typed
        rw [hout] at htyped
        rw [hsame.ps2, typedOf_append, scansOf_append]
        simpa [typedOf, scansOf, readingsOf] using htyped
    | stale hout =>
      exact absurd hout (h.full.2 (Or.inr rfl))
    | _ => exact h.congr hsame.ps2 (congrFun hirr 1) (iff_of_false hnext (by simp [Work.Scans, Scans])) rfl rfl
  | loop hsame hirr hr =>
    exact h.congr hsame.ps2 (congrFun hirr 1) (iff_of_false (by decide : ¬ (0x3FD : UInt16) = 0x60) id) rfl rfl

/-- A step that does not concern the UART. -/
theorem LineInv.congr (h : LineInv s0 tr s w) (huart : s'.uart = s.uart) (hirr : s'.irr 4 = s.irr 4)
    (hdrains : w.Drains → w'.Drains) (hfetch : ¬ w'.Fetches) (harrived : arrivedOf es = [])
    (hread : bytesOf es = []) : LineInv s0 (tr ++ es) s' w' := by
  refine ⟨?_, fun hf => (hfetch hf).elim, ?_⟩
  · rw [huart, hirr]
    exact fun hline => ⟨(h.filled hline).1, (h.filled hline).2.imp id hdrains⟩
  · rw [arrivedOf_append, bytesOf_append, harrived, hread, List.append_nil, List.append_nil, huart]
    exact h.arrived

/-- An operation of the handler: it fetches a byte only after it has seen that there is one. -/
theorem LineInv.act {t : IrqSys} {o : IsrOp} {k : o.Ans → IsrProg IsrExit} {a : o.Ans}
    (h : LineInv s0 tr s (.isr (.op o k))) (hw : (Work.isr (.op o k)).Reads)
    (hans : IsrAnswers o a s es t) (hsame : SameDevices t s') (hirr : s'.irr = s.irr) :
    LineInv s0 (tr ++ es) s' (.isr (k a)) := by
  obtain ⟨-, hfetch, -, -⟩ := hw.2 a
  cases hans with
  | status hv =>
    refine ⟨?_, ?_, ?_⟩
    · rw [hsame.uart, hirr]
      intro hline
      obtain ⟨hfifo, hseen⟩ := h.filled hline
      refine ⟨hfifo, hseen.imp id fun hd => ?_⟩
      rcases hd with ⟨-, hd⟩ | ⟨hport, -⟩
      · exact hd _ (hv.2 hfifo)
      · cases hport
    · rw [hsame.uart]
      exact fun hf => hv.1 (hfetch hf).1.2
    · rw [List.append_nil, hsame.uart]
      exact h.arrived
  | @receive _ b rest hfifo line hline =>
    refine ⟨?_, ?_, ?_⟩
    · rw [hsame.uart, hirr]
      intro hup
      obtain ⟨hrest, hold⟩ := hline hup
      refine ⟨hrest, (h.filled hold).2.imp id fun hd => ?_⟩
      rcases hd with ⟨hport, -⟩ | ⟨-, hd⟩
      · cases hport
      · exact hd b
    · exact fun hf => absurd (hfetch hf).1.1 (by decide)
    · have harrived := h.arrived
      rw [hfifo] at harrived
      rw [hsame.uart, arrivedOf_append, bytesOf_append]
      simpa [arrivedOf, bytesOf, readingsOf] using harrived
  | empty hfifo => exact absurd hfifo (h.fetch rfl)
  | scan _ | stale _ =>
    exact h.congr hsame.uart (congrFun hirr 4) (fun hd => (not_drains_scan hd).elim)
      (fun hf => absurd (hfetch hf).1.1 (by decide)) rfl rfl
  | consoleInput c =>
    exact h.congr hsame.uart (congrFun hirr 4) id (fun hf => (hfetch hf).1) rfl rfl
  | _ => exact h.congr hsame.uart (congrFun hirr 4) (fun hd => hd.elim) (fun hf => (hfetch hf).1) rfl rfl

theorem LineInv.moves (h : LineInv s0 tr s w) (hw : w.Reads) (hmoves : Moves s w es s' w') :
    LineInv s0 (tr ++ es) s' w' := by
  cases hmoves with
  | rest hsame hirr hfree hfree' =>
    exact h.congr hsame.uart (congrFun hirr 4) (fun hd => (hfree.aside.2.2.1 hd).elim) hfree'.aside.2.1 rfl rfl
  | request hsame hirr =>
    refine ⟨?_, ?_, ?_⟩
    · rw [hsame.uart, hirr 4 (Or.inr rfl)]
      exact h.filled
    · rw [hsame.uart]
      exact h.fetch
    · rw [List.append_nil, hsame.uart]
      exact h.arrived
  | type sc =>
    refine ⟨h.filled, h.fetch, ?_⟩
    rw [arrivedOf_append, bytesOf_append]
    simpa [arrivedOf, bytesOf, readingsOf] using h.arrived
  | load hout =>
    refine ⟨?_, h.fetch, ?_⟩
    · have hirr : (s.pic.raise 1).master.irr 4 = s.irr 4 := raise_irr s (by decide)
      intro hline
      obtain ⟨hfifo, hseen⟩ := h.filled hline
      exact ⟨hfifo, hseen.imp (fun h => hirr.trans h) id⟩
    · rw [List.append_nil]
      exact h.arrived
  | arrive b =>
    refine ⟨fun hline => ⟨by simp, (h.filled hline).2⟩, fun _ => by simp, ?_⟩
    rw [arrivedOf_append, ← List.append_assoc, h.arrived]
    simp [arrivedOf, bytesOf, readingsOf]
  | rise hfifo hline =>
    refine ⟨fun _ => ⟨hfifo, Or.inl rfl⟩, fun _ => hfifo, ?_⟩
    rw [List.append_nil]
    exact h.arrived
  | @serve _ _ p n hsame hirr hirr' hfree hp =>
    by_cases hn : n = 4
    · refine ⟨?_, fun hf => (hp.fetches hf).elim, ?_⟩
      · rw [hsame.uart]
        exact fun hline => ⟨(h.filled hline).1, Or.inr (hp.drains.2 hn)⟩
      · rw [List.append_nil, hsame.uart]
        exact h.arrived
    · have hirr4 : s'.irr 4 = s.irr 4 := by
        rw [hirr', Function.update_of_ne (Ne.symm hn)]
      exact h.congr hsame.uart hirr4 (fun hd => (hfree.aside.2.2.1 hd).elim) hp.fetches rfl rfl
  | spurious hsame hirr hfree hp =>
    exact h.congr hsame.uart (congrFun hirr 4) (fun hd => (hfree.aside.2.2.1 hd).elim) hp.fetches rfl rfl
  | act hans hsame hirr => exact h.act hw hans hsame hirr
  | loop hsame hirr hr =>
    exact h.congr hsame.uart (congrFun hirr 4) (fun _ => drains_serialLoop _)
      (by decide : ¬ (0x3FD : UInt16) = 0x3F8) rfl rfl

/-- A step without a reading and without an input. -/
theorem LogInv.congr (h : LogInv s0 tr s w) (hsettle : w'.settle s'.keys = w.settle s.keys)
    (hread : readingsOf es = []) (hinput : inputsOf es = []) : LogInv s0 (tr ++ es) s' w' := by
  rw [LogInv, readingsOf_append, inputsOf_append, hread, hinput, hsettle, List.append_nil, List.append_nil]
  exact h

/-- A reading: what is to be done for it is to be done by the rest of the handler. -/
theorem LogInv.reading (h : LogInv s0 tr s w) {r : Reading} (hbefore : w.settle s.keys = (s.keys, []))
    (hafter : w'.settle s'.keys = decodeReadings s.keys [r]) : LogInv s0 (tr ++ [.reading r]) s' w' := by
  rw [LogInv, hbefore, List.append_nil] at h
  rw [LogInv, readingsOf_append, inputsOf_append, decodeReadings_append, h, hafter]
  simp [readingsOf, inputsOf]

theorem LogInv.moves (h : LogInv s0 tr s w) (hw : w.Reads) (hscans : w.Scans → s.ps2.out ≠ none)
    (hfetches : w.Fetches → s.uart.fifo ≠ []) (hmoves : Moves s w es s' w') : LogInv s0 (tr ++ es) s' w' := by
  cases hmoves with
  | rest hsame hirr hfree hfree' =>
    refine h.congr ?_ rfl rfl
    rw [hfree'.aside.2.2.2.2, hfree.aside.2.2.2.2, hsame.keys]
  | request hsame hirr =>
    refine h.congr ?_ rfl rfl
    rw [hsame.keys]
  | type _ | load _ | arrive _ | rise _ _ => exact h.congr rfl rfl rfl
  | serve hsame _ _ hfree hp | spurious hsame _ hfree hp =>
    refine h.congr ?_ rfl rfl
    rw [hfree.aside.2.2.2.2, hsame.keys]
    exact hp.settled _
  | @act t _ o k a _ hans hsame hirr =>
    obtain ⟨-, -, -, hdue⟩ := hw.2 a
    cases hans with
    | @scan _ sc q hout =>
      refine h.reading rfl ?_
      rw [hsame.keys]
      show settle (k sc) s.keys = _
      rw [hdue id]
      simp [IsrOp.due, decodeReadings]
    | stale hout => exact absurd hout (hscans rfl)
    | @receive _ b rest hfifo line hline =>
      refine h.reading rfl ?_
      rw [hsame.keys]
      show settle (k b) s.keys = _
      rw [hdue id]
      rfl
    | empty hfifo => exact absurd hfifo (hfetches rfl)
    | consoleInput c =>
      rw [LogInv, hsame.keys, readingsOf_append, inputsOf_append, List.append_assoc]
      show decodeReadings s0.keys (readingsOf tr ++ []) = _
      rw [List.append_nil]
      exact h
    | keys =>
      refine h.congr ?_ rfl rfl
      rw [hsame.keys]
      rfl
    | setKeys ks =>
      refine h.congr ?_ rfl rfl
      rw [hsame.keys]
      rfl
    | _ =>
      refine h.congr ?_ rfl rfl
      rw [hsame.keys]
      exact hdue id _
  | loop hsame hirr hr =>
    refine h.congr ?_ rfl rfl
    rw [hsame.keys]
    rfl

/-- The keyboard is not heard. -/
structure KeyLost (tr : List IrqEvent) (s : IrqSys) (w : Work) : Prop where
  full : s.ps2.out ≠ none
  silent : s.irr 1 = false
  unread : ¬ w.Scans
  none : scansOf tr = []

/-- The UART is not heard. -/
structure LineLost (tr : List IrqEvent) (s : IrqSys) (w : Work) : Prop where
  up : s.uart.line = true
  silent : s.irr 4 = false
  undrained : ¬ w.Drains
  unread : ¬ w.Fetches
  none : bytesOf tr = []

theorem KeyLost.congr (h : KeyLost tr s w) (hps2 : s'.ps2.out = s.ps2.out) (hirr : s'.irr 1 = s.irr 1)
    (hscans : ¬ w'.Scans) (hread : scansOf es = []) : KeyLost (tr ++ es) s' w' :=
  ⟨hps2 ▸ h.full, hirr.trans h.silent, hscans, by rw [scansOf_append, h.none, hread]; rfl⟩

theorem KeyLost.moves (h : KeyLost tr s w) (hw : w.Reads) (hmoves : Moves s w es s' w') :
    KeyLost (tr ++ es) s' w' := by
  cases hmoves with
  | rest hsame hirr hfree hfree' =>
    exact h.congr (by rw [hsame.ps2]) (congrFun hirr 1) hfree'.aside.1 rfl
  | request hsame hirr => exact h.congr (by rw [hsame.ps2]) (hirr 1 (Or.inl rfl)) h.unread rfl
  | type _ | arrive _ => exact h.congr rfl rfl h.unread rfl
  | load hout => exact absurd (by rw [hout]) h.full
  | rise hfifo hline => exact h.congr rfl (raise_irr s (by decide)) h.unread rfl
  | @serve _ _ p n hsame hirr hirr' hfree hp =>
    have hn : n ≠ 1 := by
      rintro rfl
      exact nomatch h.silent.symm.trans hirr
    refine h.congr (by rw [hsame.ps2]) ?_ (fun hs => hn (hp.scans.1 hs)) rfl
    rw [hirr', Function.update_of_ne (Ne.symm hn)]
  | spurious hsame hirr hfree hp =>
    exact h.congr (by rw [hsame.ps2]) (congrFun hirr 1) (fun hs => absurd (hp.scans.1 hs) (by decide)) rfl
  | @act t _ o k a _ hans hsame hirr =>
    have hnext : ¬ Scans (k a) := (hw.2 a).1
    cases hans with
    | scan hout => exact absurd rfl h.unread
    | _ => exact h.congr (by rw [hsame.ps2]) (congrFun hirr 1) hnext rfl
  | loop hsame hirr hr =>
    exact h.congr (by rw [hsame.ps2]) (congrFun hirr 1) (by decide : ¬ (0x3FD : UInt16) = 0x60) rfl

theorem LineLost.congr (h : LineLost tr s w) (hline : s'.uart.line = s.uart.line)
    (hirr : s'.irr 4 = s.irr 4) (hdrains : ¬ w'.Drains) (hfetches : ¬ w'.Fetches)
    (hread : bytesOf es = []) : LineLost (tr ++ es) s' w' :=
  ⟨hline.trans h.up, hirr.trans h.silent, hdrains, hfetches, by rw [bytesOf_append, h.none, hread]; rfl⟩

theorem LineLost.moves (h : LineLost tr s w) (hw : w.Reads) (hmoves : Moves s w es s' w') :
    LineLost (tr ++ es) s' w' := by
  cases hmoves with
  | rest hsame hirr hfree hfree' =>
    exact h.congr (by rw [hsame.uart]) (congrFun hirr 4) hfree'.aside.2.2.1 hfree'.aside.2.1 rfl
  | request hsame hirr =>
    exact h.congr (by rw [hsame.uart]) (hirr 4 (Or.inr rfl)) h.undrained h.unread rfl
  | type _ | arrive _ => exact h.congr rfl rfl h.undrained h.unread rfl
  | load hout => exact h.congr rfl (raise_irr s (by decide)) h.undrained h.unread rfl
  | rise hfifo hline => exact nomatch hline.symm.trans h.up
  | @serve _ _ p n hsame hirr hirr' hfree hp =>
    have hn : n ≠ 4 := by
      rintro rfl
      exact nomatch h.silent.symm.trans hirr
    refine h.congr (by rw [hsame.uart]) ?_ (fun hd => hn (hp.drains.1 hd)) hp.fetches rfl
    rw [hirr', Function.update_of_ne (Ne.symm hn)]
  | spurious hsame hirr hfree hp =>
    exact h.congr (by rw [hsame.uart]) (congrFun hirr 4) (fun hd => absurd (hp.drains.1 hd) (by decide))
      hp.fetches rfl
  | @act t _ o k a _ hans hsame hirr =>
    obtain ⟨-, hfetch, hback, -⟩ := hw.2 a
    have hdrains : ¬ Drains (k a) := fun hd => h.undrained (hback hd)
    have hfetches : ¬ Fetches (k a) := fun hf => hdrains (hfetch hf).2
    cases hans with
    | receive hfifo line hline => exact absurd rfl h.unread
    | _ => exact h.congr (by rw [hsame.uart]) (congrFun hirr 4) hdrains hfetches rfl
  | loop hsame hirr hr => exact absurd trivial h.undrained

/-- What every move keeps holds in every run. -/
theorem IrqRun.moves {P : List IrqEvent → IrqSys → Work → Prop} (hboot : Booted s0) (hinit : P [] s0 .code)
    (hkeep : ∀ {tr es s s' w w'}, P tr s w → w.Reads → Moves s w es s' w' → P (tr ++ es) s' w')
    (hrun : IrqRun s0 tr s) : ∃ c, s.tasks s.cur = some c ∧ P tr s c.work := by
  suffices hall : ∃ c, s.tasks s.cur = some c ∧ c.work.Reads ∧ P tr s c.work by
    obtain ⟨c, hc, -, hP⟩ := hall
    exact ⟨c, hc, hP⟩
  induction hrun with
  | boot => exact ⟨_, hboot.shell, trivial, hinit⟩
  | step hrun hstep ih =>
    obtain ⟨c, hc, hreads, hP⟩ := ih
    obtain ⟨c', hc', hmoves⟩ := hstep.moves (hrun.orderly hboot) hc
    exact ⟨c', hc', hmoves.reads hreads, hkeep hP hreads hmoves⟩

end Moves

theorem Booted.silent {s0 : IrqSys} (hboot : Booted s0) (n : ℕ) : s0.irr n = false := by
  rw [IrqSys.irr, hboot.pic]
  rfl

/-- In every run from a start with an empty output buffer and the line of the UART down: each scan code
    that the keyboard sends and each byte that the UART has room for is read exactly once, in order;
    while no handler is at work all of it has reached `console_input`, decoded, in the order of the
    readings; and when interrupts are on, a scan code in the output buffer
    and a raised line of the UART have a request that is accepted next, unless one of higher priority is. -/
theorem irq_delivers {s0 s : IrqSys} {tr : List IrqEvent} (hboot : Booted s0) (hout : s0.ps2.out = none)
    (hline : s0.uart.line = false) (hrun : IrqRun s0 tr s) :
    s0.ps2.queue ++ typedOf tr = scansOf tr ++ (s.ps2.out.toList ++ s.ps2.queue) ∧
    s0.uart.fifo ++ arrivedOf tr = bytesOf tr ++ s.uart.fifo ∧
    ∃ c, s.tasks s.cur = some c ∧
      (¬ c.work.Owes → decodeReadings s0.keys (readingsOf tr) = (s.keys, inputsOf tr)) ∧
      (c.ifl = true → ¬ c.work.Owes ∧
        (s.ps2.out ≠ none → ∃ m q, m ≤ 1 ∧ s.pic.acknowledge = some (32 + m, q)) ∧
        (s.uart.line = true → ∃ m q, m ≤ 4 ∧ s.pic.acknowledge = some (32 + m, q))) := by
  have hkey : KeyInv s0 [] s0 .code := by
    refine ⟨?_, fun h => h.2, ?_⟩
    · rw [hout, hboot.silent]
      exact iff_of_false (fun h => h rfl) (fun h => h.elim nofun id)
    · rw [hout]
      exact List.append_nil _
  have huart : LineInv s0 [] s0 .code := by
    refine ⟨?_, fun h => h.elim, List.append_nil _⟩
    rw [hline]
    exact nofun
  obtain ⟨c, hc, hkey, huart, hlog⟩ :=
    hrun.moves (P := fun tr s w => KeyInv s0 tr s w ∧ LineInv s0 tr s w ∧ LogInv s0 tr s w) hboot
      ⟨hkey, huart, rfl⟩ fun h hw hmoves =>
        ⟨h.1.moves hw hmoves, h.2.1.moves hw hmoves,
          h.2.2.moves hw (fun hs => h.1.full.2 (Or.inr hs)) h.2.1.fetch hmoves⟩
  have horderly := hrun.orderly hboot
  refine ⟨hkey.typed, huart.arrived, c, hc, ?_, ?_⟩
  · intro howes
    have hfree : c.work.Free := (horderly.mode hc).elim And.left fun h => (howes h.1).elim
    rw [LogInv, hfree.aside.2.2.2.2, List.append_nil] at hlog
    exact hlog
  · intro hifl
    obtain ⟨hfree, hquiet⟩ := horderly.quiet_of_ifl hc hifl
    refine ⟨hfree.not_owes, fun hfull => ?_, fun hup => ?_⟩
    · have hirr := (hkey.full.1 hfull).resolve_right hfree.aside.1
      exact horderly.mapped.acknowledges hquiet (Or.inr (Or.inl rfl)) hirr
    · have hirr := (huart.filled hup).2.resolve_right hfree.aside.2.2.1
      exact horderly.mapped.acknowledges hquiet (Or.inr (Or.inr rfl)) hirr

/-- The key `a` is pressed. -/
def keyTrace : List IrqEvent := [.typed 0x1E, .reading (.scan 0x1E), .input 0x61]

/-- From the keyboard to `console_input` and back to the shell. -/
theorem irqRun_keyTrace : ∃ s : IrqSys, IrqRun irqBoot keyTrace s ∧ s.tasks s.cur = some ⟨true, .code, []⟩ := by
  have htyped : IrqRun irqBoot _ _ := .step (.step .boot (.type irqBoot 0x1E)) (.load rfl)
  have hentered : IrqRun irqBoot _ _ :=
    .step htyped (.accept (c := ⟨true, .code, []⟩) (v := 33) (r := regsOf 33) rfl rfl rfl rfl)
  have hscanned : IrqRun irqBoot _ _ := .step hentered (.act (o := .inb 0x60) rfl rfl (.scan rfl))
  have hkeys : IrqRun irqBoot _ _ := .step hscanned (.act (o := .keys) rfl rfl (.keys _))
  have hset : IrqRun irqBoot _ _ := .step hkeys (.act (o := .setKeys _) rfl rfl (.setKeys _ _))
  have hfed : IrqRun irqBoot _ _ :=
    .step hset (.act (o := .consoleInput 0x61) rfl rfl (.consoleInput _ _))
  have hended : IrqRun irqBoot _ _ := .step hfed (.act (o := .outb 0x20 0x20) rfl rfl (.outb _ _ _))
  exact ⟨_, .step hended (.iret rfl rfl rfl), rfl⟩

theorem irq_delivers_key : ∃ s, IrqRun irqBoot keyTrace s ∧ s.ps2.out = none ∧
    decodeReadings irqBoot.keys [.scan 0x1E] = (s.keys, [0x61]) := by
  obtain ⟨s, hrun, hcur⟩ := irqRun_keyTrace
  obtain ⟨htyped, -, c, hc, hdecoded, -⟩ := irq_delivers booted_irqBoot rfl rfl hrun
  obtain rfl : ⟨true, .code, []⟩ = c := Option.some.inj (hcur.symm.trans hc)
  refine ⟨s, hrun, ?_, hdecoded id⟩
  have hrest : [0x1E] ++ (s.ps2.out.toList ++ s.ps2.queue) = [0x1E] ++ [] := htyped.symm
  exact Option.toList_eq_nil_iff.1 (List.append_eq_nil_iff.1 (List.append_cancel_left hrest)).1

/-- A device that has raised its line when `pic_remap` runs is not heard again: its request is
    forgotten, and no new one comes before a handler has read from it. -/
theorem raised_before_remap_unheard {s0 s : IrqSys} {tr : List IrqEvent} (hboot : Booted s0)
    (hrun : IrqRun s0 tr s) :
    (s0.ps2.out ≠ none → scansOf tr = [] ∧ s.ps2.out ≠ none) ∧
    (s0.uart.line = true → bytesOf tr = [] ∧ s.uart.line = true) := by
  refine ⟨fun hfull => ?_, fun hup => ?_⟩
  · obtain ⟨c, -, h⟩ := hrun.moves (P := KeyLost) hboot ⟨hfull, hboot.silent 1, id, rfl⟩ KeyLost.moves
    exact ⟨h.none, h.full⟩
  · obtain ⟨c, -, h⟩ := hrun.moves (P := LineLost) hboot ⟨hup, hboot.silent 4, id, id, rfl⟩ LineLost.moves
    exact ⟨h.none, h.up⟩

/-- A key was pressed while the kernel started. -/
def keyBeforeRemap : IrqSys := { irqBoot with ps2 := ⟨some 0x1E, []⟩ }

/-- It is released, and `a` comes in over the serial line. -/
def serialTrace : List IrqEvent := [.typed 0x9E, .arrived 0x61, .reading (.byte 0x61), .input 0x61]

/-- The serial line is served, up to the return to the shell. -/
theorem irqRun_serialTrace : ∃ s : IrqSys, IrqRun keyBeforeRemap serialTrace s ∧
    s.tasks s.cur = some ⟨true, .code, []⟩ := by
  have hrisen : IrqRun keyBeforeRemap _ _ :=
    .step (.step (.step .boot (.type keyBeforeRemap 0x9E)) (.arrive (by decide) 0x61)) (.rise (by decide) rfl)
  have hentered : IrqRun keyBeforeRemap _ _ :=
    .step hrisen (.accept (c := ⟨true, .code, []⟩) (v := 36) (r := regsOf 36) rfl rfl rfl rfl)
  have htested : IrqRun keyBeforeRemap _ _ :=
    .step (.step hentered (.loop rfl rfl)) (.act (o := .inb 0x3FD) (a := (0x61 : UInt8)) rfl rfl (.status (by decide)))
  have hread : IrqRun keyBeforeRemap _ _ :=
    .step htested (.act (o := .inb 0x3F8) rfl rfl (.receive rfl false nofun))
  have hfed : IrqRun keyBeforeRemap _ _ :=
    .step hread (.act (o := .consoleInput 0x61) rfl rfl (.consoleInput _ _))
  have hdrained : IrqRun keyBeforeRemap _ _ :=
    .step (.step hfed (.loop rfl rfl)) (.act (o := .inb 0x3FD) (a := (0x60 : UInt8)) rfl rfl (.status (by decide)))
  have hended : IrqRun keyBeforeRemap _ _ :=
    .step hdrained (.act (o := .outb 0x20 0x20) rfl rfl (.outb _ _ _))
  exact ⟨_, .step hended (.iret rfl rfl rfl), rfl⟩

theorem raised_before_remap_unheard_key : ∃ s, IrqRun keyBeforeRemap serialTrace s ∧
    s.tasks s.cur = some ⟨true, .code, []⟩ ∧ bytesOf serialTrace = [0x61] ∧
    scansOf serialTrace = [] ∧ s.ps2.out ≠ none := by
  obtain ⟨s, hrun, hshell⟩ := irqRun_serialTrace
  have hboot : Booted keyBeforeRemap :=
    ⟨booted_irqBoot.remapped, booted_irqBoot.shell, booted_irqBoot.alone⟩
  exact ⟨s, hrun, hshell, rfl, (raised_before_remap_unheard hboot hrun).1 nofun⟩

end OctoOS
