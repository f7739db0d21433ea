import OctoOS.Lib.PortIo
import Mathlib.Data.List.Basic

set_option autoImplicit false

/-! # A pair of 8259 interrupt controllers

Each chip has eight lines in the order of their priority, with a request, a service and a mask bit each.
The processor acknowledges the first requested line that is not masked, if no line of the same or a
higher priority is in service; the line is then in service until an end-of-interrupt command. The
non-specific command ends the service of the first line in service, whichever that is. The second chip
requests through line 2 of the first. -/

namespace Pic

open PortIo

/-- The words of the initialization that a chip still waits for. -/
inductive Icw where
  | vectors
  | cascade
  | mode
  deriving DecidableEq

structure Chip where
  irr : ℕ → Bool
  isr : ℕ → Bool
  imr : ℕ → Bool
  offset : ℕ
  awaits : List Icw

namespace Chip

/-- The request lines with those that come from outside of the chip. -/
def first (p : ℕ → Bool) : Option ℕ := (List.range 8).find? p

/-- Line `n` is not held up by a line in service. -/
def unblocked (c : Chip) (n : ℕ) : Bool := (List.range (n + 1)).all fun m => !c.isr m

/-- The line to acknowledge, for the requests `irr`. -/
def pending (c : Chip) (irr : ℕ → Bool) : Option ℕ := first fun n => irr n && !c.imr n && c.unblocked n

/-- Line `n` goes into service. -/
def serve (c : Chip) (n : ℕ) : Chip :=
  { c with irr := Function.update c.irr n false, isr := Function.update c.isr n true }

/-- The non-specific end of interrupt. -/
def eoi (c : Chip) : Chip :=
  match first c.isr with
  | some n => { c with isr := Function.update c.isr n false }
  | none => c

/-- A write to the command port: the start of an initialization, or a non-specific end of interrupt.
    Other commands are left out. -/
def command (c : Chip) (v : UInt8) : Chip :=
  if v.toNat.testBit 4 then
    { c with
      irr := fun _ => false, isr := fun _ => false, imr := fun _ => false
      awaits := [.vectors] ++ (if v.toNat.testBit 1 then [] else [.cascade])
        ++ (if v.toNat.testBit 0 then [.mode] else []) }
  else if v = 0x20 then c.eoi
  else c

/-- A write to the data port: a word of the initialization, or the mask. -/
def data (c : Chip) (v : UInt8) : Chip :=
  match c.awaits with
  | .vectors :: rest => { c with offset := v.toNat / 8 * 8, awaits := rest }
  | _ :: rest => { c with awaits := rest }
  | [] => { c with imr := v.toNat.testBit }

end Chip

structure Pair where
  master : Chip
  slave : Chip

namespace Pair

/-- The requests that the master sees. -/
def requests (p : Pair) : ℕ → Bool :=
  Function.update p.master.irr 2 (p.slave.pending p.slave.irr).isSome

/-- The processor acknowledges: the vector and the chips after it. -/
def acknowledge (p : Pair) : Option (ℕ × Pair) :=
  match p.master.pending p.requests with
  | none => none
  | some 2 =>
    match p.slave.pending p.slave.irr with
    | some n => some (p.slave.offset + n, ⟨p.master.serve 2, p.slave.serve n⟩)
    | none => none
  | some n => some (p.master.offset + n, { p with master := p.master.serve n })

/-- A device requests. -/
def raise (p : Pair) (n : ℕ) : Pair :=
  if n < 8 then { p with master := { p.master with irr := Function.update p.master.irr n true } }
  else { p with slave := { p.slave with irr := Function.update p.slave.irr (n - 8) true } }

def outb (port : UInt16) (v : UInt8) (p : Pair) : Pair :=
  if port = 0x20 then { p with master := p.master.command v }
  else if port = 0x21 then { p with master := p.master.data v }
  else if port = 0xA0 then { p with slave := p.slave.command v }
  else if port = 0xA1 then { p with slave := p.slave.data v }
  else p

end Pair

/-- The chips as a device; their registers are not read. -/
def device : Device Pair := ⟨fun _ p => (0xFF, p), Pair.outb, fun _ p => (0xFFFF, p), fun _ _ p => p⟩

/-! ## Service -/

namespace Chip

variable {c : Chip} {n m : ℕ} {p : ℕ → Bool}

/-- No line is in service. -/
def Quiet (c : Chip) : Prop := ∀ n, c.isr n = false

/-- Line `n` is in service, and no other. -/
def Serves (c : Chip) (n : ℕ) : Prop := n < 8 ∧ ∀ m, c.isr m = decide (m = n)

theorem first_eq_some (h : first p = some n) : n < 8 ∧ p n = true :=
  ⟨List.mem_range.1 (List.mem_of_find?_eq_some h), List.find?_some h⟩

/-- The first line is not behind any other. -/
theorem first_le (hn : n < 8) (h : p n = true) : ∃ m, m ≤ n ∧ first p = some m := by
  cases hf : first p with
  | none => exact absurd h (List.find?_eq_none.1 hf n (List.mem_range.2 hn))
  | some m =>
    refine ⟨m, ?_, rfl⟩
    by_contra hlt
    have hbefore := (List.find?_range_eq_some.1 hf).2.2 n (by omega)
    rw [h] at hbefore
    exact nomatch hbefore

theorem first_eq_none (h : ∀ n, p n = false) : first p = none := by
  rw [first, List.find?_eq_none]
  intro n _
  rw [h n]
  simp

theorem first_single (hn : n < 8) (h : ∀ m, p m = decide (m = n)) : first p = some n := by
  cases hf : first p with
  | none =>
    have hnone := (List.find?_eq_none.1 hf) n (List.mem_range.2 hn)
    rw [h n] at hnone
    simp at hnone
  | some m =>
    have hm := (first_eq_some hf).2
    rw [h m] at hm
    rw [of_decide_eq_true hm]

theorem Quiet.serve (h : c.Quiet) (hn : n < 8) : (c.serve n).Serves n := by
  refine ⟨hn, fun m => ?_⟩
  show Function.update c.isr n true m = _
  by_cases hm : m = n
  · rw [hm, Function.update_self, decide_eq_true rfl]
  · rw [Function.update_of_ne hm, h m, decide_eq_false hm]

/-- The only line in service is the one that ends. -/
theorem Serves.eoi (h : c.Serves n) : c.eoi.Quiet := by
  intro m
  rw [Chip.eoi, first_single h.1 h.2]
  show Function.update c.isr n false m = false
  by_cases hm : m = n
  · rw [hm, Function.update_self]
  · rw [Function.update_of_ne hm, h.2 m, decide_eq_false hm]

/-- An end of interrupt without one has no effect. -/
theorem Quiet.eoi (h : c.Quiet) : c.eoi = c := by
  rw [Chip.eoi, first_eq_none h]

theorem Quiet.unblocked (h : c.Quiet) (n : ℕ) : c.unblocked n = true := by
  rw [Chip.unblocked, List.all_eq_true]
  intro m _
  rw [h m]
  rfl

end Chip

end Pic
