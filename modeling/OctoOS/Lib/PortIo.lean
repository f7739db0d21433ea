import Mathlib.Data.List.GetD
import OctoOS.Lib.Prog
import OctoOS.Lib.Memory

set_option autoImplicit false

/-! # Drivers of port-mapped devices

A driver is a program of accesses to ports, and a device answers them: it has a state, and every
access may change it. Three patterns make up such drivers. `poll` reads a status until it decides
the matter or the patience ends; `Waits` says how long the device leaves it undecided. `insw` and `outsw` move a
block of 16-bit words between the device and a memory. -/

theorem Mem.write_nil (m : Mem) (a : ℕ) : m.write a [] = m := by
  funext i
  exact if_neg (by simp)

theorem Mem.write_append (m : Mem) (a : ℕ) (bs cs : List UInt8) :
    (m.write a bs).write (a + bs.length) cs = m.write a (bs ++ cs) := by
  funext i
  simp only [Mem.write, List.length_append]
  by_cases hlow : a ≤ i ∧ i < a + bs.length
  · rw [if_neg (by omega), if_pos hlow, if_pos (by omega), List.getD_append _ _ _ _ (by omega)]
  · by_cases hhigh : a + bs.length ≤ i ∧ i < a + bs.length + cs.length
    · rw [if_pos hhigh, if_pos (by omega), List.getD_append_right _ _ _ _ (by omega), Nat.sub_sub]
    · rw [if_neg hhigh, if_neg hlow, if_neg (by omega)]

namespace PortIo

open Atomic

inductive Op where
  | inb (port : UInt16)
  | outb (port : UInt16) (v : UInt8)
  | inw (port : UInt16)
  | outw (port : UInt16) (v : UInt16)

def Op.Ans : Op → Type
  | .inb _ => UInt8
  | .inw _ => UInt16
  | _ => Unit

def sig : Sig := ⟨Op, Op.Ans⟩

abbrev Driver := Prog sig

def inb (port : UInt16) : Driver UInt8 := perform (S := sig) (.inb port)
def outb (port : UInt16) (v : UInt8) : Driver Unit := perform (S := sig) (.outb port v)
def inw (port : UInt16) : Driver UInt16 := perform (S := sig) (.inw port)
def outw (port : UInt16) (v : UInt16) : Driver Unit := perform (S := sig) (.outw port v)

/-- What a device with states `δ` does when a port of it is accessed. -/
structure Device (δ : Type) where
  inb : UInt16 → δ → UInt8 × δ
  outb : UInt16 → UInt8 → δ → δ
  inw : UInt16 → δ → UInt16 × δ
  outw : UInt16 → UInt16 → δ → δ

variable {δ α : Type}

def Device.handler (dev : Device δ) : Handler sig δ
  | .inb port, d => .ok (dev.inb port d)
  | .outb port v, d => .ok ((), dev.outb port v d)
  | .inw port, d => .ok (dev.inw port d)
  | .outw port v, d => .ok ((), dev.outw port v d)

section Runs

variable (dev : Device δ) (port : UInt16) (d : δ)

@[simp] theorem inb_run : (inb port).run dev.handler d = .ok (dev.inb port d) := rfl

@[simp] theorem outb_run (v : UInt8) : (outb port v).run dev.handler d = .ok ((), dev.outb port v d) :=
  rfl

@[simp] theorem inw_run : (inw port).run dev.handler d = .ok (dev.inw port d) := rfl

end Runs

/-! ## Polling -/

/-- Read a port until `test` has an answer, at most `n` times. -/
def poll (port : UInt16) (test : UInt8 → Option α) : ℕ → Driver (Option α)
  | 0 => return none
  | n + 1 => do
    match test (← inb port) with
    | some a => return some a
    | none => poll port test n

/-- `k` reads of the port in a row leave the test undecided. -/
inductive Waits (dev : Device δ) (port : UInt16) (test : UInt8 → Option α) : ℕ → δ → δ → Prop
  | none {d : δ} : Waits dev port test 0 d d
  | more {d d' d'' : δ} {v : UInt8} {k : ℕ} (hread : dev.inb port d = (v, d')) (htest : test v = none)
      (hrest : Waits dev port test k d' d'') : Waits dev port test (k + 1) d d''

section Poll

variable {dev : Device δ} {port : UInt16} {test : UInt8 → Option α} {k n : ℕ} {d d' d'' : δ}

theorem poll_waits (h : Waits dev port test k d d') (n : ℕ) :
    (poll port test (k + n)).run dev.handler d = (poll port test n).run dev.handler d' := by
  induction h with
  | none => rw [Nat.zero_add]
  | more hread htest _ ih =>
    rw [Nat.succ_add, poll, Prog.run_bind, inb_run, hread]
    simp only [htest]
    exact ih

/-- A device that decides in time is seen to decide. -/
theorem poll_run {v : UInt8} {a : α} (h : Waits dev port test k d d') (hread : dev.inb port d' = (v, d''))
    (htest : test v = some a) (hk : k < n) :
    (poll port test n).run dev.handler d = .ok (some a, d'') := by
  obtain ⟨j, rfl⟩ : ∃ j, n = k + (j + 1) := ⟨n - k - 1, by omega⟩
  rw [poll_waits h, poll, Prog.run_bind, inb_run, hread]
  simp only [htest]
  rfl

/-- A device that does not is given up. -/
theorem poll_gives_up (h : Waits dev port test n d d') :
    (poll port test n).run dev.handler d = .ok (none, d') :=
  poll_waits h 0

end Poll

/-! ## Blocks of words -/

/-- The `n` words of a memory from `a` on. -/
def halves (m : Mem) : ℕ → ℕ → List UInt16
  | _, 0 => []
  | a, n + 1 => UInt16.ofNat (m.half a) :: halves m (a + 2) n

/-- Words stored from `a` on. -/
def setHalves (m : Mem) : ℕ → List UInt16 → Mem
  | _, [] => m
  | a, w :: ws => setHalves (m.setHalf a w.toNat) (a + 2) ws

/-- Byte `i` of a block of words. -/
def blockByte (ws : List UInt16) (i : ℕ) : UInt8 :=
  UInt8.ofNat ((ws.getD (i / 2) 0).toNat / 256 ^ (i % 2))

section Blocks

variable {m : Mem} {a n i : ℕ} {w : UInt16} {ws : List UInt16}

@[simp] theorem length_halves (m : Mem) (a n : ℕ) : (halves m a n).length = n := by
  induction n generalizing a with
  | zero => rfl
  | succ n ih => rw [halves, List.length_cons, ih]

theorem blockByte_cons_low (w : UInt16) (ws : List UInt16) :
    blockByte (w :: ws) 0 = UInt8.ofNat w.toNat := by
  simp [blockByte]

theorem blockByte_cons_high (w : UInt16) (ws : List UInt16) :
    blockByte (w :: ws) 1 = UInt8.ofNat (w.toNat / 256) := by
  simp [blockByte]

theorem blockByte_cons_add (w : UInt16) (ws : List UInt16) (i : ℕ) :
    blockByte (w :: ws) (i + 2) = blockByte ws i := by
  have hdiv : (i + 2) / 2 = i / 2 + 1 := by omega
  have hmod : (i + 2) % 2 = i % 2 := by omega
  rw [blockByte, blockByte, hdiv, hmod, List.getD_cons_succ]

/-- The bytes of the words of a memory are the bytes of the memory. -/
theorem blockByte_halves (hi : i < 2 * n) : blockByte (halves m a n) i = m (a + i) := by
  induction n generalizing a i with
  | zero => exact absurd hi (Nat.not_lt_zero i)
  | succ n ih =>
    have h0 := (m a).toNat_lt
    have h1 := (m (a + 1)).toNat_lt
    have hw : (UInt16.ofNat (m.half a)).toNat = (m a).toNat + 256 * (m (a + 1)).toNat := by
      rw [UInt16.toNat_ofNat', Mem.half]
      omega
    rw [halves]
    match i with
    | 0 =>
      rw [blockByte_cons_low, hw]
      apply UInt8.toNat_inj.1
      simp only [UInt8.toNat_ofNat', Nat.add_zero]
      omega
    | 1 =>
      rw [blockByte_cons_high, hw]
      apply UInt8.toNat_inj.1
      simp only [UInt8.toNat_ofNat']
      omega
    | i + 2 =>
      rw [blockByte_cons_add, ih (by omega)]
      congr 1
      omega

/-- Storing a block stores its bytes. -/
theorem setHalves_eq (m : Mem) (a : ℕ) (ws : List UInt16) :
    setHalves m a ws
      = fun i => if a ≤ i ∧ i < a + 2 * ws.length then blockByte ws (i - a) else m i := by
  induction ws generalizing a m with
  | nil =>
    funext i
    rw [if_neg (by simp)]
    rfl
  | cons w ws ih =>
    funext i
    rw [setHalves, ih, List.length_cons]
    by_cases hrest : a + 2 ≤ i ∧ i < a + 2 + 2 * ws.length
    · have hsub : i - a = i - (a + 2) + 2 := by omega
      simp only [if_pos hrest]
      rw [if_pos (by omega), hsub, blockByte_cons_add]
    · simp only [if_neg hrest, Mem.setHalf]
      by_cases hlow : i = a
      · subst hlow
        rw [if_pos (by omega), if_pos (by omega), Nat.sub_self, blockByte_cons_low, Nat.pow_zero,
          Nat.div_one]
      · by_cases hhigh : i = a + 1
        · subst hhigh
          rw [if_pos (by omega), if_pos (by omega), Nat.add_sub_cancel_left, blockByte_cons_high,
            Nat.pow_one]
        · rw [if_neg (by omega), if_neg (by omega)]

end Blocks

/-- `n` words from a port to a memory. -/
def insw (port : UInt16) : ℕ → ℕ → Mem → Driver Mem
  | 0, _, m => return m
  | n + 1, a, m => do
    let w ← inw port
    insw port n (a + 2) (m.setHalf a w.toNat)

/-- `n` words from a port, as they come. -/
def inws (port : UInt16) : ℕ → Driver (List UInt16)
  | 0 => return []
  | n + 1 => do
    let w ← inw port
    let ws ← inws port n
    return w :: ws

/-- `n` words from a memory to a port. -/
def outsw (port : UInt16) (m : Mem) : ℕ → ℕ → Driver Unit
  | 0, _ => return ()
  | n + 1, a => do
    outw port (UInt16.ofNat (m.half a))
    outsw port m n (a + 2)

/-- The device hands out these words. -/
inductive Gives (dev : Device δ) (port : UInt16) : List UInt16 → δ → δ → Prop
  | nil {d : δ} : Gives dev port [] d d
  | cons {d d' d'' : δ} {w : UInt16} {ws : List UInt16} (hread : dev.inw port d = (w, d'))
      (hrest : Gives dev port ws d' d'') : Gives dev port (w :: ws) d d''

theorem insw_run {dev : Device δ} {port : UInt16} {ws : List UInt16} {d d' : δ}
    (h : Gives dev port ws d d') (a : ℕ) (m : Mem) :
    (insw port ws.length a m).run dev.handler d = .ok (setHalves m a ws, d') := by
  induction h generalizing a m with
  | nil => rfl
  | cons hread _ ih =>
    rw [List.length_cons, insw, Prog.run_bind, inw_run, hread]
    exact ih (a + 2) _

theorem inws_run {dev : Device δ} {port : UInt16} {ws : List UInt16} {d d' : δ}
    (h : Gives dev port ws d d') : (inws port ws.length).run dev.handler d = .ok (ws, d') := by
  induction h with
  | nil => rfl
  | cons hread _ ih =>
    rw [List.length_cons, inws, Prog.run_bind, inw_run, hread]
    simp only [Prog.run_bind_ok _ ih]
    rfl

end PortIo
