import OctoOS.Lib.X86

set_option autoImplicit false

/-! # Interrupts of the x86

What the processor does for an interrupt through a gate to ring 0, and the instructions that an
interrupt stub is made of besides those of a context switch. From an outer ring the processor takes
the stack of ring 0 from the task state segment and pushes the old one; from ring 0 it stays on the
stack it has. -/

/-- One of the words may change. -/
theorem Mem.Words.patch {m : Mem} {xs ys : List ℕ} {a w : ℕ} (h : m.Words a (xs ++ w :: ys)) (m' : Mem)
    (hsame : ∀ i, a ≤ i → i < a + 4 * (xs.length + 1 + ys.length) →
      ¬ (a + 4 * xs.length ≤ i ∧ i < a + 4 * xs.length + 4) → m' i = m i) :
    m'.Words a (xs ++ m'.word (a + 4 * xs.length) :: ys) := by
  induction xs generalizing a with
  | nil =>
    rw [List.length_nil] at hsame
    refine ⟨rfl, h.2.congr fun i h1 h2 => hsame i (by omega) (by omega) (by omega)⟩
  | cons x xs ih =>
    rw [List.length_cons] at hsame ⊢
    have hshift : a + 4 * (xs.length + 1) = a + 4 + 4 * xs.length := by omega
    rw [hshift]
    refine ⟨?_, ih h.2 fun i h1 h2 h3 => hsame i (by omega) (by omega) (by omega)⟩
    rw [Mem.word_congr fun i h1 h2 => hsame i h1 (by omega) (by omega)]
    exact h.1

namespace X86

/-- Where an interrupt gate leads. -/
structure Gate where
  selector : UInt16
  offset : UInt32

/-- The stack of ring 0. -/
structure Tss where
  esp0 : UInt32
  ss0 : UInt16

/-- The exceptions with an error code: #DF, #TS, #NP, #SS, #GP, #PF, #AC, #CP, #VC and #SX. -/
def pushesErrorCode (n : ℕ) : Bool := n ∈ [8, 10, 11, 12, 13, 14, 17, 21, 29, 30]

/-- An interrupt gate clears TF, IF and NT. -/
def Flags.masked (f : Flags) : Flags := Flags.ofWord (f.val &&& 0xFFFFBCFF)

namespace Cpu

/-- An interrupt through `g` leaves an outer ring. -/
def FromOuter (c : Cpu) (g : Gate) : Prop := g.selector &&& 3 < c.seg .cs &&& 3
  deriving Decidable

/-- The processor with the stack that the interrupt is handled on. -/
def onStack (c : Cpu) (t : Tss) (g : Gate) : Cpu :=
  if c.FromOuter g then (c.setSeg .ss t.ss0).setReg .esp t.esp0 else c

/-- The old stack, as an interrupt from an outer ring pushes it. -/
def outerWords (c : Cpu) (g : Gate) : List UInt32 :=
  if c.FromOuter g then [(c.seg .ss).toUInt32, c.reg .esp] else []

/-- What the processor pushes, in this order; some exceptions have an error code. -/
def frame (c : Cpu) (g : Gate) (err : Option UInt32) : List UInt32 :=
  c.outerWords g ++ [c.eflags.val, (c.seg .cs).toUInt32, c.eip] ++ err.toList

/-- An interrupt through the gate `g`. -/
def interrupt (c : Cpu) (t : Tss) (g : Gate) (err : Option UInt32) : Cpu :=
  { ((c.onStack t g).pushAll (c.frame g err)).setSeg .cs g.selector with
    eip := g.offset, eflags := c.eflags.masked }

end Cpu

inductive StubInstr where
  | pushImm (w : UInt32)
  | push (src : Reg)
  | pusha
  | addEsp (n : UInt32)
  | popa
  | iretd

def StubInstr.exec (dpl : UInt16 → UInt16) (c : Cpu) : StubInstr → Cpu
  | .pushImm w => c.push w
  | .push src => c.push (c.reg src)
  | .pusha => c.pushAll [c.reg .eax, c.reg .ecx, c.reg .edx, c.reg .ebx, c.reg .esp, c.reg .ebp, c.reg .esi,
      c.reg .edi]
  | .addEsp n => c.setReg .esp (c.reg .esp + n)
  | .popa => (((((((c.pop .edi).pop .esi).pop .ebp).drop).pop .ebx).pop .edx).pop .ecx).pop .eax
  | .iretd => c.iret dpl

def runStub (dpl : UInt16 → UInt16) (code : List StubInstr) (c : Cpu) : Cpu :=
  code.foldl (StubInstr.exec dpl) c

section Stub

variable {c : Cpu} {ws : List UInt32} {dpl : UInt16 → UInt16}

theorem Cpu.pushAll_append (c : Cpu) (ws ws' : List UInt32) :
    c.pushAll (ws ++ ws') = (c.pushAll ws).pushAll ws' :=
  List.foldl_append

@[simp] theorem exec_addEsp_four (c : Cpu) : StubInstr.exec dpl c (.addEsp 4) = c.drop := rfl

theorem exec_addEsp_eight (c : Cpu) : StubInstr.exec dpl c (.addEsp 8) = c.drop.drop := by
  have h8 : (8 : UInt32) = 4 + 4 := rfl
  simp only [StubInstr.exec, Cpu.drop, Cpu.setReg, Function.update_self, Function.update_idem, h8,
    UInt32.add_assoc]

/-- `popa` restores the seven registers and leaves the stack pointer behind the frame. -/
theorem Cpu.Has.popa {di si bp dummy bx dx cx ax : UInt32}
    (h : c.Has (di :: si :: bp :: dummy :: bx :: dx :: cx :: ax :: ws)) :
    (StubInstr.exec dpl c .popa).Has ws ∧ (StubInstr.exec dpl c .popa).seg = c.seg ∧
      (StubInstr.exec dpl c .popa).mem = c.mem ∧
      (StubInstr.exec dpl c .popa).reg .edi = di ∧ (StubInstr.exec dpl c .popa).reg .esi = si ∧
      (StubInstr.exec dpl c .popa).reg .ebp = bp ∧ (StubInstr.exec dpl c .popa).reg .ebx = bx ∧
      (StubInstr.exec dpl c .popa).reg .edx = dx ∧ (StubInstr.exec dpl c .popa).reg .ecx = cx ∧
      (StubInstr.exec dpl c .popa).reg .eax = ax := by
  have h1 := h.pop (r := .edi) (by decide)
  have h2 := h1.pop (r := .esi) (by decide)
  have h3 := h2.pop (r := .ebp) (by decide)
  have h4 := h3.drop
  have h5 := h4.pop (r := .ebx) (by decide)
  have h6 := h5.pop (r := .edx) (by decide)
  have h7 := h6.pop (r := .ecx) (by decide)
  have h8 := h7.pop (r := .eax) (by decide)
  refine ⟨h8, rfl, rfl, ?_⟩
  simp [StubInstr.exec, h.top, h1.top, h2.top, h4.top, h5.top, h6.top, h7.top]

/-- `iretd` within a ring takes three words off the stack. -/
theorem Cpu.Has.iret_same {ip cs fl : UInt32} (h : c.Has (ip :: cs :: fl :: ws))
    (hring : ¬ c.seg .cs &&& 3 < cs.toUInt16 &&& 3) :
    (c.iret dpl).eip = ip ∧ (c.iret dpl).eflags = Flags.ofWord fl ∧
      (c.iret dpl).reg = Function.update c.reg .esp (c.reg .esp + 12) ∧
      (c.iret dpl).seg = Function.update c.seg .cs cs.toUInt16 := by
  have hcs : c.load (c.reg .esp + 4) = cs := h.drop.top
  have hfl : c.load (c.reg .esp + 4 + 4) = fl := h.drop.drop.top
  simp only [UInt32.add_assoc] at hfl
  have h8 : (8 : UInt32) = 4 + 4 := rfl
  unfold Cpu.iret
  simp only
  rw [h8, hcs, hfl, if_neg hring]
  exact ⟨h.top, rfl, rfl, rfl⟩

/-- The registers an `iretd` has nothing to do with. -/
theorem Cpu.iret_reg (c : Cpu) {r : Reg} (hr : r ≠ .esp) : (c.iret dpl).reg r = c.reg r := by
  unfold Cpu.iret
  simp only
  split_ifs
  · rw [Cpu.setReg_reg, if_neg hr]
  · rw [Cpu.setSeg_reg, Cpu.setReg_reg, if_neg hr]

@[simp] theorem Cpu.iret_mem (c : Cpu) : (c.iret dpl).mem = c.mem := by
  unfold Cpu.iret
  simp only
  split_ifs <;> rfl

end Stub

end X86
