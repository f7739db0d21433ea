import OctoOS.Lib.Memory
import Mathlib.Logic.Function.Basic

set_option autoImplicit false

/-! # A small part of the x86

The 32-bit instructions a context switch is made of, in flat segments. Straight-line code is a list
of instructions; `eip` is what the last jump has set, so it says where the code goes on after a `ret`
or an `iretd` only. `Cpu.Has` describes the stack by the words on top of it: every push and pop is
a step of that list. -/

namespace X86

inductive Reg where
  | eax | ecx | edx | ebx | esp | ebp | esi | edi
  deriving DecidableEq

inductive Seg where
  | es | cs | ss | ds | fs | gs
  deriving DecidableEq

/-- The flags that `popfd` sets in ring 0: CF, PF, AF, ZF, SF, TF, IF, DF, OF, IOPL, NT, AC, ID. -/
def flagsMask : UInt32 := 0x247FD5

/-- EFLAGS outside of virtual-8086 mode: bit 1 is set; the reserved bits, RF, VM, VIF and VIP are
    clear. -/
@[ext]
structure Flags where
  val : UInt32
  fixed : val &&& flagsMask ||| 2 = val

/-- The flags after `popfd` took the word `w` from the stack. -/
def Flags.ofWord (w : UInt32) : Flags where
  val := w &&& flagsMask ||| 2
  fixed := by
    have h2 : (2 : UInt32).toBitVec &&& flagsMask.toBitVec = 0#32 := by decide
    apply UInt32.toBitVec_inj.1
    simp only [UInt32.toBitVec_or, UInt32.toBitVec_and]
    rw [BitVec.and_or_distrib_right, BitVec.and_assoc, BitVec.and_self, h2, BitVec.or_zero]

@[simp] theorem Flags.ofWord_val (f : Flags) : Flags.ofWord f.val = f := Flags.ext f.fixed

structure Cpu where
  reg : Reg → UInt32
  seg : Seg → UInt16
  eflags : Flags
  eip : UInt32
  mem : Mem

namespace Cpu

def load (c : Cpu) (a : UInt32) : UInt32 := UInt32.ofNat (c.mem.word a.toNat)

def store (c : Cpu) (a w : UInt32) : Cpu := { c with mem := c.mem.setWord a.toNat w.toNat }

def setReg (c : Cpu) (r : Reg) (w : UInt32) : Cpu := { c with reg := Function.update c.reg r w }

def setSeg (c : Cpu) (r : Seg) (w : UInt16) : Cpu := { c with seg := Function.update c.seg r w }

/-- The word on top of the stack. -/
def top (c : Cpu) : UInt32 := c.load (c.reg .esp)

/-- The stack without the word on top. -/
def drop (c : Cpu) : Cpu := c.setReg .esp (c.reg .esp + 4)

def push (c : Cpu) (w : UInt32) : Cpu := (c.setReg .esp (c.reg .esp - 4)).store (c.reg .esp - 4) w

def pop (c : Cpu) (r : Reg) : Cpu := c.drop.setReg r c.top

/-- The segments after a return to the outer ring of `cs`. The data segment registers with a segment that
    is not for this ring are cleared; `dpl` is the privilege level of a segment. -/
def outerSegs (dpl : UInt16 → UInt16) (c : Cpu) (cs ss : UInt16) : Seg → UInt16
  | .cs => cs
  | .ss => ss
  | g => if dpl (c.seg g) < cs &&& 3 then 0 else c.seg g

/-- `iretd`: to an outer ring it takes the stack from the frame too. -/
def iret (dpl : UInt16 → UInt16) (c : Cpu) : Cpu :=
  let sp := c.reg .esp
  let cs := (c.load (sp + 4)).toUInt16
  let c' := { c with eip := c.load sp, eflags := Flags.ofWord (c.load (sp + 8)) }
  if c.seg .cs &&& 3 < cs &&& 3 then
    { c'.setReg .esp (c.load (sp + 12)) with seg := c.outerSegs dpl cs (c.load (sp + 16)).toUInt16 }
  else (c'.setReg .esp (sp + 12)).setSeg .cs cs

section Fields

variable (c : Cpu) (r r' : Reg) (g : Seg) (a w : UInt32) (x : UInt16)

@[simp] theorem setReg_reg : (c.setReg r w).reg r' = if r' = r then w else c.reg r' :=
  Function.update_apply ..

@[simp] theorem setReg_seg : (c.setReg r w).seg = c.seg := rfl
@[simp] theorem setReg_eflags : (c.setReg r w).eflags = c.eflags := rfl
@[simp] theorem setReg_mem : (c.setReg r w).mem = c.mem := rfl
@[simp] theorem setReg_load : (c.setReg r w).load a = c.load a := rfl
@[simp] theorem setSeg_seg (g' : Seg) : (c.setSeg g x).seg g' = if g' = g then x else c.seg g' :=
  Function.update_apply ..

@[simp] theorem setSeg_reg : (c.setSeg g x).reg = c.reg := rfl
@[simp] theorem setSeg_mem : (c.setSeg g x).mem = c.mem := rfl
@[simp] theorem setSeg_load : (c.setSeg g x).load a = c.load a := rfl

@[simp] theorem store_reg : (c.store a w).reg = c.reg := rfl
@[simp] theorem store_seg : (c.store a w).seg = c.seg := rfl
@[simp] theorem store_eflags : (c.store a w).eflags = c.eflags := rfl
@[simp] theorem store_mem : (c.store a w).mem = c.mem.setWord a.toNat w.toNat := rfl

@[simp] theorem drop_reg : c.drop.reg r = if r = .esp then c.reg .esp + 4 else c.reg r :=
  setReg_reg ..

@[simp] theorem drop_seg : c.drop.seg = c.seg := rfl
@[simp] theorem drop_eflags : c.drop.eflags = c.eflags := rfl
@[simp] theorem drop_mem : c.drop.mem = c.mem := rfl

@[simp] theorem push_reg : (c.push w).reg r = if r = .esp then c.reg .esp - 4 else c.reg r :=
  setReg_reg ..

@[simp] theorem push_seg : (c.push w).seg = c.seg := rfl
@[simp] theorem push_eflags : (c.push w).eflags = c.eflags := rfl
@[simp] theorem push_mem : (c.push w).mem = c.mem.setWord (c.reg .esp - 4).toNat w.toNat := rfl

@[simp] theorem pop_reg : (c.pop r).reg r' = if r' = r then c.top else c.drop.reg r' := setReg_reg ..
@[simp] theorem pop_seg : (c.pop r).seg = c.seg := rfl
@[simp] theorem pop_eflags : (c.pop r).eflags = c.eflags := rfl
@[simp] theorem pop_mem : (c.pop r).mem = c.mem := rfl

end Fields

end Cpu

inductive Instr where
  /-- `mov dst, [base + disp]` -/
  | load (dst base : Reg) (disp : UInt32)
  /-- `mov [base], src` -/
  | store (base src : Reg)
  | mov (dst src : Reg)
  /-- `mov` of a constant to the low half of a register -/
  | movLow (dst : Reg) (imm : UInt16)
  /-- `mov` of the low half of a register to a segment register -/
  | movSeg (dst : Seg) (src : Reg)
  | push (src : Reg)
  | pop (dst : Reg)
  | pushfd
  | popfd
  | ret
  | iretd

def Instr.exec (dpl : UInt16 → UInt16) (c : Cpu) : Instr → Cpu
  | .load dst base disp => c.setReg dst (c.load (c.reg base + disp))
  | .store base src => c.store (c.reg base) (c.reg src)
  | .mov dst src => c.setReg dst (c.reg src)
  | .movLow dst imm => c.setReg dst (c.reg dst &&& 0xFFFF0000 ||| imm.toUInt32)
  | .movSeg dst src => c.setSeg dst (c.reg src).toUInt16
  | .push src => c.push (c.reg src)
  | .pop dst => c.pop dst
  | .pushfd => c.push c.eflags.val
  | .popfd => { c.drop with eflags := Flags.ofWord c.top }
  | .ret => { c.drop with eip := c.top }
  | .iretd => c.iret dpl

/-- Straight-line code. -/
def run (dpl : UInt16 → UInt16) (code : List Instr) (c : Cpu) : Cpu := code.foldl (Instr.exec dpl) c

theorem run_append (dpl : UInt16 → UInt16) (code code' : List Instr) (c : Cpu) :
    run dpl (code ++ code') c = run dpl code' (run dpl code c) :=
  List.foldl_append

/-! ## The stack as a list of words -/

/-- The words on top of the stack; none of them lies across the end of the address space. -/
def Cpu.Has (c : Cpu) (ws : List UInt32) : Prop :=
  c.mem.Words (c.reg .esp).toNat (ws.map UInt32.toNat) ∧
    (c.reg .esp).toNat + 4 * ws.length < 2 ^ 32

section Stack

variable {c c' : Cpu} {w : UInt32} {ws : List UInt32} {r : Reg} {dpl : UInt16 → UInt16}

/-- The low half of a register after a constant was moved there. -/
theorem toUInt16_movLow (w : UInt32) (x : UInt16) :
    (w &&& 0xFFFF0000 ||| x.toUInt32).toUInt16 = x := by
  have hmask : (0xFFFF0000 : UInt32).toNat % 2 ^ 16 = 0 := rfl
  have hx : x.toNat % 2 ^ 16 = x.toNat := Nat.mod_eq_of_lt x.toNat_lt
  rw [← UInt16.toNat_inj, UInt32.toNat_toUInt16, UInt32.toNat_or, UInt32.toNat_and,
    UInt16.toNat_toUInt32, Nat.or_mod_two_pow, Nat.and_mod_two_pow, hmask, hx, Nat.and_zero,
    Nat.zero_or]

theorem toNat_add_four {a : UInt32} (h : a.toNat + 4 < 2 ^ 32) : (a + 4).toNat = a.toNat + 4 := by
  have h4 : (4 : UInt32).toNat = 4 := rfl
  rw [UInt32.toNat_add, h4, Nat.mod_eq_of_lt h]

theorem toNat_sub_four {a : UInt32} (h : 4 ≤ a.toNat) : (a - 4).toNat = a.toNat - 4 :=
  UInt32.toNat_sub_of_le _ _ (UInt32.le_iff_toNat_le.2 h)

theorem Cpu.esp_drop (h : (c.reg .esp).toNat + 4 < 2 ^ 32) :
    (c.drop.reg .esp).toNat = (c.reg .esp).toNat + 4 := by
  rw [Cpu.drop_reg, if_pos rfl, toNat_add_four h]

theorem Cpu.esp_push (w : UInt32) (h : 4 ≤ (c.reg .esp).toNat) :
    ((c.push w).reg .esp).toNat = (c.reg .esp).toNat - 4 := by
  rw [Cpu.push_reg, if_pos rfl, toNat_sub_four h]

/-- A push stores the four bytes below the stack pointer. -/
theorem Cpu.sameOff_push (w : UInt32) (h : 4 ≤ (c.reg .esp).toNat) :
    Mem.SameOff ((c.reg .esp).toNat - 4) 4 c.mem (c.push w).mem := by
  rw [Cpu.push_mem, toNat_sub_four h]
  exact Mem.sameOff_setWord _ _ _

/-- Only the memory and the stack pointer matter. -/
theorem Cpu.Has.congr (h : c.Has ws) (hmem : c'.mem = c.mem) (hesp : c'.reg .esp = c.reg .esp) :
    c'.Has ws := by
  unfold Cpu.Has
  rw [hmem, hesp]
  exact h

theorem Cpu.Has.top (h : c.Has (w :: ws)) : c.top = w := by
  rw [Cpu.top, Cpu.load, h.1.1, UInt32.ofNat_toNat]

theorem Cpu.Has.drop (h : c.Has (w :: ws)) : c.drop.Has ws := by
  obtain ⟨hw, hlt⟩ := h
  rw [List.length_cons] at hlt
  have hesp := Cpu.esp_drop (c := c) (by omega)
  refine ⟨?_, by omega⟩
  rw [hesp]
  exact hw.2

theorem Cpu.Has.pop (h : c.Has (w :: ws)) (hr : r ≠ .esp) : (c.pop r).Has ws :=
  h.drop.congr rfl (by rw [Cpu.pop_reg, if_neg hr.symm])

theorem Cpu.Has.push (h : c.Has ws) (w : UInt32) (hroom : 4 ≤ (c.reg .esp).toNat) :
    (c.push w).Has (w :: ws) := by
  obtain ⟨hw, hlt⟩ := h
  have hesp := Cpu.esp_push w hroom
  refine ⟨?_, by rw [hesp, List.length_cons]; omega⟩
  rw [hesp, Cpu.push_mem, toNat_sub_four hroom]
  refine Mem.Words.setWord ?_ w.toNat_lt
  rw [Nat.sub_add_cancel hroom]
  exact hw

theorem Cpu.outerSegs_data (c : Cpu) (cs ss : UInt16) {g : Seg} (hcs : g ≠ .cs) (hss : g ≠ .ss) :
    c.outerSegs dpl cs ss g = if dpl (c.seg g) < cs &&& 3 then 0 else c.seg g := by
  cases g <;> first | rfl | exact absurd rfl hcs | exact absurd rfl hss

/-- `iretd` to an outer ring takes five words off the stack. -/
theorem Cpu.Has.iret {ip cs fl sp ss : UInt32} (h : c.Has (ip :: cs :: fl :: sp :: ss :: ws))
    (hring : c.seg .cs &&& 3 < cs.toUInt16 &&& 3) :
    (c.iret dpl).eip = ip ∧ (c.iret dpl).eflags = Flags.ofWord fl ∧ (c.iret dpl).reg .esp = sp ∧
      (c.iret dpl).seg = c.outerSegs dpl cs.toUInt16 ss.toUInt16 := by
  have hcs : c.load (c.reg .esp + 4) = cs := h.drop.top
  have hfl : c.load (c.reg .esp + 4 + 4) = fl := h.drop.drop.top
  have hsp : c.load (c.reg .esp + 4 + 4 + 4) = sp := h.drop.drop.drop.top
  have hss : c.load (c.reg .esp + 4 + 4 + 4 + 4) = ss := h.drop.drop.drop.drop.top
  simp only [UInt32.add_assoc] at hfl hsp hss
  have h8 : (8 : UInt32) = 4 + 4 := rfl
  have h12 : (12 : UInt32) = 4 + (4 + 4) := rfl
  have h16 : (16 : UInt32) = 4 + (4 + (4 + 4)) := rfl
  unfold Cpu.iret
  simp only
  rw [h8, h12, h16, hcs, hfl, hsp, hss, if_pos hring]
  refine ⟨h.top, rfl, ?_, rfl⟩
  rw [Cpu.setReg_reg, if_pos rfl]

/-- One push after another. -/
def Cpu.pushAll (c : Cpu) (ws : List UInt32) : Cpu := ws.foldl Cpu.push c

theorem Cpu.pushAll_cons (c : Cpu) (w : UInt32) (ws : List UInt32) :
    c.pushAll (w :: ws) = (c.push w).pushAll ws := rfl

theorem Cpu.pushAll_reg (c : Cpu) (ws : List UInt32) (hr : r ≠ .esp) : (c.pushAll ws).reg r = c.reg r := by
  induction ws generalizing c with
  | nil => rfl
  | cons w ws ih => rw [Cpu.pushAll_cons, ih, Cpu.push_reg, if_neg hr]

theorem Cpu.pushAll_seg (c : Cpu) (ws : List UInt32) : (c.pushAll ws).seg = c.seg := by
  induction ws generalizing c with
  | nil => rfl
  | cons w ws ih => rw [Cpu.pushAll_cons, ih, Cpu.push_seg]

/-- What is stored depends on the memory and the stack pointer only. -/
theorem Cpu.pushAll_congr (hmem : c'.mem = c.mem) (hesp : c'.reg .esp = c.reg .esp) (ws : List UInt32) :
    (c'.pushAll ws).mem = (c.pushAll ws).mem ∧ (c'.pushAll ws).reg .esp = (c.pushAll ws).reg .esp := by
  induction ws generalizing c c' with
  | nil => exact ⟨hmem, hesp⟩
  | cons w ws ih =>
    rw [Cpu.pushAll_cons, Cpu.pushAll_cons]
    refine ih ?_ ?_
    · rw [Cpu.push_mem, Cpu.push_mem, hmem, hesp]
    · rw [Cpu.push_reg, Cpu.push_reg, if_pos rfl, if_pos rfl, hesp]

theorem Cpu.esp_pushAll (c : Cpu) (ws : List UInt32) (h : 4 * ws.length ≤ (c.reg .esp).toNat) :
    ((c.pushAll ws).reg .esp).toNat = (c.reg .esp).toNat - 4 * ws.length := by
  induction ws generalizing c with
  | nil => rfl
  | cons w ws ih =>
    rw [List.length_cons] at h
    have hesp := Cpu.esp_push (c := c) w (by omega)
    rw [Cpu.pushAll_cons, ih (c.push w) (by omega), hesp, List.length_cons]
    omega

theorem Cpu.Has.pushAll {ws' : List UInt32} (h : c.Has ws') (hroom : 4 * ws.length ≤ (c.reg .esp).toNat) :
    (c.pushAll ws).Has (ws.reverse ++ ws') := by
  induction ws generalizing c ws' with
  | nil => exact h
  | cons w ws ih =>
    rw [List.length_cons] at hroom
    have hesp := Cpu.esp_push (c := c) w (by omega)
    rw [Cpu.pushAll_cons, List.reverse_cons, List.append_assoc]
    exact ih (h.push w (by omega)) (by omega)

/-- The pushes store below the stack pointer. -/
theorem Cpu.sameOff_pushAll (c : Cpu) (ws : List UInt32) (hroom : 4 * ws.length ≤ (c.reg .esp).toNat) :
    Mem.SameOff ((c.reg .esp).toNat - 4 * ws.length) (4 * ws.length) c.mem (c.pushAll ws).mem := by
  induction ws generalizing c with
  | nil => exact Mem.SameOff.refl _ _ _
  | cons w ws ih =>
    rw [List.length_cons] at hroom ⊢
    have hesp := Cpu.esp_push (c := c) w (by omega)
    have hfirst := Cpu.sameOff_push (c := c) w (by omega)
    have hrest := ih (c.push w) (by omega)
    rw [hesp] at hrest
    exact (hfirst.mono (by omega) (by omega)).trans (hrest.mono (by omega) (by omega))

end Stack

end X86
