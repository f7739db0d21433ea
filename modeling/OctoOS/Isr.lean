import OctoOS.Lib.Interrupt
import OctoOS.Task

set_option autoImplicit false

/-! # Interrupt stubs (`kernel/isr.asm`)

Every vector has a stub that makes the frame uniform (`ISR_NOERR`, `ISR_ERR`) and goes on in
`isr_common`, which saves the registers, calls `isr_handler` with a `struct regs` on the stack, restores
the registers and returns. An interrupt is transparent: whatever the handler does, as long as it leaves
the frame and the stack pointer as it found them, the interrupted code goes on with all its registers,
flags and segments; only the `eax` of the frame is the handler's to choose. -/

namespace OctoOS

open X86

/-- `struct regs`. -/
structure IsrRegs where
  edi : UInt32
  esi : UInt32
  ebp : UInt32
  espDummy : UInt32
  ebx : UInt32
  edx : UInt32
  ecx : UInt32
  eax : UInt32
  intNo : UInt32
  errCode : UInt32
  eip : UInt32
  cs : UInt32
  eflags : UInt32

/-- A `struct regs` in memory. -/
def IsrRegs.words (r : IsrRegs) : List UInt32 :=
  [r.edi, r.esi, r.ebp, r.espDummy, r.ebx, r.edx, r.ecx, r.eax, r.intNo, r.errCode, r.eip, r.cs, r.eflags]

/-- `SEL_KDATA`. -/
def selKdata : ℕ := 0x10

/-- The vectors with an `ISR_ERR` stub. -/
def isrErr (n : ℕ) : Bool := n ∈ [8, 10, 11, 12, 13, 14, 17]

/-- The stubs of vectors 21, 29 and 30 do not expect the error code of the processor. -/
theorem isrErr_iff (n : ℕ) : isrErr n = pushesErrorCode n ↔ n ∉ [21, 29, 30] := by
  simp only [isrErr, pushesErrorCode, decide_eq_decide, List.mem_cons, List.not_mem_nil, or_false]
  omega

/-- The stub of vector `n` and `isr_common` up to the call. -/
def isrEntry (n : ℕ) : List StubInstr :=
  (if isrErr n then [] else [.pushImm 0]) ++ [.pushImm (UInt32.ofNat n), .pusha, .push .esp]

/-- `isr_common` behind the call. -/
def isrExit : List StubInstr := [.addEsp 4, .popa, .addEsp 8, .iretd]

/-- The gate that `idt_set` makes for a stub. -/
def isrGate (stub : UInt32) : Gate := ⟨0x08, stub⟩

/-- The processor at the call of `isr_handler` for vector `n`. -/
def isrCall (c : Cpu) (t : Tss) (stub : UInt32) (n : ℕ) (err : UInt32) : Cpu :=
  runStub gdtDpl (isrEntry n) (c.interrupt t (isrGate stub) (if pushesErrorCode n then some err else none))

/-- What `isr_handler` finds at its argument. -/
def isrRegs (c : Cpu) (t : Tss) (stub : UInt32) (n : ℕ) (err : UInt32) : IsrRegs where
  edi := c.reg .edi
  esi := c.reg .esi
  ebp := c.reg .ebp
  espDummy := (isrCall c t stub n err).reg .esp + 36
  ebx := c.reg .ebx
  edx := c.reg .edx
  ecx := c.reg .ecx
  eax := c.reg .eax
  intNo := UInt32.ofNat n
  errCode := if pushesErrorCode n then err else 0
  eip := c.eip
  cs := (c.seg .cs).toUInt32
  eflags := c.eflags.val

/-- All that is pushed, in this order. -/
def isrWords (c : Cpu) (t : Tss) (stub : UInt32) (n : ℕ) (err : UInt32) : List UInt32 :=
  c.outerWords (isrGate stub) ++ (isrRegs c t stub n err).words.reverse ++ [(isrCall c t stub n err).reg .esp + 4]

/-- `e`, reached from `d`, goes on where `c` was interrupted, with `eax` in place of that register. The
    data segments are not saved: they are those of `d`, cleared if they are not for the ring of `c`. -/
structure GoesOn (c : Cpu) (eax : UInt32) (d e : Cpu) : Prop where
  eip : e.eip = c.eip
  eflags : e.eflags = c.eflags
  reg : e.reg = Function.update c.reg .eax eax
  code : e.seg .cs = c.seg .cs
  stack : e.seg .ss = c.seg .ss
  data : ∀ g, g ≠ .cs → g ≠ .ss → e.seg g = if gdtDpl (d.seg g) < c.seg .cs &&& 3 then 0 else d.seg g
  mem : e.mem = d.mem

section Frame

variable {c : Cpu} {t : Tss} {stub : UInt32} {n : ℕ} {err : UInt32}

theorem onStack_reg (c : Cpu) (t : Tss) (g : Gate) {r : Reg} (hr : r ≠ .esp) :
    (c.onStack t g).reg r = c.reg r := by
  unfold Cpu.onStack
  split_ifs
  · rw [Cpu.setReg_reg, if_neg hr, Cpu.setSeg_reg]
  · rfl

theorem interrupt_reg (c : Cpu) (t : Tss) (g : Gate) (e : Option UInt32) {r : Reg} (hr : r ≠ .esp) :
    (c.interrupt t g e).reg r = c.reg r := by
  show ((c.onStack t g).pushAll (c.frame g e)).reg r = c.reg r
  rw [Cpu.pushAll_reg _ _ hr, onStack_reg c t g hr]

/-- The pushes of a stub and of `isr_common`. -/
theorem runStub_save (d : Cpu) (w : UInt32) :
    runStub gdtDpl [.pushImm w, .pusha, .push .esp] d
      = d.pushAll [w, d.reg .eax, d.reg .ecx, d.reg .edx, d.reg .ebx, d.reg .esp - 4, d.reg .ebp,
          d.reg .esi, d.reg .edi, d.reg .esp - 36] := by
  have hsp : d.reg .esp - 4 - 4 - 4 - 4 - 4 - 4 - 4 - 4 - 4 = d.reg .esp - 36 := by grind
  simp [runStub, StubInstr.exec, Cpu.pushAll, hsp]

theorem runStub_isrEntry (d : Cpu) (n : ℕ) :
    runStub gdtDpl (isrEntry n) d = (d.pushAll (if isrErr n then [] else [0])).pushAll
      [UInt32.ofNat n, d.reg .eax, d.reg .ecx, d.reg .edx, d.reg .ebx,
        (runStub gdtDpl (isrEntry n) d).reg .esp + 36, d.reg .ebp, d.reg .esi, d.reg .edi,
        (runStub gdtDpl (isrEntry n) d).reg .esp + 4] := by
  have hstub : runStub gdtDpl (if isrErr n then [] else [.pushImm 0]) d
      = d.pushAll (if isrErr n then [] else [0]) := by split_ifs <;> rfl
  have hrun : runStub gdtDpl (isrEntry n) d = runStub gdtDpl [.pushImm (UInt32.ofNat n), .pusha, .push .esp]
      (d.pushAll (if isrErr n then [] else [0])) := by
    rw [← hstub]
    exact List.foldl_append
  have hesp := congrArg (fun e => e.reg .esp) (hrun.trans (runStub_save _ _))
  have hkeep : ∀ r, r ≠ .esp → (d.pushAll (if isrErr n then [] else [0])).reg r = d.reg r :=
    fun r hr => Cpu.pushAll_reg _ _ hr
  generalize d.pushAll (if isrErr n then [] else [0]) = e at hrun hesp hkeep ⊢
  simp only [Cpu.pushAll, List.foldl, Cpu.push_reg, if_pos] at hesp
  have hdummy : (runStub gdtDpl (isrEntry n) d).reg .esp + 36 = e.reg .esp - 4 := by grind
  have harg : (runStub gdtDpl (isrEntry n) d).reg .esp + 4 = e.reg .esp - 36 := by grind
  rw [hdummy, harg, hrun, runStub_save]
  simp (disch := decide) only [hkeep]

/-- At the call the stack is the handler's stack with the frame and the address of the frame. -/
theorem isrCall_stack (hn : isrErr n = pushesErrorCode n) (err : UInt32) :
    (isrCall c t stub n err).mem
        = ((c.onStack t (isrGate stub)).pushAll (isrWords c t stub n err)).mem ∧
      (isrCall c t stub n err).reg .esp
        = ((c.onStack t (isrGate stub)).pushAll (isrWords c t stub n err)).reg .esp := by
  have hcall : isrCall c t stub n err = _ := runStub_isrEntry _ n
  rw [← Cpu.pushAll_append] at hcall
  simp (disch := decide) only [interrupt_reg] at hcall
  have hwords : isrWords c t stub n err = c.frame (isrGate stub) (if pushesErrorCode n then some err else none)
        ++ ((if isrErr n then [] else [0]) ++ [UInt32.ofNat n, c.reg .eax, c.reg .ecx, c.reg .edx,
          c.reg .ebx, (isrCall c t stub n err).reg .esp + 36, c.reg .ebp, c.reg .esi, c.reg .edi,
          (isrCall c t stub n err).reg .esp + 4]) := by
    simp only [isrWords, Cpu.frame, IsrRegs.words, isrRegs, hn]
    split_ifs <;> simp
  rw [hwords, Cpu.pushAll_append]
  have hsame : ∀ ws e, ((c.interrupt t (isrGate stub) e).pushAll ws).mem
        = (((c.onStack t (isrGate stub)).pushAll (c.frame (isrGate stub) e)).pushAll ws).mem ∧
      ((c.interrupt t (isrGate stub) e).pushAll ws).reg .esp
        = (((c.onStack t (isrGate stub)).pushAll (c.frame (isrGate stub) e)).pushAll ws).reg .esp :=
    fun ws _ => Cpu.pushAll_congr (by rfl) (by rfl) ws
  constructor
  · exact (congrArg Cpu.mem hcall).trans (hsame _ _).1
  · exact (congrArg (fun e => e.reg .esp) hcall).trans (hsame _ _).2

theorem length_isrWords : (isrWords c t stub n err).length = (c.outerWords (isrGate stub)).length + 14 := by
  simp [isrWords, IsrRegs.words]

theorem length_outerWords (c : Cpu) (g : Gate) : (c.outerWords g).length = if c.FromOuter g then 2 else 0 := by
  unfold Cpu.outerWords
  split_ifs <;> rfl

/-- There is room for the frame. -/
theorem isrWords_fit (n : ℕ) (err : UInt32) (hroom : 64 ≤ ((c.onStack t (isrGate stub)).reg .esp).toNat) :
    4 * (isrWords c t stub n err).length ≤ ((c.onStack t (isrGate stub)).reg .esp).toNat := by
  have houter := length_outerWords c (isrGate stub)
  rw [length_isrWords]
  split_ifs at houter <;> omega

/-- `isr_handler` finds a `struct regs` with the interrupted registers, and its address as the argument. -/
theorem isrCall_has (hn : isrErr n = pushesErrorCode n) (hroom : 64 ≤ ((c.onStack t (isrGate stub)).reg .esp).toNat) :
    (isrCall c t stub n err).Has (((isrCall c t stub n err).reg .esp + 4) ::
      ((isrRegs c t stub n err).words ++ (c.outerWords (isrGate stub)).reverse)) := by
  have hstack := @isrCall_stack c t stub n hn err
  have hbase : (c.onStack t (isrGate stub)).Has [] := ⟨trivial, UInt32.toNat_lt _⟩
  have hhas := hbase.pushAll (isrWords_fit n err hroom)
  rw [isrWords, List.reverse_append, List.append_nil, List.reverse_append, List.reverse_reverse] at hhas
  exact hhas.congr hstack.1 hstack.2

theorem isrCall_seg (c : Cpu) (t : Tss) (stub : UInt32) (n : ℕ) (err : UInt32) :
    (isrCall c t stub n err).seg = Function.update (c.onStack t (isrGate stub)).seg .cs 0x08 := by
  have hcall : isrCall c t stub n err = _ := runStub_isrEntry _ n
  rw [hcall, Cpu.pushAll_seg, Cpu.pushAll_seg]
  show Function.update ((c.onStack t (isrGate stub)).pushAll _).seg .cs 0x08 = _
  rw [Cpu.pushAll_seg]

/-- Where the stack pointer is at the call. -/
theorem isrCall_esp (hn : isrErr n = pushesErrorCode n) (err : UInt32)
    (hroom : 64 ≤ ((c.onStack t (isrGate stub)).reg .esp).toNat) :
    ((isrCall c t stub n err).reg .esp).toNat + 4 * ((c.outerWords (isrGate stub)).length + 14)
      = ((c.onStack t (isrGate stub)).reg .esp).toNat := by
  have hle := isrWords_fit n err hroom
  rw [(isrCall_stack hn err).2, Cpu.esp_pushAll _ _ hle, length_isrWords]
  rw [length_isrWords] at hle
  omega

theorem onStack_mem (c : Cpu) (t : Tss) (g : Gate) : (c.onStack t g).mem = c.mem := by
  unfold Cpu.onStack
  split_ifs <;> rfl

/-- The way to the handler stores on its stack only. -/
theorem isrCall_sameOff (hn : isrErr n = pushesErrorCode n) (err : UInt32)
    (hroom : 64 ≤ ((c.onStack t (isrGate stub)).reg .esp).toNat) :
    Mem.SameOff (((c.onStack t (isrGate stub)).reg .esp).toNat - 64) 64 c.mem
      (isrCall c t stub n err).mem := by
  have houter := length_outerWords c (isrGate stub)
  have hcount : (isrWords c t stub n err).length ≤ 16 := by
    rw [length_isrWords]
    split_ifs at houter <;> omega
  have hsame := (c.onStack t (isrGate stub)).sameOff_pushAll (isrWords c t stub n err) (by omega)
  rw [← (isrCall_stack hn err).1, onStack_mem] at hsame
  exact hsame.mono (by omega) (by omega)

/-- `isr_common` behind the call takes the frame off the stack. -/
theorem runStub_isrExit {d : Cpu} {r : IsrRegs} {arg : UInt32} {ws : List UInt32}
    (h : d.Has (arg :: (r.words ++ ws))) :
    ∃ e : Cpu, runStub gdtDpl isrExit d = e.iret gdtDpl ∧ e.Has (r.eip :: r.cs :: r.eflags :: ws) ∧ e.seg = d.seg ∧
      e.mem = d.mem ∧ e.reg .esp = d.reg .esp + 44 ∧
      e.reg .edi = r.edi ∧ e.reg .esi = r.esi ∧ e.reg .ebp = r.ebp ∧ e.reg .ebx = r.ebx ∧
      e.reg .edx = r.edx ∧ e.reg .ecx = r.ecx ∧ e.reg .eax = r.eax := by
  have hframe := h.drop
  simp only [IsrRegs.words, List.cons_append, List.nil_append] at hframe
  obtain ⟨hhas, hseg, hmem, hdi, hsi, hbp, hbx, hdx, hcx, hax⟩ := hframe.popa
  have hesp : (StubInstr.exec gdtDpl d.drop .popa).reg .esp = d.reg .esp + 36 := by
    simp [StubInstr.exec]
    grind
  generalize hp : StubInstr.exec gdtDpl d.drop .popa = p at *
  have hrun : runStub gdtDpl isrExit d = p.drop.drop.iret gdtDpl := by
    simp only [runStub, isrExit, List.foldl_cons, List.foldl_nil, exec_addEsp_four, hp, exec_addEsp_eight]
    rfl
  refine ⟨p.drop.drop, hrun, hhas.drop.drop, hseg, hmem, ?_, ?_⟩
  · simp [hesp]
    grind
  · simp [hdi, hsi, hbp, hbx, hdx, hcx, hax]

theorem toUInt16_toUInt32 (x : UInt16) : x.toUInt32.toUInt16 = x := by
  rw [← UInt16.toNat_inj, UInt32.toNat_toUInt16, UInt16.toNat_toUInt32, Nat.mod_eq_of_lt x.toNat_lt]

theorem ring_lt {x y : UInt16} (hx : x &&& 3 = 0) (hy : y &&& 3 = 3) : x &&& 3 < y &&& 3 := by
  rw [hx, hy]
  decide

section Return

variable {d : Cpu} {arg eax : UInt32}

/-- The return to ring 0. -/
theorem isrExit_inner (hn : isrErr n = pushesErrorCode n) (hc : c.seg .cs &&& 3 = 0)
    (hroom : 64 ≤ ((c.onStack t (isrGate stub)).reg .esp).toNat)
    (hesp : d.reg .esp = (isrCall c t stub n err).reg .esp)
    (hss : d.seg .ss = (isrCall c t stub n err).seg .ss)
    (hhas : d.Has (arg :: ({ isrRegs c t stub n err with eax := eax }.words
      ++ (c.outerWords (isrGate stub)).reverse))) :
    GoesOn c eax d (runStub gdtDpl isrExit d) := by
  have hsame : ¬ c.FromOuter (isrGate stub) := by
    unfold Cpu.FromOuter
    rw [hc]
    show ¬ (0x08 : UInt16) &&& 3 < 0
    decide
  have hstack : c.onStack t (isrGate stub) = c := if_neg hsame
  have houter : c.outerWords (isrGate stub) = [] := if_neg hsame
  have htop := isrCall_esp hn err hroom
  rw [hstack, houter, List.length_nil, ← hesp] at htop
  rw [isrCall_seg, hstack, Function.update_of_ne (by decide)] at hss
  obtain ⟨e, hrun, hframe, heseg, hemem, heesp, hdi, hsi, hbp, hbx, hdx, hcx, hax⟩ := runStub_isrExit hhas
  have hring : ¬ e.seg .cs &&& 3 < (c.seg .cs).toUInt32.toUInt16 &&& 3 := by
    rw [toUInt16_toUInt32, hc]
    exact Nat.not_lt_zero _
  obtain ⟨hip, hfl, hreg, hiseg⟩ := hframe.iret_same hring
  have hback : e.reg .esp + 12 = c.reg .esp := by
    have hlt := (c.reg .esp).toNat_lt
    rw [heesp, ← UInt32.toNat_inj]
    simp only [UInt32.toNat_add, UInt32.reduceToNat]
    omega
  rw [hrun]
  refine ⟨hip, hfl.trans (Flags.ofWord_val _), ?_, ?_, ?_, fun g hcs _ => ?_, ?_⟩
  · rw [hreg, hback]
    funext r
    cases r <;> simp [hdi, hsi, hbp, hbx, hdx, hcx, hax, isrRegs]
  · rw [hiseg, Function.update_self]
    exact toUInt16_toUInt32 _
  · rw [hiseg, Function.update_of_ne (by decide), heseg, hss]
  · rw [hiseg, Function.update_of_ne hcs, heseg, hc, if_neg (by exact Nat.not_lt_zero _)]
  · rw [Cpu.iret_mem, hemem]

/-- The return to ring 3. -/
theorem isrExit_outer (hc : c.seg .cs &&& 3 = 3) (hcs : d.seg .cs &&& 3 = 0)
    (hhas : d.Has (arg :: ({ isrRegs c t stub n err with eax := eax }.words
      ++ (c.outerWords (isrGate stub)).reverse))) :
    GoesOn c eax d (runStub gdtDpl isrExit d) := by
  have hfrom : c.FromOuter (isrGate stub) := ring_lt (by show (0x08 : UInt16) &&& 3 = 0; decide) hc
  have houter : (c.outerWords (isrGate stub)).reverse = [c.reg .esp, (c.seg .ss).toUInt32] := by
    rw [Cpu.outerWords, if_pos hfrom]
    rfl
  rw [houter] at hhas
  obtain ⟨e, hrun, hframe, heseg, hemem, -, hdi, hsi, hbp, hbx, hdx, hcx, hax⟩ := runStub_isrExit hhas
  have hring : e.seg .cs &&& 3 < (c.seg .cs).toUInt32.toUInt16 &&& 3 := by
    rw [toUInt16_toUInt32, heseg]
    exact ring_lt hcs hc
  obtain ⟨hip, hfl, hsp, hiseg⟩ := hframe.iret hring
  rw [hrun]
  refine ⟨hip, hfl.trans (Flags.ofWord_val _), ?_, ?_, ?_, fun g hcs hss => ?_, ?_⟩
  · funext r
    by_cases hr : r = .esp
    · subst hr
      rw [hsp]
      rfl
    · rw [Cpu.iret_reg _ hr]
      cases r <;> simp_all [isrRegs]
  · rw [hiseg]
    exact toUInt16_toUInt32 _
  · rw [hiseg]
    exact toUInt16_toUInt32 _
  · rw [hiseg, Cpu.outerSegs_data _ _ _ hcs hss, heseg]
    exact congrArg (fun x => if gdtDpl (d.seg g) < x &&& 3 then 0 else d.seg g) (toUInt16_toUInt32 _)
  · rw [Cpu.iret_mem, hemem]

end Return

end Frame

/-- An interrupt is transparent. From ring 0 or ring 3, the handler is called with the address of a
    `struct regs` that holds the interrupted registers. When it comes back in ring 0 with the frame and the
    stack pointer as they were, but for the word it may have put in `r->eax`, `isr_common` goes on exactly
    where the interrupted code was. The stubs of three vectors do not fit the processor. -/
theorem isr_transparent (c : Cpu) (t : Tss) (stub : UInt32) (n : ℕ) (err : UInt32) (hvec : n ∉ [21, 29, 30])
    (hring : c.seg .cs &&& 3 = 0 ∨ c.seg .cs &&& 3 = 3)
    (hroom : 64 ≤ ((c.onStack t (isrGate stub)).reg .esp).toNat) :
    (isrCall c t stub n err).Has (((isrCall c t stub n err).reg .esp + 4) ::
        ((isrRegs c t stub n err).words ++ (c.outerWords (isrGate stub)).reverse)) ∧
      ∀ (d : Cpu) (arg eax : UInt32), d.reg .esp = (isrCall c t stub n err).reg .esp →
        d.seg .cs = (isrCall c t stub n err).seg .cs → d.seg .ss = (isrCall c t stub n err).seg .ss →
        d.Has (arg :: ({ isrRegs c t stub n err with eax := eax }.words
          ++ (c.outerWords (isrGate stub)).reverse)) →
        GoesOn c eax d (runStub gdtDpl isrExit d) := by
  have hn := (isrErr_iff n).2 hvec
  refine ⟨isrCall_has hn hroom, ?_⟩
  intro d arg eax hesp hcs hss hhas
  obtain hc | hc := hring
  · exact isrExit_inner hn hc hroom hesp hss hhas
  · refine isrExit_outer hc ?_ hhas
    rw [hcs, isrCall_seg, Function.update_self]
    decide

/-- A program in ring 3. -/
def programCpu : Cpu where
  reg := fun _ => 0x3FFFFF00
  seg := fun g => if g = .cs then 0x1B else 0x23
  eflags := Flags.ofWord 0x202
  eip := 0x40000000
  mem := fun _ => 0

/-- A page fault of the program, handled by doing nothing. -/
theorem isr_transparent_program :
    (programCpu.seg .cs &&& 3 = 0 ∨ programCpu.seg .cs &&& 3 = 3) ∧
      64 ≤ ((programCpu.onStack ⟨0x90000, 0x10⟩ (isrGate 0x11000)).reg .esp).toNat ∧
      GoesOn programCpu 0x3FFFFF00 (isrCall programCpu ⟨0x90000, 0x10⟩ 0x11000 14 4)
        (runStub gdtDpl isrExit (isrCall programCpu ⟨0x90000, 0x10⟩ 0x11000 14 4)) := by
  have hring : programCpu.seg .cs &&& 3 = 0 ∨ programCpu.seg .cs &&& 3 = 3 := by decide
  have hroom : 64 ≤ ((programCpu.onStack ⟨0x90000, 0x10⟩ (isrGate 0x11000)).reg .esp).toNat := by decide
  have h := isr_transparent programCpu ⟨0x90000, 0x10⟩ 0x11000 14 4 (by decide) hring hroom
  exact ⟨hring, hroom, h.2 _ _ 0x3FFFFF00 rfl rfl rfl h.1⟩

end OctoOS
