import OctoOS.Ctx.Switch
import OctoOS.Isr

set_option autoImplicit false

/-! # Preempted tasks

While a task waits for `ctx_switch` to come back, the others run, are spawned and reaped, and switch
among each other (`CtxPath`). Its kernel stack, from the saved stack pointer up, is left alone all the
time; so the whole chain of calls in it, down to the frame of the interrupt, is intact when it is
switched back to. A task that is preempted at any instruction, of its program or of the kernel, goes on at
that instruction with all its registers. -/

namespace OctoOS

open X86

/-- What can happen while the task in slot `i` waits. -/
inductive CtxPath (lay : CtxLayout) (i : ℕ) (s : CtxSys) : CtxSys → Prop where
  | refl : CtxPath lay i s s
  | compute {s' : CtxSys} (c : Cpu) : CtxPath lay i s s' → s'.MayBecome lay c →
      CtxPath lay i s { s' with cpu := c }
  | spawn {s' : CtxSys} (k kstack : ℕ) (entry : UInt32) : CtxPath lay i s s' → s'.HasRoom lay k kstack →
      CtxPath lay i s (s'.spawn lay k kstack entry)
  | reap {s' : CtxSys} (k : ℕ) : CtxPath lay i s s' → k ≠ s'.current → k ≠ i →
      CtxPath lay i s { s' with tasks := Function.update s'.tasks k none }
  | switch {s' : CtxSys} {t : CtxTask} (j : ℕ) (ret : UInt32) : CtxPath lay i s s' → s'.Calls lay j →
      s'.tasks j = some t → j ≠ i → CtxPath lay i s (s'.switch j ret t)

theorem CtxPath.run {lay : CtxLayout} {i : ℕ} {s s' : CtxSys} (hs : CtxRun lay s) (h : CtxPath lay i s s') :
    CtxRun lay s' := by
  induction h with
  | refl => exact hs
  | compute c _ hc ih => exact ih.compute c hc
  | spawn k kstack entry _ hroom ih => exact ih.spawn k kstack entry hroom
  | reap k _ hcur _ ih => exact ih.reap k hcur
  | switch j ret _ hc ht _ ih => exact ih.switch j ret hc ht

section Steps

variable {lay : CtxLayout} {s : CtxSys} {t u p : CtxTask} {i j k : ℕ} {ret : UInt32}

/-- What a switch stores: the frame of the caller and its stack pointer. -/
theorem CtxSys.Inv.switch_mem (h : s.Inv lay) (hc : s.Calls lay j) (ret : UInt32) (t : CtxTask)
    (hp : s.tasks s.current = some p) :
    ∃ m v, (s.switch j ret t).cpu.mem = m.setWord (lay.espAt s.current) v ∧
      Mem.SameOff ((s.cpu.reg .esp).toNat - 24) 24 s.cpu.mem m := by
  obtain ⟨hlo, hhi⟩ := hc.room p hp
  have hbelow := h.below _ p hp
  obtain ⟨d, hd, -, -, hmem⟩ := run_ctxSave_switch ret (by omega) (by omega) hc.oldEsp hc.newEsp
  have hpops : (run gdtDpl ctxRestore d).mem = d.mem := rfl
  have hswitch : (s.switch j ret t).cpu.mem = d.mem := (congrArg Cpu.mem hd).trans hpops
  exact ⟨_, _, hswitch.trans hmem, (saveFrame_spec ret (by omega)).2⟩

/-- A step leaves the stack of a waiting task alone. -/
structure Stays (i : ℕ) (t : CtxTask) (m : Mem) (s : CtxSys) : Prop where
  task : s.tasks i = some t
  other : s.current ≠ i
  stack : ∀ a, t.sp ≤ a → a < t.hi → s.cpu.mem a = m a

variable {m0 : Mem}

/-- A store outside the table of tasks and to a slot of the table. -/
theorem setWord_off_stack {m m' : Mem} {a n v x : ℕ} (hsame : Mem.SameOff a n m m')
    (hclear : lay.Clear t.lo t.hi) (hk : k < maxTasks) (hapart : RangesApart t.lo t.hi a (a + n))
    (hx : t.lo ≤ x) (hx' : x < t.hi) : m'.setWord (lay.espAt k) v x = m x := by
  have hslot := lay.espAt_mem hk
  unfold CtxLayout.Clear RangesApart at *
  rw [Mem.sameOff_setWord m' _ v x (by omega), hsame x (by omega)]

theorem Stays.compute (h : Stays i t m0 s) (hinv : s.Inv lay) {c : Cpu} (hc : s.MayBecome lay c) :
    Stays i t m0 { s with cpu := c } where
  task := h.task
  other := h.other
  stack a ha ha' := by
    have hsaved := (hinv.waits i t h.task h.other.symm).saved
    rw [← h.stack a ha ha']
    refine hc i t h.task h.other.symm a (.inl ⟨?_, ha'⟩)
    rw [CtxSys.savedEsp, hsaved]
    exact ha

theorem Stays.spawn (h : Stays i t m0 s) (hinv : s.Inv lay) {kstack : ℕ} {entry : UInt32}
    (hroom : s.HasRoom lay k kstack) : Stays i t m0 (s.spawn lay k kstack entry) where
  task := by
    have hki : i ≠ k := by
      intro hik
      have hnone := hroom.free
      rw [← hik, h.task] at hnone
      cases hnone
    show Function.update s.tasks k _ i = some t
    rw [Function.update_of_ne hki, h.task]
  other := h.other
  stack a ha ha' := by
    obtain ⟨m, hmem, hsame, -⟩ := s.spawn_mem lay k entry hroom.below
    have hlo := (hinv.waits i t h.task h.other.symm).lo
    have hapart := hroom.apart i t h.task
    have hsize : kstackSize = 4096 := rfl
    rw [← h.stack a ha ha', hmem]
    refine setWord_off_stack hsame (hinv.clear i t h.task) hroom.slot ?_ (Nat.le_trans hlo ha) ha'
    unfold RangesApart at hapart ⊢
    omega

theorem Stays.reap (h : Stays i t m0 s) (hk : k ≠ i) :
    Stays i t m0 { s with tasks := Function.update s.tasks k none } where
  task := (Function.update_of_ne hk.symm _ _).trans h.task
  other := h.other
  stack := h.stack

/-- A switch does not touch the stack of a task that waits. -/
theorem CtxSys.Inv.switch_stack (hinv : s.Inv lay) (hc : s.Calls lay j) (ret : UInt32) (u : CtxTask)
    (ht : s.tasks i = some t) (hne : i ≠ s.current) {a : ℕ} (ha : t.lo ≤ a) (ha' : a < t.hi) :
    (s.switch j ret u).cpu.mem a = s.cpu.mem a := by
  obtain ⟨p, hp⟩ := hinv.live
  obtain ⟨m, v, hmem, hsame⟩ := hinv.switch_mem hc ret u hp
  have hapart := hinv.apart i s.current t p ht hp hne
  have hroom := hc.room p hp
  rw [hmem]
  refine setWord_off_stack hsame (hinv.clear i t ht) (hinv.slot _ p hp) ?_ ha ha'
  unfold RangesApart at hapart ⊢
  omega

theorem Stays.switch (h : Stays i t m0 s) (hinv : s.Inv lay) (hc : s.Calls lay j) (hj : j ≠ i) :
    Stays i t m0 (s.switch j ret u) where
  task := by
    show Function.update (Function.update s.tasks s.current _) j _ i = some t
    rw [Function.update_of_ne hj.symm, Function.update_of_ne h.other.symm, h.task]
  other := hj
  stack a ha ha' := by
    have hlo := (hinv.waits i t h.task h.other.symm).lo
    rw [hinv.switch_stack hc ret u h.task h.other.symm (Nat.le_trans hlo ha) ha', h.stack a ha ha']

/-- The stack of a task is the same at the end of its waiting as at the beginning. -/
theorem CtxPath.stays {s' : CtxSys} (hs : CtxRun lay s) (hstart : Stays i t m0 s) (h : CtxPath lay i s s') :
    Stays i t m0 s' := by
  induction h with
  | refl => exact hstart
  | compute c hpath hc ih => exact ih.compute (hpath.run hs).inv hc
  | spawn k kstack entry hpath hroom ih => exact ih.spawn (hpath.run hs).inv hroom
  | reap k hpath _ hki ih => exact ih.reap hki
  | switch j ret hpath hc _ hji ih => exact ih.switch (hpath.run hs).inv hc hji

/-! ## The stack of ring 0 -/

/-- The tasks with a kernel stack have all of it, and the running one has it in the task state segment. -/
structure CtxSys.Stacked (s : CtxSys) : Prop where
  range : ∀ i t, s.tasks i = some t → t.kstack ≠ 0 → t.lo = t.kstack ∧ t.hi = t.kstack + kstackSize
  esp0 : ∀ t, s.tasks s.current = some t → t.kstack ≠ 0 → s.esp0 = t.hi

theorem CtxRun.stacked (h : CtxRun lay s) : s.Stacked := by
  induction h with
  | boot c esp0 lo hi _ _ =>
    constructor
    · intro i t ht hk
      obtain ⟨-, rfl⟩ := CtxSys.boot_tasks ht
      exact absurd rfl hk
    · intro t ht hk
      obtain ⟨-, rfl⟩ := CtxSys.boot_tasks ht
      exact absurd rfl hk
  | compute c _ _ ih => exact ⟨ih.range, ih.esp0⟩
  | @spawn s i kstack entry hrun hroom ih =>
    constructor
    · intro k t ht hk
      obtain ⟨-, rfl⟩ | ⟨-, ht⟩ := CtxSys.spawn_tasks ht
      · exact ⟨rfl, rfl⟩
      · exact ih.range k t ht hk
    · intro t ht hk
      obtain ⟨hcur, -⟩ | ⟨-, ht⟩ := CtxSys.spawn_tasks ht
      · obtain ⟨p, hp⟩ := hrun.inv.live
        have hfree := hroom.free
        rw [← hcur] at hfree
        exact absurd (hp.symm.trans hfree) (by simp)
      · exact ih.esp0 t ht hk
  | @reap s i hrun hi ih =>
    have htasks : ∀ k u, Function.update s.tasks i none k = some u → s.tasks k = some u := by
      intro k u hu
      by_cases hk : k = i
      · rw [hk, Function.update_self] at hu
        cases hu
      · rwa [Function.update_of_ne hk] at hu
    exact ⟨fun k u hu => ih.range k u (htasks k u hu), fun u hu => ih.esp0 u (htasks _ u hu)⟩
  | @switch s t j ret hrun hc ht ih =>
    obtain ⟨p, hp⟩ := hrun.inv.live
    have hbelow := hrun.inv.below j t ht
    constructor
    · intro k u hu hk
      obtain ⟨-, rfl⟩ | ⟨-, rfl⟩ | ⟨-, hu⟩ := CtxSys.switch_tasks hp hu
      · exact ih.range j t ht hk
      · exact ih.range _ p hp hk
      · exact ih.range k u hu hk
    · intro u hu hk
      obtain rfl : u = { t with state := .running } := by
        have hself : (s.switch j ret t).tasks j = some { t with state := .running } := Function.update_self ..
        exact (Option.some.inj (hself.symm.trans hu)).symm
      have hhi := (ih.range j t ht hk).2
      have hesp0 : (s.switch j ret t).esp0 = w32 (t.kstack + kstackSize) := if_pos hk
      rw [hesp0, ← hhi]
      exact Nat.mod_eq_of_lt hbelow

/-- A task that calls `ctx_switch` and is switched back to finds its stack as it was. -/
theorem switched_back {c1 : Cpu} (hrun1 : CtxRun lay { s with cpu := c1 }) (hp : s.tasks s.current = some p)
    (hcalls : CtxSys.Calls lay { s with cpu := c1 } j) (ht : s.tasks j = some t) (ret : UInt32) {s' : CtxSys}
    (hpath : CtxPath lay s.current (CtxSys.switch j ret { s with cpu := c1 } t) s')
    (hback : s'.Calls lay s.current) (ret' : UInt32) :
    s'.tasks s.current = some { p with state := .called c1 ret } ∧
      CtxTask.Resumes lay { p with state := .called c1 ret }
        (s'.switch s.current ret' { p with state := .called c1 ret }) ∧
      ∀ a, (c1.reg .esp).toNat ≤ a → a < p.hi →
        (s'.switch s.current ret' { p with state := .called c1 ret }).cpu.mem a = c1.mem a := by
  have hrun2 := hrun1.switch j ret hcalls ht
  have hroom : p.lo + 24 ≤ (c1.reg .esp).toNat ∧ (c1.reg .esp).toNat + 8 ≤ p.hi := hcalls.room p hp
  -- from the call on, the task waits
  have hstart : Stays s.current { p with state := .called c1 ret }
      (CtxSys.switch j ret { s with cpu := c1 } t).cpu.mem (CtxSys.switch j ret { s with cpu := c1 } t) := by
    refine ⟨?_, hcalls.other, fun _ _ _ => rfl⟩
    show Function.update (Function.update s.tasks s.current ((s.tasks s.current).map _)) j _ s.current = _
    rw [Function.update_of_ne hcalls.other.symm, Function.update_self, hp]
    rfl
  have hstays := hpath.stays hrun2 hstart
  have hrun' := hpath.run hrun2
  refine ⟨hstays.task, hrun'.inv.resumes hback hstays.task, fun a ha ha' => ?_⟩
  obtain ⟨m, v, hmem, hsame⟩ : ∃ m v, (CtxSys.switch j ret { s with cpu := c1 } t).cpu.mem
        = m.setWord (lay.espAt s.current) v ∧ Mem.SameOff ((c1.reg .esp).toNat - 24) 24 c1.mem m :=
    hrun1.inv.switch_mem hcalls ret t hp
  have hclear := hrun1.inv.clear _ p hp
  have hslot := lay.espAt_mem (hrun1.inv.slot _ p hp)
  have hsaved : (CtxSys.switch j ret { s with cpu := c1 } t).cpu.mem a = c1.mem a := by
    unfold CtxLayout.Clear RangesApart at hclear
    rw [hmem, Mem.sameOff_setWord m _ v a (by omega), hsame a (by omega)]
  rw [hrun'.inv.switch_stack hback ret' _ hstays.task hstays.other.symm (a := a) ?_ ha',
    hstays.stack a ?_ ha', hsaved]
  · exact Nat.le_trans (Nat.sub_le _ _) ha
  · show p.lo ≤ a
    omega

end Steps

/-! ## Interrupts of a task -/

/-- `tss`, as far as an interrupt reads it. -/
def CtxSys.tss (s : CtxSys) : Tss := ⟨UInt32.ofNat s.esp0, UInt16.ofNat selKdata⟩

/-- The running task is interrupted: the machine at the call of `isr_handler`. -/
def CtxSys.interrupted (s : CtxSys) (stub : UInt32) (n : ℕ) (err : UInt32) : CtxSys :=
  { s with cpu := isrCall s.cpu s.tss stub n err }

/-- The stack pointer at the call of `isr_handler`; the argument is there, and above it the frame. -/
def CtxSys.handlerEsp (s : CtxSys) (stub : UInt32) (n : ℕ) (err : UInt32) : ℕ :=
  ((s.interrupted stub n err).cpu.reg .esp).toNat

/-- Where the frame of an interrupt ends: the stack pointer of ring 0, or the end of the kernel stack of a
    process. -/
def CtxSys.frameTop (s : CtxSys) : ℕ := ((s.cpu.onStack s.tss (isrGate 0)).reg .esp).toNat

/-- The running task `p` can be interrupted here: it is a process in ring 3, or in ring 0 with room for the
    frame on its stack. -/
def CtxSys.Interruptible (s : CtxSys) (p : CtxTask) : Prop :=
  (s.cpu.seg .cs &&& 3 = 3 ∧ p.kstack ≠ 0) ∨
    (s.cpu.seg .cs &&& 3 = 0 ∧ p.lo + 64 ≤ (s.cpu.reg .esp).toNat ∧ (s.cpu.reg .esp).toNat ≤ p.hi)

section Interrupted

variable {lay : CtxLayout} {s : CtxSys} {p : CtxTask} {n : ℕ}

section

variable (hrun : CtxRun lay s) (hp : s.tasks s.current = some p) (hint : s.Interruptible p)

include hrun hp hint

/-- The handler runs on the stack of the task. -/
theorem frameTop_room : p.lo + 64 ≤ s.frameTop ∧ s.frameTop ≤ p.hi := by
  unfold CtxSys.frameTop Cpu.onStack
  obtain ⟨hring, hk⟩ | ⟨hring, hroom⟩ := hint
  · have hfrom : s.cpu.FromOuter (isrGate 0) := ring_lt (by decide) hring
    have hbelow := hrun.inv.below _ p hp
    have htop : (UInt32.ofNat p.hi).toNat = p.hi := UInt32.toNat_ofNat_of_lt' hbelow
    obtain ⟨hlo, hhi⟩ := hrun.stacked.range _ p hp hk
    have hsize : kstackSize = 4096 := rfl
    rw [if_pos hfrom, Cpu.setReg_reg, if_pos rfl, CtxSys.tss, hrun.stacked.esp0 p hp hk, htop]
    omega
  · have hsame : ¬ s.cpu.FromOuter (isrGate 0) := by
      unfold Cpu.FromOuter
      rw [hring]
      decide
    rw [if_neg hsame]
    exact hroom

/-- The interrupt is a step of the task, on its own stack. -/
theorem CtxRun.interrupted (hn : isrErr n = pushesErrorCode n) (stub err : UInt32) : CtxRun lay (s.interrupted stub n err) := by
  obtain ⟨hlo, hhi⟩ := frameTop_room hrun hp hint
  have hsame : Mem.SameOff (s.frameTop - 64) 64 s.cpu.mem (isrCall s.cpu s.tss stub n err).mem :=
    @isrCall_sameOff s.cpu s.tss stub n hn err (by change 64 ≤ s.frameTop; omega)
  refine hrun.compute _ fun i t ht hne a ha => hsame a fun hin => ?_
  have hapart := hrun.inv.apart i s.current t p ht hp hne
  have hclear := hrun.inv.clear _ p hp
  have hslot := lay.espAt_mem (hrun.inv.slot i t ht)
  have hw := hrun.inv.waits i t ht hne
  have hlow := hw.lo
  unfold CtxSys.Kept at ha
  rw [CtxSys.savedEsp, hw.saved] at ha
  unfold CtxLayout.Clear RangesApart at *
  omega

theorem handlerEsp_add (hn : isrErr n = pushesErrorCode n) (stub err : UInt32) :
    s.handlerEsp stub n err + 56 + 4 * (s.cpu.outerWords (isrGate stub)).length = s.frameTop := by
  have hroom : 64 ≤ s.frameTop := by
    have := (frameTop_room hrun hp hint).1
    omega
  have hesp : s.handlerEsp stub n err + 4 * ((s.cpu.outerWords (isrGate stub)).length + 14) = s.frameTop :=
    isrCall_esp hn err hroom
  omega

end

theorem Has.eax {c : Cpu} {r : IsrRegs} {ws : List UInt32} {arg : UInt32} (h : c.Has (arg :: (r.words ++ ws))) :
    c.mem.word ((c.reg .esp).toNat + 32) = r.eax.toNat :=
  h.1.2.2.2.2.2.2.2.2.1

/-- The frame is still there, but for its `eax`. -/
theorem Has.of_frame {c d : Cpu} {r : IsrRegs} {ws : List UInt32} {arg : UInt32}
    (h : c.Has (arg :: (r.words ++ ws))) (hesp : d.reg .esp = c.reg .esp)
    (hsame : ∀ a, (c.reg .esp).toNat + 4 ≤ a → a < (c.reg .esp).toNat + 56 + 4 * ws.length →
      ¬ ((c.reg .esp).toNat + 32 ≤ a ∧ a < (c.reg .esp).toNat + 36) → d.mem a = c.mem a) :
    d.Has (d.top :: ({ r with eax := UInt32.ofNat (d.mem.word ((c.reg .esp).toNat + 32)) }.words ++ ws)) := by
  obtain ⟨⟨-, hwords⟩, hlt⟩ := h
  have hsplit : ∀ e, ({ r with eax := e }.words ++ ws).map UInt32.toNat
      = [r.edi, r.esi, r.ebp, r.espDummy, r.ebx, r.edx, r.ecx].map UInt32.toNat ++ e.toNat ::
        ([r.intNo, r.errCode, r.eip, r.cs, r.eflags] ++ ws).map UInt32.toNat := fun _ => rfl
  have hword := UInt32.toNat_ofNat_of_lt' (Mem.word_lt d.mem ((c.reg .esp).toNat + 32))
  rw [hsplit r.eax] at hwords
  have hpatch := hwords.patch d.mem ?_
  · refine ⟨⟨?_, ?_⟩, ?_⟩
    · rw [hesp, Cpu.top, Cpu.load, hesp]
      exact (UInt32.toNat_ofNat_of_lt' (Mem.word_lt _ _)).symm
    · rw [hesp, hsplit, hword]
      exact hpatch
    · rw [hesp]
      exact hlt
  · intro i h1 h2 h3
    simp only [List.length_map, List.length_cons, List.length_nil, List.length_append] at h2 h3
    exact hsame i h1 (by omega) (by omega)

end Interrupted

/-- **Preemption is transparent.** A task is interrupted at any point of its run, in ring 3 or in ring 0, by
    any vector with a stub that fits the processor. The kernel leaves the frame of the interrupt alone and at
    some point calls `ctx_switch`; any other tasks run, spawn, end and switch among each other, until one of
    them switches back. Then the call of `ctx_switch` returns with the registers it was made with, on a stack
    without a changed byte. When the handler returns on it, the task goes on where it was, with all its
    registers; `eax` is what the handler has put in the frame, and what it was if that is nothing. -/
theorem preempted_goes_on {lay : CtxLayout} {s : CtxSys} (hrun : CtxRun lay s) {p : CtxTask}
    (hp : s.tasks s.current = some p) (hint : s.Interruptible p) (stub : UInt32) {n : ℕ}
    (hvec : n ∉ [21, 29, 30]) (err : UInt32)
    -- the kernel up to its call
    {c1 : Cpu} (hkernel : (s.interrupted stub n err).MayBecome lay c1)
    (hframe : ∀ a, s.handlerEsp stub n err + 4 ≤ a → a < s.frameTop →
      c1.mem a = (s.interrupted stub n err).cpu.mem a)
    (hbelow : (c1.reg .esp).toNat ≤ s.handlerEsp stub n err + 4)
    {j : ℕ} {t : CtxTask} (hcalls : CtxSys.Calls lay { s with cpu := c1 } j) (ht : s.tasks j = some t)
    (ret : UInt32)
    -- the others
    {s' : CtxSys} (hpath : CtxPath lay s.current (CtxSys.switch j ret { s with cpu := c1 } t) s')
    (hback : s'.Calls lay s.current) (ret' : UInt32) :
    s'.tasks s.current = some { p with state := .called c1 ret } ∧
      CtxTask.Resumes lay { p with state := .called c1 ret }
        (s'.switch s.current ret' { p with state := .called c1 ret }) ∧
      (∀ a, (c1.reg .esp).toNat ≤ a → a < p.hi →
        (s'.switch s.current ret' { p with state := .called c1 ret }).cpu.mem a = c1.mem a) ∧
      ∀ d : Cpu, d.reg .esp = (s.interrupted stub n err).cpu.reg .esp → d.seg .cs &&& 3 = 0 →
        d.seg .ss = (s.interrupted stub n err).cpu.seg .ss →
        (∀ a, s.handlerEsp stub n err + 4 ≤ a → a < s.frameTop →
          ¬ (s.handlerEsp stub n err + 32 ≤ a ∧ a < s.handlerEsp stub n err + 36) →
          d.mem a = (s'.switch s.current ret' { p with state := .called c1 ret }).cpu.mem a) →
        GoesOn s.cpu (UInt32.ofNat (d.mem.word (s.handlerEsp stub n err + 32))) d (runStub gdtDpl isrExit d) ∧
          ((∀ a, s.handlerEsp stub n err + 32 ≤ a → a < s.handlerEsp stub n err + 36 →
              d.mem a = (s'.switch s.current ret' { p with state := .called c1 ret }).cpu.mem a) →
            UInt32.ofNat (d.mem.word (s.handlerEsp stub n err + 32)) = s.cpu.reg .eax) := by
  have hn := (isrErr_iff n).2 hvec
  have hrun1 : CtxRun lay { s with cpu := c1 } := (hrun.interrupted hp hint hn stub err).compute c1 hkernel
  obtain ⟨hwait, hresumes, hstack⟩ := switched_back hrun1 hp hcalls ht ret hpath hback ret'
  refine ⟨hwait, hresumes, hstack, ?_⟩
  intro d hesp hcs hss hmem
  obtain ⟨hlo, hhi⟩ := frameTop_room hrun hp hint
  have hroom : 64 ≤ ((s.cpu.onStack s.tss (isrGate stub)).reg .esp).toNat := by
    change 64 ≤ s.frameTop
    omega
  have htop := handlerEsp_add hrun hp hint hn stub err
  have hhas : (s.interrupted stub n err).cpu.Has _ := isrCall_has hn hroom
  -- the frame has been left alone all the time
  have hkept : ∀ a, s.handlerEsp stub n err + 4 ≤ a → a < s.frameTop →
      (s'.switch s.current ret' { p with state := .called c1 ret }).cpu.mem a
        = (s.interrupted stub n err).cpu.mem a := fun a h1 h2 => by
    rw [hstack a (by omega) (by omega), hframe a h1 h2]
  have hframe' := Has.of_frame hhas hesp (by
    intro a h1 h2 h3
    rw [List.length_reverse] at h2
    have h2' : a < s.frameTop := by
      rw [← htop]
      exact h2
    rw [hmem a h1 h2' h3, hkept a h1 h2'])
  refine ⟨?_, fun heax => ?_⟩
  · obtain ⟨hring, -⟩ | ⟨hring, -⟩ := hint
    · exact isrExit_outer hring hcs hframe'
    · exact isrExit_inner hn hring hroom hesp hss hframe'
  · have hword : d.mem.word (s.handlerEsp stub n err + 32) = (s.cpu.reg .eax).toNat := by
      refine (Mem.word_congr fun a h1 h2 => ?_).trans (Has.eax hhas)
      exact (heax a h1 h2).trans (hkept a (Nat.le_trans (by omega) h1) (Nat.lt_of_lt_of_le h2 (by omega)))
    rw [hword, UInt32.ofNat_toNat]

/-! ## A process and the boot task -/

/-- The spawned task in ring 3. -/
def inProcess : CtxSys := { inTask with cpu := { programCpu with mem := inTask.cpu.mem } }

/-- Interrupted by the timer, it calls `ctx_switch` for the boot task. -/
def processCalls : Cpu := callingCpu (inProcess.interrupted 0x11000 32 0).cpu.mem 0x200F00 0x2006C 0x8FEE8

/-- The boot task runs. -/
def inBoot : CtxSys := CtxSys.switch 0 0x12000 { inProcess with cpu := processCalls }
  { kstack := 0, lo := 0x80000, hi := 0x90000, state := .called afterSpawn.cpu 0x12000 }

/-- It switches back. -/
def bootCalls : Cpu := callingCpu inBoot.cpu.mem 0x8FF00 0x20000 0x200EE8

theorem inProcess_run : CtxRun tinyCtx inProcess := inTask_run.compute _ fun _ _ _ _ _ _ => rfl

/-- Two tasks, and the boot task waits. -/
theorem inTask_others {i : ℕ} {t : CtxTask} (ht : inTask.tasks i = some t) (hne : i ≠ 1) :
    i = 0 ∧ t.hi = 0x90000 := by
  rcases CtxSys.switch_tasks rfl ht with ⟨hi, -⟩ | ⟨hi, rfl⟩ | ⟨hi, ht⟩
  · exact absurd hi hne
  · exact ⟨hi, rfl⟩
  · rcases CtxSys.spawn_tasks ht with ⟨hi', -⟩ | ⟨-, ht⟩
    · exact absurd hi' hne
    · exact absurd (CtxSys.boot_tasks ht).1 hi

theorem processCalls_mem {a : ℕ} (ha : a < 0x200F00 ∨ 0x200F08 ≤ a) :
    processCalls.mem a = (inProcess.interrupted 0x11000 32 0).cpu.mem a := by
  have hmem : processCalls.mem
      = ((inProcess.interrupted 0x11000 32 0).cpu.mem.setWord 0x200F00 0x2006C).setWord 0x200F04 0x8FEE8 := rfl
  rw [hmem, Mem.sameOff_setWord _ _ _ a (by omega), Mem.sameOff_setWord _ _ _ a (by omega)]

theorem processCalls_kernel : (inProcess.interrupted 0x11000 32 0).MayBecome tinyCtx processCalls := by
  intro i t ht hne a ha
  obtain ⟨rfl, hhi⟩ := inTask_others ht hne
  have hslot : tinyCtx.espAt 0 = 0x20000 := rfl
  refine processCalls_mem ?_
  rw [CtxSys.Kept, hhi, hslot] at ha
  omega

theorem processCalls_calls : CtxSys.Calls tinyCtx { inProcess with cpu := processCalls } 0 := by
  refine ⟨by decide, by decide, by decide +kernel, by decide +kernel, fun t ht => ?_⟩
  cases ht
  decide

theorem inBoot_path : CtxPath tinyCtx 1 inBoot { inBoot with cpu := bootCalls } := by
  refine .compute bootCalls .refl fun i t ht hne a ha => ?_
  -- only the process waits, with its stack pointer far above the boot stack
  have hi : i = 1 := by
    obtain ⟨hi, -⟩ | ⟨hi, -⟩ | ⟨hi, ht⟩ := CtxSys.switch_tasks rfl ht
    · exact absurd hi hne
    · exact hi
    · exact absurd (inTask_others ht hi).1 hne
  subst hi
  have hsaved : inBoot.savedEsp tinyCtx 1 = 0x200EE8 := by decide +kernel
  have hslot : tinyCtx.espAt 1 = 0x2006C := rfl
  have hmem : bootCalls.mem = (inBoot.cpu.mem.setWord 0x8FF00 0x20000).setWord 0x8FF04 0x200EE8 := rfl
  rw [CtxSys.Kept, hsaved, hslot] at ha
  rw [hmem, Mem.sameOff_setWord _ _ _ a (by omega), Mem.sameOff_setWord _ _ _ a (by omega)]

theorem bootCalls_calls : CtxSys.Calls tinyCtx { inBoot with cpu := bootCalls } 1 := by
  refine ⟨by decide, by decide, by decide +kernel, by decide +kernel, fun t ht => ?_⟩
  cases ht
  decide

/-- The process is back in the kernel. -/
def backInKernel : CtxSys := CtxSys.switch 1 0x12000 { inBoot with cpu := bootCalls }
  { newTask 0x200000 0x40000000 with state := .called processCalls 0x12000 }

/-- The process is interrupted by the timer, the boot task runs and switches back, and the process goes
    on. -/
theorem preempted_goes_on_tiny : CtxRun tinyCtx inProcess ∧
    ∃ d, GoesOn inProcess.cpu (inProcess.cpu.reg .eax) d (runStub gdtDpl isrExit d) := by
  have hesp : inProcess.handlerEsp 0x11000 32 0 = 0x200FC0 := by decide +kernel
  have h := preempted_goes_on (s := inProcess) inProcess_run rfl (.inl ⟨by decide, by decide⟩) 0x11000
    (n := 32) (by decide) 0 processCalls_kernel
    (fun a ha _ => processCalls_mem (.inr (Nat.le_trans (by rw [hesp]; decide) ha))) (by rw [hesp]; decide)
    processCalls_calls rfl 0x12000 inBoot_path bootCalls_calls 0x12000
  have hgoes := h.2.2.2 { (inProcess.interrupted 0x11000 32 0).cpu with mem := backInKernel.cpu.mem } rfl
    (by decide) rfl fun _ _ _ _ => rfl
  rw [hgoes.2 fun _ _ _ => rfl] at hgoes
  exact ⟨inProcess_run, _, hgoes.1⟩

end OctoOS
