import OctoOS.Ctx

set_option autoImplicit false

/-! # A task goes on as it was

A waiting task has its frame at the saved stack pointer: what `ctx_switch` pushed when the task called
it, or what `task_spawn_user` put there. Nothing that happens while the task waits touches these
words, so the switch to the task takes them off again. -/

namespace OctoOS

open X86

/-! ## `ctx_switch` in three parts -/

/-- The pushes. -/
def ctxSave : List Instr := [.push .ebp, .push .ebx, .push .esi, .push .edi, .pushfd]

/-- The pops. -/
def ctxRestore : List Instr := [.popfd, .pop .edi, .pop .esi, .pop .ebx, .pop .ebp, .ret]

theorem ctxSwitch_eq : ctxSwitch = [.load .eax .esp 4, .load .edx .esp 8] ++
    (ctxSave ++ ([.store .eax .esp, .mov .esp .edx] ++ ctxRestore)) := rfl

/-- The words a call of `ctx_switch` leaves on the stack, the topmost first. -/
def savedFrame (c : Cpu) (ret : UInt32) : List UInt32 :=
  [c.eflags.val, c.reg .edi, c.reg .esi, c.reg .ebx, c.reg .ebp, ret]

/-- The machine when the frame is complete. -/
def saveFrame (c : Cpu) (ret : UInt32) : Cpu :=
  c.pushAll [ret, c.reg .ebp, c.reg .ebx, c.reg .esi, c.reg .edi, c.eflags.val]

section Code

variable {c : Cpu}

theorem run_ctxSave (c : Cpu) : run gdtDpl ctxSave c
    = c.pushAll [c.reg .ebp, c.reg .ebx, c.reg .esi, c.reg .edi, c.eflags.val] := by
  simp [run, ctxSave, Instr.exec, Cpu.pushAll]

/-- The pops take a frame off the stack. -/
theorem run_ctxRestore {f di si bx bp ra : UInt32} {ws : List UInt32}
    (h : c.Has (f :: di :: si :: bx :: bp :: ra :: ws)) :
    (run gdtDpl ctxRestore c).Has ws ∧ (run gdtDpl ctxRestore c).mem = c.mem ∧ (run gdtDpl ctxRestore c).seg = c.seg ∧
      (run gdtDpl ctxRestore c).eflags = Flags.ofWord f ∧ (run gdtDpl ctxRestore c).eip = ra ∧
      (run gdtDpl ctxRestore c).reg .edi = di ∧ (run gdtDpl ctxRestore c).reg .esi = si ∧
      (run gdtDpl ctxRestore c).reg .ebx = bx ∧ (run gdtDpl ctxRestore c).reg .ebp = bp ∧
      ((run gdtDpl ctxRestore c).reg .esp).toNat = (c.reg .esp).toNat + 24 := by
  have h1 : ({ c.drop with eflags := Flags.ofWord c.top } : Cpu).Has (di :: si :: bx :: bp :: ra :: ws) :=
    h.drop.congr rfl rfl
  have h2 := h1.pop (r := .edi) (by decide)
  have h3 := h2.pop (r := .esi) (by decide)
  have h4 := h3.pop (r := .ebx) (by decide)
  have h5 := h4.pop (r := .ebp) (by decide)
  refine ⟨h5.drop.congr rfl rfl, rfl, rfl, congrArg Flags.ofWord h.top, h5.top, ?_, ?_, ?_, ?_, ?_⟩
  all_goals
    simp only [run, ctxRestore, List.foldl_cons, List.foldl_nil, Instr.exec, Cpu.pop_reg, Cpu.drop_reg,
      reduceCtorEq, if_true, if_false]
  · exact h1.top
  · exact h2.top
  · exact h3.top
  · exact h4.top
  · have hlt := h.2
    simp only [List.length_cons] at hlt
    have hadd : c.reg .esp + 4 + 4 + 4 + 4 + 4 + 4 = c.reg .esp + 24 := by
      simp only [UInt32.add_assoc]
      rfl
    have h24 : (24 : UInt32).toNat = 24 := rfl
    rw [hadd, UInt32.toNat_add, h24, Nat.mod_eq_of_lt (by omega)]

/-- The arguments of the call. -/
theorem load_args (ret : UInt32) (hroom : 4 ≤ (c.reg .esp).toNat)
    (htop : (c.reg .esp).toNat + 4 < 2 ^ 32) :
    (c.push ret).load ((c.push ret).reg .esp + 4)
        = UInt32.ofNat (c.mem.word (c.reg .esp).toNat) ∧
      (c.push ret).load ((c.push ret).reg .esp + 8)
        = UInt32.ofNat (c.mem.word ((c.reg .esp).toNat + 4)) := by
  have hsame := Cpu.sameOff_push (c := c) ret hroom
  have h4 : (c.push ret).reg .esp + 4 = c.reg .esp := by
    rw [Cpu.push_reg, if_pos rfl, UInt32.sub_add_cancel]
  have h8 : (c.push ret).reg .esp + 8 = c.reg .esp + 4 := by
    have h44 : (8 : UInt32) = 4 + 4 := rfl
    rw [h44, ← UInt32.add_assoc, h4]
  constructor
  · rw [h4, Cpu.load, hsame.word (Or.inr (by omega))]
  · rw [h8, Cpu.load, toNat_add_four htop, hsame.word (Or.inr (by omega))]

/-- The machine between the two stacks. -/
theorem run_ctxSave_switch (ret : UInt32) {old new : ℕ} (hroom : 24 ≤ (c.reg .esp).toNat)
    (htop : (c.reg .esp).toNat + 4 < 2 ^ 32) (hold : c.mem.word (c.reg .esp).toNat = old)
    (hnew : c.mem.word ((c.reg .esp).toNat + 4) = new) :
    ∃ d, run gdtDpl ctxSwitch (c.push ret) = run gdtDpl ctxRestore d ∧ d.reg .esp = UInt32.ofNat new ∧
      d.seg = c.seg ∧ d.mem = (saveFrame c ret).mem.setWord old ((c.reg .esp).toNat - 24) := by
  obtain ⟨h1, h2⟩ := load_args (c := c) ret (by omega) htop
  rw [hold] at h1
  rw [hnew] at h2
  rw [ctxSwitch_eq, run_append, run_append, run_append]
  refine ⟨_, rfl, ?_⟩
  -- the loads change `eax` and `edx` only
  have hloads : run gdtDpl [.load .eax .esp 4, .load .edx .esp 8] (c.push ret)
      = ((c.push ret).setReg .eax (UInt32.ofNat old)).setReg .edx (UInt32.ofNat new) := by
    simp only [run, List.foldl_cons, List.foldl_nil, Instr.exec, h1, Cpu.setReg_load, Cpu.setReg_reg,
      reduceCtorEq, if_false, h2]
  rw [hloads, run_ctxSave]
  simp only [Cpu.setReg_reg, reduceCtorEq, if_false, Cpu.push_reg, Cpu.setReg_eflags, Cpu.push_eflags]
  set d := ((c.push ret).setReg .eax (UInt32.ofNat old)).setReg .edx (UInt32.ofNat new) with hd
  set ws := [c.reg .ebp, c.reg .ebx, c.reg .esi, c.reg .edi, c.eflags.val] with hws
  have hdmem : d.mem = (c.push ret).mem := rfl
  have hdesp : d.reg .esp = (c.push ret).reg .esp := rfl
  obtain ⟨hmem, hesp⟩ := Cpu.pushAll_congr hdmem hdesp ws
  have hsp : ((d.pushAll ws).reg .esp).toNat = (c.reg .esp).toNat - 24 := by
    rw [hesp]
    exact c.esp_pushAll (ret :: ws) hroom
  have heax : (d.pushAll ws).reg .eax = UInt32.ofNat old := by
    rw [Cpu.pushAll_reg _ _ (by decide)]
    rfl
  have hedx : (d.pushAll ws).reg .edx = UInt32.ofNat new := by
    rw [Cpu.pushAll_reg _ _ (by decide)]
    rfl
  have hold' : (UInt32.ofNat old).toNat = old := by
    rw [← hold]
    exact UInt32.toNat_ofNat_of_lt' (Mem.word_lt ..)
  simp only [run, List.foldl_cons, List.foldl_nil, Instr.exec, Cpu.setReg_reg, if_true, Cpu.store_reg,
    Cpu.setReg_seg, Cpu.store_seg, Cpu.setReg_mem, Cpu.store_mem, heax, hedx, hold', hsp, hmem,
    Cpu.pushAll_seg, saveFrame, Cpu.pushAll_cons c ret]
  exact ⟨trivial, rfl, by rw [hws]⟩

/-- The frame a call of `ctx_switch` leaves, and where it is stored. -/
theorem saveFrame_spec (ret : UInt32) (hroom : 24 ≤ (c.reg .esp).toNat) :
    (saveFrame c ret).mem.Words ((c.reg .esp).toNat - 24) ((savedFrame c ret).map UInt32.toNat) ∧
      Mem.SameOff ((c.reg .esp).toNat - 24) 24 c.mem (saveFrame c ret).mem := by
  have hnil : c.Has [] := ⟨trivial, (c.reg .esp).toNat_lt⟩
  have hesp : ((saveFrame c ret).reg .esp).toNat = (c.reg .esp).toNat - 24 := c.esp_pushAll _ hroom
  have hhas : (saveFrame c ret).Has (savedFrame c ret) := hnil.pushAll hroom
  refine ⟨?_, c.sameOff_pushAll
    [ret, c.reg .ebp, c.reg .ebx, c.reg .esi, c.reg .edi, c.eflags.val] hroom⟩
  rw [← hesp]
  exact hhas.1

end Code

/-! ## Frames -/

/-- `pushWords` over any way to move the stack pointer. Its equations do not mention `sub32`, which
    the kernel would evaluate. -/
def pushBy (f : ℕ → ℕ) : List ℕ → ℕ × Mem → ℕ × Mem
  | [], st => st
  | w :: ws, (sp, ram) => pushBy f ws (f sp, ram.setWord (f sp) w)

/-- The frame for ring 3. -/
def userFrame (entry : UInt32) : List UInt32 :=
  [entry, UInt32.ofNat selUcode, 0x202, UInt32.ofNat userStackTop, UInt32.ofNat selUdata]

/-- The frame of a waiting task, the topmost word first. -/
def CtxTask.frame (lay : CtxLayout) (t : CtxTask) : List UInt32 :=
  match t.state with
  | .running => []
  | .called c ret => savedFrame c ret
  | .spawned entry => 2 :: 0 :: 0 :: 0 :: 0 :: lay.userEntryAddr :: userFrame entry

/-- The stack pointer of a waiting task. -/
def CtxTask.sp (t : CtxTask) : ℕ :=
  match t.state with
  | .running => 0
  | .called c _ => (c.reg .esp).toNat - 24
  | .spawned _ => t.kstack + kstackSize - 44

/-- The task in slot `i` waits with its frame complete. -/
structure CtxTask.Waits (lay : CtxLayout) (m : Mem) (i : ℕ) (t : CtxTask) : Prop where
  stopped : t.state ≠ .running
  lo : t.lo ≤ t.sp
  hi : t.sp + 4 * (t.frame lay).length ≤ t.hi
  saved : m.word (lay.espAt i) = t.sp
  words : m.Words t.sp ((t.frame lay).map UInt32.toNat)
  enough : ∀ c ret, t.state = .called c ret → 24 ≤ (c.reg .esp).toNat
  fresh : ∀ entry, t.state = .spawned entry → t.kstack ≠ 0 ∧ t.hi = t.kstack + kstackSize

/-- The stacks of the live tasks are apart from each other and from the table of tasks. -/
structure CtxSys.Placed (lay : CtxLayout) (s : CtxSys) : Prop where
  slot : ∀ i t, s.tasks i = some t → i < maxTasks
  below : ∀ i t, s.tasks i = some t → t.hi < 2 ^ 32
  clear : ∀ i t, s.tasks i = some t → lay.Clear t.lo t.hi
  apart : ∀ i k t u, s.tasks i = some t → s.tasks k = some u → i ≠ k → RangesApart t.lo t.hi u.lo u.hi

/-- What holds at every moment. -/
structure CtxSys.Inv (lay : CtxLayout) (s : CtxSys) : Prop extends CtxSys.Placed lay s where
  live : ∃ t, s.tasks s.current = some t
  waits : ∀ i t, s.tasks i = some t → i ≠ s.current → t.Waits lay s.cpu.mem i

section Frames

variable {lay : CtxLayout} {s : CtxSys} {t : CtxTask} {m m' : Mem} {i j : ℕ} {ret entry : UInt32}

theorem firstFrame_reverse : (firstFrame lay.userEntryAddr.toNat entry.toNat).reverse
    = (2 :: 0 :: 0 :: 0 :: 0 :: lay.userEntryAddr :: userFrame entry).map UInt32.toNat := rfl

theorem pushWords_eq : pushWords = pushBy (fun sp => sub32 sp 4) := by
  delta pushWords pushBy
  rfl

theorem pushWords_cons (w : ℕ) (ws : List ℕ) (sp : ℕ) (m : Mem) : pushWords (w :: ws) (sp, m)
    = pushWords ws (sub32 sp 4, m.setWord (sub32 sp 4) w) := by
  rw [pushWords_eq, pushBy]

/-- What `*--sp = w` leaves behind. -/
theorem pushWords_spec {ws : List ℕ} {sp : ℕ} (hws : ∀ w ∈ ws, w < 2 ^ 32) (hroom : 4 * ws.length ≤ sp)
    (hsp : sp < 2 ^ 32) {vs : List ℕ} (hvs : m.Words sp vs) :
    (pushWords ws (sp, m)).1 = sp - 4 * ws.length ∧
      Mem.SameOff (sp - 4 * ws.length) (4 * ws.length) m (pushWords ws (sp, m)).2 ∧
      (pushWords ws (sp, m)).2.Words (sp - 4 * ws.length) (ws.reverse ++ vs) := by
  induction ws generalizing sp m vs with
  | nil => exact ⟨rfl, Mem.SameOff.refl _ _ _, hvs⟩
  | cons w ws ih =>
    rw [List.length_cons] at hroom
    have hsub : sub32 sp 4 = sp - 4 := by
      unfold sub32
      omega
    have hw : w < 2 ^ 32 := hws w (List.mem_cons_self ..)
    have hone : (m.setWord (sp - 4) w).Words (sp - 4) (w :: vs) := by
      refine Mem.Words.setWord ?_ hw
      rw [Nat.sub_add_cancel (by omega)]
      exact hvs
    obtain ⟨h1, h2, h3⟩ := ih (fun v hv => hws v (List.mem_cons_of_mem _ hv))
      (by omega : 4 * ws.length ≤ sp - 4) (by omega) hone
    have hlen : sp - 4 - 4 * ws.length = sp - 4 * (w :: ws).length := by
      rw [List.length_cons]
      omega
    rw [hlen] at h1 h2 h3
    rw [pushWords_cons, hsub]
    refine ⟨h1, ?_, by rw [List.reverse_cons, List.append_assoc]; exact h3⟩
    have hlen' : (w :: ws).length = ws.length + 1 := List.length_cons
    exact ((Mem.sameOff_setWord m (sp - 4) w).mono (by omega) (by omega)).trans
      (h2.mono (by omega) (by omega))

/-- A frame starts with what `ctx_switch` pops. -/
theorem CtxTask.Waits.frame_eq (h : t.Waits lay m i) : ∃ f di si bx bp ra ws,
    t.frame lay = f :: di :: si :: bx :: bp :: ra :: ws := by
  unfold CtxTask.frame
  cases hstate : t.state with
  | running => exact absurd hstate h.stopped
  | called _ _ | spawned _ => exact ⟨_, _, _, _, _, _, _, rfl⟩

/-- A waiting task does not notice what happens outside of its frame. -/
theorem CtxTask.Waits.congr (h : t.Waits lay m i)
    (hstack : ∀ a, t.sp ≤ a → a < t.hi → m' a = m a)
    (hslot : ∀ a, lay.espAt i ≤ a → a < lay.espAt i + 4 → m' a = m a) : t.Waits lay m' i where
  stopped := h.stopped
  lo := h.lo
  hi := h.hi
  saved := by
    rw [Mem.word_congr hslot]
    exact h.saved
  words := by
    refine h.words.congr (fun a h1 h2 => hstack a h1 ?_)
    have hhi := h.hi
    rw [List.length_map] at h2
    omega
  enough := h.enough
  fresh := h.fresh

theorem CtxLayout.espAt_mem (lay : CtxLayout) (hi : i < maxTasks) : lay.tasksAddr ≤ lay.espAt i ∧
    lay.espAt i + 4 ≤ lay.tasksAddr + maxTasks * taskSize := by
  unfold espAt taskSize maxTasks at *
  omega

theorem CtxLayout.espAt_apart (lay : CtxLayout) (hij : i ≠ j) :
    RangesApart (lay.espAt i) (lay.espAt i + 4) (lay.espAt j) (lay.espAt j + 4) := by
  unfold RangesApart espAt taskSize
  omega

/-- A waiting task does not notice a store to another slot and to a range away from its stack. -/
theorem CtxTask.Waits.store (h : t.Waits lay m i) (hclear : lay.Clear t.lo t.hi) (hi : i < maxTasks)
    (hj : j < maxTasks) (hij : i ≠ j) {a n v : ℕ} (hsame : Mem.SameOff a n m m')
    (hstack : RangesApart t.lo t.hi a (a + n)) (hslot : lay.Clear a (a + n)) :
    t.Waits lay (m'.setWord (lay.espAt j) v) i := by
  have h1 := lay.espAt_mem hi
  have h2 := lay.espAt_mem hj
  have h3 := lay.espAt_apart hij
  have hlo := h.lo
  unfold CtxLayout.Clear RangesApart at *
  refine h.congr (fun x hx hx' => ?_) (fun x hx hx' => ?_)
  · rw [Mem.sameOff_setWord m' _ v x (by omega), hsame x (by omega)]
  · rw [Mem.sameOff_setWord m' _ v x (by omega), hsame x (by omega)]

end Frames

/-! ## The steps -/

section Steps

variable {lay : CtxLayout} {s s' : CtxSys} {t : CtxTask} {i j : ℕ} {ret entry : UInt32} {c : Cpu}
  {u : CtxTask} {k kstack : ℕ}

theorem CtxSys.Placed.of_tasks (h : s.Placed lay) (htasks : ∀ k u, s'.tasks k = some u →
    ∃ u0, s.tasks k = some u0 ∧ u.lo = u0.lo ∧ u.hi = u0.hi) : s'.Placed lay where
  slot k u hu := by
    obtain ⟨u0, hu0, -⟩ := htasks k u hu
    exact h.slot k u0 hu0
  below k u hu := by
    obtain ⟨u0, hu0, -, hhi⟩ := htasks k u hu
    rw [hhi]
    exact h.below k u0 hu0
  clear k u hu := by
    obtain ⟨u0, hu0, hlo, hhi⟩ := htasks k u hu
    rw [hlo, hhi]
    exact h.clear k u0 hu0
  apart k l u v hu hv hkl := by
    obtain ⟨u0, hu0, hlo, hhi⟩ := htasks k u hu
    obtain ⟨v0, hv0, hlo', hhi'⟩ := htasks l v hv
    rw [hlo, hhi, hlo', hhi']
    exact h.apart k l u0 v0 hu0 hv0 hkl

theorem CtxSys.boot_tasks {esp0 lo hi : ℕ} (hu : (CtxSys.boot c esp0 lo hi).tasks k = some u) :
    k = 0 ∧ u = ⟨0, lo, hi, .running⟩ := by
  simp only [CtxSys.boot] at hu
  split_ifs at hu with hk
  exact ⟨hk, (Option.some.inj hu).symm⟩

theorem CtxSys.inv_boot {esp0 lo hi : ℕ} (hhi : hi < 2 ^ 32) (hclear : lay.Clear lo hi) :
    (CtxSys.boot c esp0 lo hi).Inv lay := by
  refine ⟨⟨fun k u hu => ?_, fun k u hu => ?_, fun k u hu => ?_, fun k l u v hu hv hkl => ?_⟩,
    ⟨_, rfl⟩, fun k u hu hne => ?_⟩
  · rw [(CtxSys.boot_tasks hu).1]
    decide
  · rw [(CtxSys.boot_tasks hu).2]
    exact hhi
  · rw [(CtxSys.boot_tasks hu).2]
    exact hclear
  · exact absurd ((CtxSys.boot_tasks hu).1.trans (CtxSys.boot_tasks hv).1.symm) hkl
  · exact absurd (CtxSys.boot_tasks hu).1 hne

/-- The running task computes. -/
theorem CtxSys.Inv.compute (h : s.Inv lay) (hc : s.MayBecome lay c) :
    CtxSys.Inv lay { s with cpu := c } where
  toPlaced := h.toPlaced.of_tasks (fun _ u hu => ⟨u, hu, rfl, rfl⟩)
  live := h.live
  waits k u hu hne := by
    have hw := h.waits k u hu hne
    refine hw.congr (fun a h1 h2 => hc k u hu hne a (Or.inl ⟨?_, h2⟩))
      (fun a h1 h2 => hc k u hu hne a (Or.inr ⟨h1, h2⟩))
    rw [CtxSys.savedEsp, hw.saved]
    exact h1

theorem CtxSys.Inv.reap (h : s.Inv lay) (hi : i ≠ s.current) :
    CtxSys.Inv lay { s with tasks := Function.update s.tasks i none } := by
  have htasks : ∀ k u, Function.update s.tasks i none k = some u → s.tasks k = some u := by
    intro k u hu
    by_cases hk : k = i
    · rw [hk, Function.update_self] at hu
      cases hu
    · rwa [Function.update_of_ne hk] at hu
  refine ⟨h.toPlaced.of_tasks (fun k u hu => ⟨u, htasks k u hu, rfl, rfl⟩), ?_,
    fun k u hu hne => h.waits k u (htasks k u hu) hne⟩
  obtain ⟨t, ht⟩ := h.live
  refine ⟨t, ?_⟩
  simp only [Function.update_of_ne hi.symm, ht]

/-- The task `task_spawn_user` enters in the table. -/
def newTask (kstack : ℕ) (entry : UInt32) : CtxTask :=
  ⟨kstack, kstack, kstack + kstackSize, .spawned entry⟩

theorem newTask_frame (kstack : ℕ) (entry : UInt32) : (newTask kstack entry).frame lay
    = 2 :: 0 :: 0 :: 0 :: 0 :: lay.userEntryAddr :: userFrame entry := rfl

/-- The stores of `task_spawn_user`: the frame at the top of the new stack, and its address. -/
theorem CtxSys.spawn_mem (s : CtxSys) (lay : CtxLayout) (i : ℕ) (entry : UInt32)
    (hbelow : kstack + kstackSize < 2 ^ 32) :
    ∃ m, (s.spawn lay i kstack entry).cpu.mem
        = m.setWord (lay.espAt i) (kstack + kstackSize - 44) ∧
      Mem.SameOff (kstack + kstackSize - 44) 44 s.cpu.mem m ∧
      m.Words (kstack + kstackSize - 44) (((newTask kstack entry).frame lay).map UInt32.toNat) := by
  have hsize : kstackSize = 4096 := rfl
  have htop : w32 (kstack + kstackSize) = kstack + kstackSize := Nat.mod_eq_of_lt hbelow
  have hwords : ∀ w ∈ firstFrame lay.userEntryAddr.toNat entry.toNat, w < 2 ^ 32 := by
    have h1 := lay.userEntryAddr.toNat_lt
    have h2 := entry.toNat_lt
    simp only [firstFrame, List.mem_cons, List.not_mem_nil, or_false]
    rintro w (rfl | rfl | rfl | rfl | rfl | rfl | rfl | rfl | rfl | rfl | rfl)
    all_goals first | assumption | decide
  have hlen : (firstFrame lay.userEntryAddr.toNat entry.toNat).length = 11 := rfl
  have hnil : s.cpu.mem.Words (kstack + kstackSize) [] := trivial
  obtain ⟨hsp, hsame, hframe⟩ := pushWords_spec hwords (by rw [hlen]; omega) hbelow hnil
  rw [hlen] at hsp hsame hframe
  rw [List.append_nil, firstFrame_reverse, ← newTask_frame] at hframe
  refine ⟨_, ?_, hsame, hframe⟩
  simp only [CtxSys.spawn, htop, hsp]

/-- The new task waits. -/
theorem CtxSys.HasRoom.waits (hroom : s.HasRoom lay i kstack) :
    (newTask kstack entry).Waits lay (s.spawn lay i kstack entry).cpu.mem i := by
  obtain ⟨m, hmem, -, hframe⟩ := s.spawn_mem lay i entry hroom.below
  have hsize : kstackSize = 4096 := rfl
  have hbelow := hroom.below
  have hclear := hroom.clear
  have hslot := lay.espAt_mem hroom.slot
  have hsp : (newTask kstack entry).sp = kstack + kstackSize - 44 := rfl
  have hlen : ((newTask kstack entry).frame lay).length = 11 := rfl
  have hhi : (newTask kstack entry).hi = kstack + kstackSize := rfl
  have hlo : (newTask kstack entry).lo = kstack := rfl
  unfold CtxLayout.Clear RangesApart at hclear
  rw [hmem]
  refine ⟨nofun, by omega, by omega, ?_, ?_, nofun, fun _ _ => ⟨Nat.pos_iff_ne_zero.1 hroom.pos, rfl⟩⟩
  · rw [Mem.word_setWord _ _ (by omega), hsp]
  · rw [hsp]
    refine hframe.congr (fun a h1 h2 => ?_)
    rw [List.length_map, hlen] at h2
    exact Mem.sameOff_setWord m _ _ a (by omega)

/-- A new task, and the others as they were. -/
theorem CtxSys.spawn_tasks (hu : (s.spawn lay i kstack entry).tasks k = some u) :
    (k = i ∧ u = newTask kstack entry) ∨ (k ≠ i ∧ s.tasks k = some u) := by
  simp only [CtxSys.spawn] at hu
  by_cases hk : k = i
  · rw [hk, Function.update_self] at hu
    exact Or.inl ⟨hk, (Option.some.inj hu).symm⟩
  · rw [Function.update_of_ne hk] at hu
    exact Or.inr ⟨hk, hu⟩

theorem CtxSys.HasRoom.placed (h : s.Placed lay) (hroom : s.HasRoom lay i kstack) :
    (s.spawn lay i kstack entry).Placed lay where
  slot k u hu := by
    rcases CtxSys.spawn_tasks hu with ⟨rfl, -⟩ | ⟨-, hu⟩
    · exact hroom.slot
    · exact h.slot k u hu
  below k u hu := by
    rcases CtxSys.spawn_tasks hu with ⟨-, rfl⟩ | ⟨-, hu⟩
    · exact hroom.below
    · exact h.below k u hu
  clear k u hu := by
    rcases CtxSys.spawn_tasks hu with ⟨-, rfl⟩ | ⟨-, hu⟩
    · exact hroom.clear
    · exact h.clear k u hu
  apart k l u v hu hv hkl := by
    rcases CtxSys.spawn_tasks hu with ⟨rfl, rfl⟩ | ⟨-, hu⟩
    · rcases CtxSys.spawn_tasks hv with ⟨rfl, -⟩ | ⟨-, hv⟩
      · exact absurd rfl hkl
      · exact hroom.apart l v hv
    · rcases CtxSys.spawn_tasks hv with ⟨-, rfl⟩ | ⟨-, hv⟩
      · exact (hroom.apart k u hu).symm
      · exact h.apart k l u v hu hv hkl

/-- `task_spawn_user` keeps the invariant. -/
theorem CtxSys.Inv.spawn (h : s.Inv lay) {kstack : ℕ} (hroom : s.HasRoom lay i kstack) :
    (s.spawn lay i kstack entry).Inv lay where
  toPlaced := hroom.placed h.toPlaced
  live := by
    obtain ⟨t, ht⟩ := h.live
    refine ⟨t, ?_⟩
    have hcur : s.current ≠ i := by
      rintro rfl
      rw [hroom.free] at ht
      cases ht
    simp only [CtxSys.spawn, Function.update_of_ne hcur, ht]
  waits k u hu hne := by
    rcases CtxSys.spawn_tasks hu with ⟨rfl, rfl⟩ | ⟨hki, hu⟩
    · exact hroom.waits
    · obtain ⟨m, hmem, hsame, -⟩ := s.spawn_mem lay i entry hroom.below
      have hsize : kstackSize = 4096 := rfl
      have hapart := hroom.apart k u hu
      have hclear := hroom.clear
      rw [hmem]
      refine (h.waits k u hu hne).store (h.clear k u hu) (h.slot k u hu) hroom.slot hki hsame ?_ ?_
      · unfold RangesApart at hapart ⊢
        omega
      · unfold CtxLayout.Clear RangesApart at hclear ⊢
        omega

/-! ## The switch -/

/-- The machine between the two stacks, when `ctx_switch` is called for the task in slot `j`: the
    frames of all other tasks are complete, the one of the caller too. -/
theorem CtxSys.Inv.switch_saved (h : s.Inv lay) (hc : s.Calls lay j) (ret : UInt32)
    (ht : s.tasks j = some t) {p : CtxTask} (hp : s.tasks s.current = some p) :
    ∃ d, (s.switch j ret t).cpu = run gdtDpl ctxRestore d ∧ (d.reg .esp).toNat = t.sp ∧ d.seg = s.cpu.seg ∧
      (∀ k u, s.tasks k = some u → k ≠ s.current → u.Waits lay d.mem k) ∧
      CtxTask.Waits lay d.mem s.current { p with state := .called s.cpu ret } := by
  obtain ⟨hlo, hhi⟩ := hc.room p hp
  have hbelow := h.below _ p hp
  have hclear := h.clear _ p hp
  have hslot := lay.espAt_mem (h.slot _ p hp)
  obtain ⟨d, hd, hesp, hseg, hmem⟩ := run_ctxSave_switch ret (by omega) (by omega) hc.oldEsp hc.newEsp
  obtain ⟨hframe, hsave⟩ := saveFrame_spec (c := s.cpu) ret (by omega)
  refine ⟨d, hd, ?_, hseg, fun k u hu hne => ?_, ?_⟩
  · -- the saved stack pointer of the other task
    have hw := h.waits j t ht hc.other
    have htsp := hw.hi
    have hthi := h.below j t ht
    rw [hesp, CtxSys.savedEsp, hw.saved]
    exact UInt32.toNat_ofNat_of_lt' (Nat.lt_of_le_of_lt (by omega) hthi)
  · rw [hmem]
    have hapart := h.apart k s.current u p hu hp hne
    refine (h.waits k u hu hne).store (h.clear k u hu) (h.slot k u hu) (h.slot _ p hp) hne hsave ?_ ?_
    · unfold RangesApart at hapart ⊢
      omega
    · unfold CtxLayout.Clear RangesApart at hclear ⊢
      omega
  · rw [hmem]
    unfold CtxLayout.Clear RangesApart at hclear
    refine ⟨nofun, by simp only [CtxTask.sp]; omega, ?_, Mem.word_setWord _ _ (by omega), ?_, ?_, nofun⟩
    · simp only [CtxTask.sp, CtxTask.frame, savedFrame, List.length_cons, List.length_nil]
      omega
    · refine hframe.congr (fun a h1 h2 => ?_)
      rw [List.length_map, savedFrame, List.length_cons, List.length_cons, List.length_cons,
        List.length_cons, List.length_cons, List.length_cons, List.length_nil] at h2
      exact Mem.sameOff_setWord _ _ _ a (by omega)
    · rintro c ret' ⟨⟩
      omega

/-- The frame of a waiting task is on top of the stack that its stack pointer points to. -/
theorem CtxTask.Waits.has {d : Cpu} (hw : t.Waits lay d.mem i) (hesp : (d.reg .esp).toNat = t.sp)
    (hhi : t.hi < 2 ^ 32) : d.Has (t.frame lay) := by
  refine ⟨?_, ?_⟩
  · rw [hesp]
    exact hw.words
  · rw [hesp]
    exact Nat.lt_of_le_of_lt hw.hi hhi

/-- The table after a switch. -/
theorem CtxSys.switch_tasks {p : CtxTask} (hp : s.tasks s.current = some p)
    (hu : (s.switch j ret t).tasks k = some u) :
    (k = j ∧ u = { t with state := .running }) ∨
      (k = s.current ∧ u = { p with state := .called s.cpu ret }) ∨
        (k ≠ s.current ∧ s.tasks k = some u) := by
  simp only [CtxSys.switch, hp, Option.map_some] at hu
  by_cases hkj : k = j
  · rw [hkj, Function.update_self] at hu
    exact Or.inl ⟨hkj, (Option.some.inj hu).symm⟩
  · rw [Function.update_of_ne hkj] at hu
    by_cases hkc : k = s.current
    · rw [hkc, Function.update_self] at hu
      exact Or.inr (Or.inl ⟨hkc, (Option.some.inj hu).symm⟩)
    · rw [Function.update_of_ne hkc] at hu
      exact Or.inr (Or.inr ⟨hkc, hu⟩)

/-- A switch keeps the invariant. -/
theorem CtxSys.Inv.switch (h : s.Inv lay) (hc : s.Calls lay j) (ht : s.tasks j = some t) :
    (s.switch j ret t).Inv lay := by
  obtain ⟨p, hp⟩ := h.live
  obtain ⟨d, hcpu, hesp, -, hothers, hcaller⟩ := h.switch_saved hc ret ht hp
  have hw := hothers j t ht hc.other
  obtain ⟨f, di, si, bx, bp, ra, ws, hframe⟩ := hw.frame_eq
  have hhas := hw.has hesp (h.below j t ht)
  rw [hframe] at hhas
  -- the pops do not store anything
  have hmem : (s.switch j ret t).cpu.mem = d.mem := by
    rw [hcpu]
    exact (run_ctxRestore hhas).2.1
  refine ⟨h.toPlaced.of_tasks (fun k u hu => ?_), ⟨_, Function.update_self ..⟩, fun k u hu hne => ?_⟩
  · rcases CtxSys.switch_tasks hp hu with ⟨rfl, rfl⟩ | ⟨rfl, rfl⟩ | ⟨-, hu⟩
    · exact ⟨t, ht, rfl, rfl⟩
    · exact ⟨p, hp, rfl, rfl⟩
    · exact ⟨u, hu, rfl, rfl⟩
  · rw [hmem]
    rcases CtxSys.switch_tasks hp hu with ⟨rfl, -⟩ | ⟨rfl, rfl⟩ | ⟨hkc, hu⟩
    · exact absurd rfl hne
    · exact hcaller
    · exact hothers k u hu hkc

/-- The segment registers at the `iretd` of `user_entry`. -/
theorem run_userSegments_seg (c : Cpu) (g : Seg) : (run gdtDpl userSegments c).seg g
    = if g = .cs ∨ g = .ss then c.seg g else UInt16.ofNat selUdata := by
  have hdata : UInt16.ofNat selUdata = 0x23 := by decide
  cases g <;> simp only [run, userSegments, List.foldl_cons, List.foldl_nil, Instr.exec, Cpu.setSeg_seg,
    Cpu.setSeg_reg, Cpu.setReg_reg, Cpu.setReg_seg, toUInt16_movLow, hdata, reduceCtorEq, if_true,
    if_false, or_true, true_or, or_self]

/-- `user_entry` with the frame for ring 3 on the stack. -/
theorem entersUser (hhas : s.cpu.Has (userFrame entry)) (hring : s.cpu.seg .cs &&& 3 = 0)
    (hstart : s.cpu.eip = lay.userEntryAddr) (hempty : (s.cpu.reg .esp).toNat + 20 = s.esp0) :
    EntersUser lay entry s := by
  have hesp : (run gdtDpl userSegments s.cpu).reg .esp = s.cpu.reg .esp := by
    simp [run, userSegments, Instr.exec]
  have hframe : (run gdtDpl userSegments s.cpu).Has (userFrame entry) := hhas.congr rfl hesp
  have hout : (run gdtDpl userSegments s.cpu).seg .cs &&& 3 < (UInt32.ofNat selUcode).toUInt16 &&& 3 := by
    rw [run_userSegments_seg, if_pos (Or.inl rfl), hring]
    decide
  have hcode : run gdtDpl userEntryCode s.cpu = (run gdtDpl userSegments s.cpu).iret gdtDpl := run_append _ _ _ _
  obtain ⟨heip, hflags, hsp, hseg⟩ := hframe.iret hout
  refine ⟨hstart, hframe, by rw [hesp]; exact hempty, ?_, ?_, ?_, ?_, fun g hg => ?_⟩
  all_goals rw [hcode]
  · exact heip
  · rw [hflags]
    decide
  · exact hsp
  · rw [hseg]
    rfl
  · rw [hseg]
    by_cases hss : g = .ss
    · rw [hss]
      rfl
    · -- the user data segment is one for ring 3
      rw [Cpu.outerSegs_data _ _ _ hg hss, run_userSegments_seg, if_neg (not_or.2 ⟨hg, hss⟩)]
      decide

/-- The task that a switch goes to is resumed. -/
theorem CtxSys.Inv.resumes (h : s.Inv lay) (hc : s.Calls lay j) (ht : s.tasks j = some t) :
    t.Resumes lay (s.switch j ret t) := by
  obtain ⟨p, hp⟩ := h.live
  obtain ⟨d, hcpu, hesp, hseg, hothers, -⟩ := h.switch_saved hc ret ht hp
  have hw := hothers j t ht hc.other
  have hbelow := h.below j t ht
  have hhas := hw.has hesp hbelow
  unfold CtxTask.Resumes
  unfold CtxTask.frame at hhas
  unfold CtxTask.sp at hesp
  cases hstate : t.state with
  | running => exact absurd hstate hw.stopped
  | called c ret' =>
    simp only [hstate] at hhas hesp ⊢
    have henough := hw.enough c ret' hstate
    obtain ⟨-, -, -, hflags, heip, hdi, hsi, hbx, hbp, hsp⟩ := run_ctxRestore hhas
    rw [hcpu]
    refine ⟨heip, hflags.trans (Flags.ofWord_val _), ?_⟩
    simp only [List.mem_cons, List.not_mem_nil, or_false]
    rintro r (rfl | rfl | rfl | rfl | rfl)
    · exact hbp
    · exact hbx
    · exact hsi
    · exact hdi
    · refine UInt32.toNat_inj.1 ?_
      rw [hsp, hesp]
      omega
  | spawned entry =>
    simp only [hstate] at hhas hesp ⊢
    obtain ⟨hne, hhi⟩ := hw.fresh entry hstate
    obtain ⟨hrest, -, hseg', -, heip, -, -, -, -, hsp⟩ := run_ctxRestore hhas
    refine entersUser (by rw [hcpu]; exact hrest) ?_ (by rw [hcpu]; exact heip) ?_
    · rw [hcpu, hseg', hseg]
      exact hc.ring
    · have hsize : kstackSize = 4096 := rfl
      have hesp0 : (s.switch j ret t).esp0 = w32 (t.kstack + kstackSize) := if_pos hne
      rw [hhi] at hbelow
      rw [hcpu, hsp, hesp, hesp0, w32, Nat.mod_eq_of_lt hbelow]
      omega

end Steps

/-- Every reachable state has the invariant. -/
theorem CtxRun.inv {lay : CtxLayout} {s : CtxSys} (hrun : CtxRun lay s) : s.Inv lay := by
  induction hrun with
  | boot c esp0 lo hi hhi hclear => exact CtxSys.inv_boot hhi hclear
  | compute c _ hc ih => exact ih.compute hc
  | spawn i kstack entry _ hroom ih => exact ih.spawn hroom
  | reap i _ hi ih => exact ih.reap hi
  | switch j ret _ hc ht ih => exact ih.switch hc ht

/-- **Context switches are transparent.** In every run of the boot task and spawned tasks, with stacks
    that are apart from each other and written by their owners only, a switch to a task that has
    called `ctx_switch` returns behind that call with the registers of the call, and the first switch
    to a spawned task enters its program in ring 3, with nothing left on the kernel stack. -/
theorem ctxRun_resumes {lay : CtxLayout} {s : CtxSys} (hrun : CtxRun lay s) {j : ℕ} (ret : UInt32)
    (hc : s.Calls lay j) {t : CtxTask} (ht : s.tasks j = some t) :
    t.Resumes lay (s.switch j ret t) :=
  hrun.inv.resumes hc ht

/-! ## There and back -/

/-- A table of tasks at 0x20000. -/
def tinyCtx : CtxLayout := ⟨0x20000, 0x11000, by decide⟩

/-- A machine in ring 0 with the arguments of `ctx_switch` on its stack. -/
def callingCpu (m : Mem) (esp : UInt32) (old new : ℕ) : Cpu where
  reg := fun r => if r = .esp then esp else 7
  seg := fun _ => 0x08
  eflags := Flags.ofWord 0x202
  eip := 0
  mem := (m.setWord esp.toNat old).setWord (esp.toNat + 4) new

/-- The boot task has spawned a task with its kernel stack at 0x200000. -/
def afterSpawn : CtxSys :=
  (CtxSys.boot (callingCpu (fun _ => 0) 0x8FF00 0x20000 0x200FD4) 0x90000 0x80000 0x90000).spawn
    tinyCtx 1 0x200000 0x40000000

/-- The spawned task runs. -/
def inTask : CtxSys := afterSpawn.switch 1 0x12000 (newTask 0x200000 0x40000000)

/-- The spawned task has come back into the kernel and switches to the boot task. -/
def taskCpu : Cpu := callingCpu inTask.cpu.mem 0x200F00 0x2006C 0x8FEE8

theorem afterSpawn_run : CtxRun tinyCtx afterSpawn := by
  refine (CtxRun.boot _ 0x90000 0x80000 0x90000 (by decide) (by decide)).spawn 1 0x200000 0x40000000 ?_
  refine ⟨by decide, rfl, by decide, by decide, by decide, fun k t ht => ?_⟩
  obtain ⟨-, rfl⟩ := CtxSys.boot_tasks ht
  decide

theorem afterSpawn_calls : afterSpawn.Calls tinyCtx 1 := by
  refine ⟨by decide, by decide, by decide +kernel, by decide +kernel, fun t ht => ?_⟩
  cases ht
  decide

theorem inTask_run : CtxRun tinyCtx inTask := afterSpawn_run.switch 1 0x12000 afterSpawn_calls rfl

/-- While the boot task waits, the spawned task stores on its own stack only. -/
theorem taskCpu_run : CtxRun tinyCtx { inTask with cpu := taskCpu } := by
  -- no other task waits
  have hboot : ∀ i t, inTask.tasks i = some t → i ≠ inTask.current → i = 0 ∧ t.hi = 0x90000 := by
    intro i t ht hne
    rcases CtxSys.switch_tasks rfl ht with ⟨hi, -⟩ | ⟨hi, rfl⟩ | ⟨hi, ht⟩
    · exact absurd hi hne
    · exact ⟨hi, rfl⟩
    · rcases CtxSys.spawn_tasks ht with ⟨hi', -⟩ | ⟨-, ht⟩
      · exact absurd hi' hne
      · exact absurd (CtxSys.boot_tasks ht).1 hi
  refine inTask_run.compute taskCpu (fun i t ht hne a ha => ?_)
  obtain ⟨rfl, hhi⟩ := hboot i t ht hne
  have hslot : tinyCtx.espAt 0 = 0x20000 := rfl
  have hlt : a < 0x200F00 := by
    rw [CtxSys.Kept, hhi, hslot] at ha
    omega
  have hmem : taskCpu.mem = (inTask.cpu.mem.setWord 0x200F00 0x2006C).setWord 0x200F04 0x8FEE8 := rfl
  rw [hmem, Mem.sameOff_setWord _ _ _ a (by omega), Mem.sameOff_setWord _ _ _ a (by omega)]

/-- The spawned task switches back: the boot task goes on behind its call, with its registers. -/
theorem ctxRun_resumes_boot : ∃ s t, CtxRun tinyCtx s ∧ s.Calls tinyCtx 0 ∧ s.tasks 0 = some t ∧
    t.state = .called afterSpawn.cpu 0x12000 ∧ t.Resumes tinyCtx (s.switch 0 0x12000 t) := by
  have hcalls : CtxSys.Calls tinyCtx { inTask with cpu := taskCpu } 0 := by
    refine ⟨by decide, by decide, by decide +kernel, by decide +kernel, fun t ht => ?_⟩
    cases ht
    decide
  exact ⟨_, _, taskCpu_run, hcalls, rfl, rfl, ctxRun_resumes taskCpu_run 0x12000 hcalls rfl⟩

end OctoOS
