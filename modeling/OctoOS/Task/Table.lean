import OctoOS.Task
import OctoOS.Elf.Load
import OctoOS.File.Isolation
import OctoOS.Paging.Isolation

set_option autoImplicit false

/-! # The task table and what the tasks hold

A non-free slot of the table besides the shell's stands for a process, which owns an address space
and a kernel stack. `Kernel.Inv` keeps the list of the processes beside the state: the table shows
them, the frames are the kernel's directory and theirs, the heap blocks that no file holds are those
of before and their stacks, every open file is one of theirs, and the registers are those of the
current task. Each function of `task.c` has one lemma that says how the list changes. -/

namespace OctoOS

open Atomic Tiling

/-- A process: its slot, its address space and the block of its kernel stack. -/
structure Proc where
  slot : ℕ
  space : Space
  stack : Blk

/-- The entry of a process in the table. -/
structure Proc.IsTask (p : Proc) (t : Task) : Prop where
  pgdir : t.pgdir = p.space.dir
  cr3 : t.cr3 = p.space.dir
  kstack : t.kstack = p.stack.addr + blockHeader
  size : kstackSize ≤ p.stack.size

/-- The entry of the shell. -/
structure Task.IsShell (kdir : ℕ) (t : Task) : Prop where
  state : t.state = .ready
  kstack : t.kstack = 0
  pgdir : t.pgdir = 0
  cr3 : t.cr3 = kdir

/-- The table shows the shell and the processes `ps`. -/
structure Table (kdir : ℕ) (tasks : ℕ → Task) (ps : List Proc) : Prop where
  shell : (tasks 0).IsShell kdir
  slot : ∀ p ∈ ps, p.slot ≠ 0 ∧ p.slot < maxTasks ∧ p.IsTask (tasks p.slot)
  nodup : (ps.map Proc.slot).Nodup
  live : ∀ i < maxTasks, i ≠ 0 → ((tasks i).state ≠ .free ↔ i ∈ ps.map Proc.slot)

/-- The allocated frames are the kernel's directory and those of the processes; on a machine
    without frames there are no processes. -/
inductive Pages (kdir : ℕ) (phys0 : Phys) (ps : List Proc) (phys : Phys) : Prop where
  | held : PagingInv kdir [] [] phys0 → PagingInv kdir [] (ps.map Proc.space) phys →
      Pages kdir phys0 ps phys
  | none : phys0.count = 0 → ps = [] → phys = phys0 → Pages kdir phys0 ps phys

/-- The live blocks of before, and the kernel stacks. -/
def OrStack (l0 : List Blk) (ps : List Proc) (b : Blk) : Prop :=
  b ∈ usedOf l0 ∨ b ∈ ps.map Proc.stack

/-- The live heap blocks are those of before, the kernel stacks and the buffers of the open files,
    each for itself. -/
structure Stacks (l0 : List Blk) (ps : List Proc) (files : FileSys) (l : List Blk) : Prop where
  blocks : files.fat.heap.blocks = some l
  owns : Owns files.files l (OrStack l0 ps)
  nodup : (ps.map Proc.stack).Nodup
  fresh : ∀ p ∈ ps, p.stack ∉ usedOf l0

/-- The registers are those of the current task. -/
structure Kernel.OnCpu (s : Kernel) : Prop where
  lt : s.current < maxTasks
  cr3 : s.cr3 = (s.tasks s.current).cr3
  esp0 : (s.tasks s.current).kstack ≠ 0 → s.esp0 = w32 ((s.tasks s.current).kstack + kstackSize)

/-- What the kernel keeps at all times, with the processes `ps`. -/
structure Kernel.Keeps (kdir : ℕ) (phys0 : Phys) (l0 : List Blk) (s : Kernel) (ps : List Proc) :
    Prop where
  table : Table kdir s.tasks ps
  cpu : s.OnCpu
  pages : Pages kdir phys0 ps s.phys
  kstacks : ∃ l, Stacks l0 ps s.files l
  owners : ∀ i < maxFiles, (s.files.files i).used ≠ 0 →
    ∃ p ∈ ps, (s.tasks p.slot).pid = (s.files.files i).pid

/-- What holds between two events. -/
structure Kernel.Inv (kdir : ℕ) (phys0 : Phys) (l0 : List Blk) (s : Kernel) (ps : List Proc) : Prop
    extends s.Keeps kdir phys0 l0 ps where
  running : (s.tasks s.current).state = .ready

/-! ## The table -/

namespace Table

variable {kdir : ℕ} {tasks : ℕ → Task} {ps ps' : List Proc} {i : ℕ} {t : Task} {p : Proc}

theorem perm (h : Table kdir tasks ps) (hp : ps.Perm ps') : Table kdir tasks ps' where
  shell := h.shell
  slot q hq := h.slot q (hp.mem_iff.2 hq)
  nodup := (hp.map Proc.slot).nodup_iff.1 h.nodup
  live i hi h0 := (h.live i hi h0).trans (hp.map Proc.slot).mem_iff

/-- The process of a slot. -/
theorem exists_proc (h : Table kdir tasks ps) (hi : i < maxTasks) (h0 : i ≠ 0)
    (hlive : (tasks i).state ≠ .free) : ∃ p ∈ ps, p.slot = i :=
  List.mem_map.1 ((h.live i hi h0).1 hlive)

/-- A task changes without giving anything up. -/
theorem edited (h : Table kdir tasks ps) (hlive : (tasks i).state ≠ .free) (hstate : t.state ≠ .free)
    (hshell : i = 0 → t.state = .ready) (hpgdir : t.pgdir = (tasks i).pgdir)
    (hcr3 : t.cr3 = (tasks i).cr3) (hkstack : t.kstack = (tasks i).kstack) :
    Table kdir (Function.update tasks i t) ps := by
  have hold : ∀ {j}, j ≠ i → Function.update tasks i t j = tasks j := fun hj =>
    Function.update_of_ne hj _ _
  refine ⟨?_, fun p hp => ?_, h.nodup, fun j hj h0 => ?_⟩
  · by_cases h0 : (0 : ℕ) = i
    · subst h0
      rw [Function.update_self]
      exact ⟨hshell rfl, hkstack.trans h.shell.kstack, hpgdir.trans h.shell.pgdir,
        hcr3.trans h.shell.cr3⟩
    · rw [hold h0]
      exact h.shell
  · obtain ⟨hne, hlt, hp⟩ := h.slot p hp
    refine ⟨hne, hlt, ?_⟩
    by_cases hpi : p.slot = i
    · subst hpi
      rw [Function.update_self]
      exact ⟨hpgdir.trans hp.pgdir, hcr3.trans hp.cr3, hkstack.trans hp.kstack, hp.size⟩
    · rw [hold hpi]
      exact hp
  · rw [← h.live j hj h0]
    by_cases hji : j = i
    · subst hji
      rw [Function.update_self]
      exact iff_of_true hstate hlive
    · rw [hold hji]

/-- A process takes a free slot. -/
theorem started (h : Table kdir tasks ps) (hfree : (tasks p.slot).state = .free)
    (hlt : p.slot < maxTasks) (ht : p.IsTask t) (hstate : t.state = .ready) :
    Table kdir (Function.update tasks p.slot t) (p :: ps) := by
  have h0 : p.slot ≠ 0 := by
    intro h0
    rw [h0, h.shell.state] at hfree
    cases hfree
  have hnew : p.slot ∉ ps.map Proc.slot := fun hin => (h.live _ hlt h0).2 hin hfree
  refine ⟨?_, fun q hq => ?_, List.nodup_cons.2 ⟨hnew, h.nodup⟩, fun j hj hj0 => ?_⟩
  · rw [Function.update_of_ne h0.symm]
    exact h.shell
  · rcases List.mem_cons.1 hq with rfl | hq
    · rw [Function.update_self]
      exact ⟨h0, hlt, ht⟩
    · rw [Function.update_of_ne (fun heq : q.slot = p.slot => hnew (heq ▸ List.mem_map_of_mem hq))]
      exact h.slot q hq
  · rw [List.map_cons, List.mem_cons]
    by_cases hji : j = p.slot
    · subst hji
      rw [Function.update_self, hstate]
      simp
    · rw [Function.update_of_ne hji, h.live j hj hj0]
      simp [hji]

/-- The slot of a process becomes free. -/
theorem freed (h : Table kdir tasks (p :: ps)) :
    Table kdir (Function.update tasks p.slot Task.zero) ps := by
  obtain ⟨h0, hlt, -⟩ := h.slot p (List.mem_cons_self ..)
  obtain ⟨hnew, hnodup⟩ := List.nodup_cons.1 h.nodup
  refine ⟨?_, fun q hq => ?_, hnodup, fun j hj hj0 => ?_⟩
  · rw [Function.update_of_ne h0.symm]
    exact h.shell
  · rw [Function.update_of_ne (fun heq : q.slot = p.slot => hnew (heq ▸ List.mem_map_of_mem hq))]
    exact h.slot q (List.mem_cons_of_mem _ hq)
  · by_cases hji : j = p.slot
    · subst hji
      rw [Function.update_self]
      exact iff_of_false (fun hne => hne rfl) hnew
    · rw [Function.update_of_ne hji, h.live j hj hj0, List.map_cons, List.mem_cons]
      simp [hji]

end Table

/-! ## The scheduler -/

section Schedule

variable {kdir : ℕ} {s : Kernel} {ps : List Proc}

/-- The search passes every slot. -/
theorem nextReady_isSome {tasks : ℕ → Task} (h : (tasks 0).state = .ready) {c : ℕ} (hc : c < maxTasks) :
    (nextReady tasks c).isSome = true := by
  rw [nextReady, List.find?_isSome]
  refine ⟨0, List.mem_map.2 ⟨maxTasks - c, List.mem_range'_1.2 ⟨by omega, by omega⟩, ?_⟩,
    by simp [h]⟩
  rw [Nat.add_sub_cancel' hc.le, Nat.mod_self]

/-- `schedule` stays with a ready task, or it switches to one. -/
theorem schedule_cases (hshell : (s.tasks 0).state = .ready) (hlt : s.current < maxTasks) (esp : ℕ) :
    (schedule esp s = s ∧ (s.tasks s.current).state = .ready) ∨
    ∃ next < maxTasks, next ≠ s.current ∧ (s.tasks next).state = .ready ∧
      schedule esp s = switchTo next esp s := by
  obtain ⟨next, hnext⟩ := Option.isSome_iff_exists.1 (nextReady_isSome hshell hlt)
  have hfound := hnext
  rw [nextReady] at hfound
  have hready : (s.tasks next).state = .ready := by simpa using List.find?_some hfound
  obtain ⟨k, -, hk⟩ := List.mem_map.1 (List.mem_of_find?_eq_some hfound)
  have hbound : next < maxTasks := by
    rw [← hk]
    exact Nat.mod_lt _ (by decide)
  unfold schedule
  rw [hnext, Option.getD_some]
  by_cases heq : next = s.current
  · rw [if_pos heq]
    exact Or.inl ⟨rfl, heq ▸ hready⟩
  · rw [if_neg heq]
    exact Or.inr ⟨next, hbound, heq, hready, rfl⟩

/-- Afterwards the registers are those of a ready task. -/
theorem schedule_onCpu (ht : Table kdir s.tasks ps) (hc : s.OnCpu) (esp : ℕ) :
    (schedule esp s).OnCpu ∧ ((schedule esp s).tasks (schedule esp s).current).state = .ready := by
  rcases schedule_cases ht.shell.state hc.lt esp with ⟨heq, hready⟩ | ⟨next, hlt, hne, hready, heq⟩
  · rw [heq]
    exact ⟨hc, hready⟩
  · have htask : (switchTo next esp s).tasks (switchTo next esp s).current = s.tasks next :=
      Function.update_of_ne hne _ _
    rw [heq]
    refine ⟨⟨hlt, ?_, ?_⟩, by rw [htask]; exact hready⟩
    · -- CR3 is loaded only when it differs
      rw [htask]
      by_cases hcr3 : (s.tasks next).cr3 = (s.tasks s.current).cr3
      · exact (if_neg (not_not.2 hcr3)).trans (hc.cr3.trans hcr3.symm)
      · exact if_pos hcr3
    · rw [htask]
      exact fun hk => if_pos hk

theorem schedule_task (esp : ℕ) (s : Kernel) (i : ℕ) :
    ∃ e, (schedule esp s).tasks i = { s.tasks i with esp := e } := by
  unfold schedule
  simp only
  split_ifs with hnext
  · exact ⟨_, rfl⟩
  · by_cases hi : i = s.current
    · subst hi
      exact ⟨esp, Function.update_self ..⟩
    · exact ⟨_, Function.update_of_ne hi _ _⟩

@[simp] theorem schedule_phys (esp : ℕ) (s : Kernel) : (schedule esp s).phys = s.phys := by
  unfold schedule
  simp only
  split_ifs <;> rfl

@[simp] theorem schedule_files (esp : ℕ) (s : Kernel) : (schedule esp s).files = s.files := by
  unfold schedule
  simp only
  split_ifs <;> rfl

@[simp] theorem schedule_nextPid (esp : ℕ) (s : Kernel) : (schedule esp s).nextPid = s.nextPid := by
  unfold schedule
  simp only
  split_ifs <;> rfl

end Schedule

/-! ## What an event does to the table -/

/-- An event starts one task, or every task that is there after it was there before. -/
inductive TaskChange (s s' : Kernel) : Prop where
  | kept : s'.nextPid = s.nextPid → (∀ i, (s'.tasks i).state ≠ .free →
      (s.tasks i).state ≠ .free ∧ (s'.tasks i).pid = (s.tasks i).pid) → TaskChange s s'
  | started (i : ℕ) (t : Task) : s'.tasks = Function.update s.tasks i t → t.pid = s.nextPid →
      s'.nextPid = w32 (s.nextPid + 1) → TaskChange s s'

section Events

variable {kdir : ℕ} {phys0 : Phys} {l0 l l' : List Blk} {s s' : Kernel} {ps ps' : List Proc}
  {p : Proc} {files : FileSys} {phys : Phys}

theorem Pages.perm (h : Pages kdir phys0 ps phys) (hp : ps.Perm ps') :
    Pages kdir phys0 ps' phys := by
  cases h with
  | held h0 h => exact .held h0 (h.perm (List.Perm.refl _) (hp.map Proc.space))
  | none hcount hps hphys => exact .none hcount (List.perm_nil.1 (hps ▸ hp.symm)) hphys

/-- The allocated frames. -/
theorem Pages.mem_frames (h : Pages kdir phys0 ps phys) (f : ℕ) :
    f ∈ phys.frames ↔ f ∈ phys0.frames ∨ ∃ p ∈ ps, f ∈ p.space.frames := by
  cases h with
  | held h0 h =>
    rw [h.owned.mem_iff, h0.owned.mem_iff]
    simp [List.mem_flatMap]
  | none _ hps hphys =>
    subst hps hphys
    simp

theorem OrStack.perm (hp : ps.Perm ps') (b : Blk) : OrStack l0 ps' b ↔ OrStack l0 ps b :=
  or_congr Iff.rfl (hp.map Proc.stack).mem_iff.symm

theorem Stacks.perm (h : Stacks l0 ps files l) (hp : ps.Perm ps') : Stacks l0 ps' files l where
  blocks := h.blocks
  owns := h.owns.base_congr (OrStack.perm hp)
  nodup := (hp.map Proc.stack).nodup_iff.1 h.nodup
  fresh q hq := h.fresh q (hp.mem_iff.2 hq)

/-- A block is handed out for the stack of a new process. -/
theorem Stacks.granted {files' : FileSys} (h : Stacks l0 ps files l) (hg : Granted l p.stack l')
    (hblocks : files'.fat.heap.blocks = some l') (hfiles : files'.files = files.files) :
    Stacks l0 (p :: ps) files' l' := by
  have hnew : ¬ OrStack l0 ps p.stack := fun hin => hg.fresh _ (h.owns.kept _ hin) rfl
  refine ⟨hblocks, ?_, List.nodup_cons.2 ⟨fun hin => hnew (Or.inr hin), h.nodup⟩, fun q hq => ?_⟩
  · rw [hfiles]
    refine (h.owns.granted hg).base_congr (fun c => ?_)
    unfold OrStack
    rw [List.map_cons, List.mem_cons]
    tauto
  · rcases List.mem_cons.1 hq with rfl | hq
    · exact fun hin => hnew (Or.inl hin)
    · exact h.fresh q hq

/-- The stack of a process is freed. -/
theorem Stacks.released (h : Stacks l0 (p :: ps) files l) :
    ∃ heap, files.fat.heap.kfree (p.stack.addr + blockHeader) = .ok heap ∧
      ∃ l', Stacks l0 ps { files with fat := { files.fat with heap := heap } } l' := by
  have hstack : OrStack l0 (p :: ps) p.stack := Or.inr (List.mem_cons_self ..)
  obtain ⟨heap, hfree, hblocks⟩ := Heap.kfree_blocks h.blocks (h.owns.kept _ hstack)
  obtain ⟨hnew, hnodup⟩ := List.nodup_cons.1 h.nodup
  refine ⟨heap, hfree, _, hblocks, ?_, hnodup, fun q hq => h.fresh q (List.mem_cons_of_mem _ hq)⟩
  refine (h.owns.released (Heap.blockList_of_blocks h.blocks) hstack).base_congr (fun c => ?_)
  have hfresh := h.fresh p (List.mem_cons_self ..)
  unfold OrStack
  rw [List.map_cons, List.mem_cons]
  constructor
  · rintro (hc | hc)
    · exact ⟨Or.inl hc, fun heq => hfresh (heq ▸ hc)⟩
    · exact ⟨Or.inr (Or.inr hc), fun heq => hnew (heq ▸ hc)⟩
  · rintro ⟨hc | hc | hc, hne⟩
    · exact Or.inl hc
    · exact absurd hc hne
    · exact Or.inr hc

theorem Kernel.Inv.perm (h : s.Inv kdir phys0 l0 ps) (hp : ps.Perm ps') : s.Inv kdir phys0 l0 ps' := by
  obtain ⟨l, hl⟩ := h.kstacks
  refine ⟨⟨h.table.perm hp, h.cpu, h.pages.perm hp, ⟨l, hl.perm hp⟩, fun i hi hu => ?_⟩, h.running⟩
  obtain ⟨q, hq, hpid⟩ := h.owners i hi hu
  exact ⟨q, hp.mem_iff.1 hq, hpid⟩

/-- Other frames and files with the same owners. -/
theorem Kernel.Inv.with_mem (h : s.Inv kdir phys0 l0 ps) (hpages : Pages kdir phys0 ps phys)
    (hstacks : Stacks l0 ps files l)
    (howners : ∀ i < maxFiles, (files.files i).used ≠ 0 →
      ∃ p ∈ ps, (s.tasks p.slot).pid = (files.files i).pid) :
    Kernel.Inv kdir phys0 l0 { s with phys := phys, files := files } ps :=
  ⟨⟨h.table, ⟨h.cpu.lt, h.cpu.cr3, h.cpu.esp0⟩, hpages, ⟨l, hstacks⟩, howners⟩, h.running⟩

/-! ## `schedule` and `task_exit` -/

theorem Kernel.Keeps.schedule (h : s.Keeps kdir phys0 l0 ps)
    (hlive : (s.tasks s.current).state ≠ .free) (esp : ℕ) :
    (schedule esp s).Inv kdir phys0 l0 ps := by
  obtain ⟨hcpu, hready⟩ := schedule_onCpu h.table h.cpu esp
  refine ⟨⟨?_, hcpu, ?_, ?_, ?_⟩, hready⟩
  · rcases schedule_cases h.table.shell.state h.cpu.lt esp with ⟨heq, -⟩ | ⟨next, -, -, -, heq⟩
    · rw [heq]
      exact h.table
    · rw [heq]
      refine h.table.edited hlive hlive (fun h0 => ?_) rfl rfl rfl
      simp only
      rw [h0]
      exact h.table.shell.state
  · rw [schedule_phys]
    exact h.pages
  · rw [schedule_files]
    exact h.kstacks
  · rw [schedule_files]
    intro i hi hu
    obtain ⟨q, hq, hpid⟩ := h.owners i hi hu
    obtain ⟨e, he⟩ := schedule_task esp s q.slot
    exact ⟨q, hq, by rw [he]; exact hpid⟩

theorem schedule_change (esp : ℕ) (s : Kernel) : TaskChange s (schedule esp s) := by
  refine .kept (schedule_nextPid esp s) (fun i hi => ?_)
  obtain ⟨e, he⟩ := schedule_task esp s i
  rw [he] at hi ⊢
  exact ⟨hi, rfl⟩

theorem markZombie_current (code : Int) (s : Kernel) : (markZombie code s).tasks s.current
    = { s.tasks s.current with exitCode := code, state := .zombie } := Function.update_self ..

theorem markZombie_of_ne (code : Int) {i : ℕ} (hi : i ≠ s.current) :
    (markZombie code s).tasks i = s.tasks i := Function.update_of_ne hi _ _

section

variable (h : s.Inv kdir phys0 l0 ps) (h0 : s.current ≠ 0) (code : Int)

include h h0 code

theorem Kernel.Inv.markZombie : (markZombie code s).Keeps kdir phys0 l0 ps := by
  have hlive : (s.tasks s.current).state ≠ .free := by
    rw [h.running]
    decide
  have hcur := markZombie_current code s
  refine ⟨h.table.edited hlive (by simp) (fun h0' => absurd h0' h0) rfl rfl rfl, ⟨h.cpu.lt, ?_, ?_⟩,
    h.pages, h.kstacks, fun i hi hu => ?_⟩
  · exact h.cpu.cr3.trans (congrArg Task.cr3 hcur).symm
  · have hk : ((OctoOS.markZombie code s).tasks s.current).kstack = (s.tasks s.current).kstack := by
      rw [hcur]
    intro hne
    exact (h.cpu.esp0 (fun hz => hne (hk.trans hz))).trans
      (congrArg (fun k => w32 (k + kstackSize)) hk.symm)
  · obtain ⟨q, hq, hpid⟩ := h.owners i hi hu
    refine ⟨q, hq, Eq.trans ?_ hpid⟩
    by_cases hqs : q.slot = s.current
    · rw [hqs, hcur]
    · rw [markZombie_of_ne code hqs]

theorem Kernel.Inv.exit (esp : ℕ) : (taskExit code esp s).Inv kdir phys0 l0 ps := by
  have hstate := congrArg Task.state (markZombie_current code s)
  refine (h.markZombie h0 code).schedule (fun hfree => ?_) esp
  cases hstate.symm.trans hfree

/-- `task_exit` leaves the task for another one that is ready. -/
theorem Kernel.Inv.exit_switches (esp : ℕ) : (taskExit code esp s).current ≠ s.current ∧
      (s.tasks (taskExit code esp s).current).state = .ready := by
  have hk := h.markZombie h0 code
  rw [taskExit]
  rcases schedule_cases hk.table.shell.state hk.cpu.lt esp with ⟨-, hready⟩ |
    ⟨next, -, hne, hready, heq⟩
  · have hstate := congrArg Task.state (markZombie_current code s)
    cases hstate.symm.trans hready
  · rw [heq]
    have hold : (OctoOS.markZombie code s).tasks next = s.tasks next := markZombie_of_ne code hne
    rw [hold] at hready
    exact ⟨hne, hready⟩

end

theorem taskExit_change (code : Int) (esp : ℕ) (hlive : (s.tasks s.current).state ≠ .free) :
    TaskChange s (taskExit code esp s) := by
  refine .kept (schedule_nextPid ..) (fun i hi => ?_)
  obtain ⟨e, he⟩ := schedule_task esp (markZombie code s) i
  rw [taskExit, he] at hi ⊢
  by_cases hcur : i = s.current
  · subst hcur
    rw [markZombie_current]
    exact ⟨hlive, rfl⟩
  · rw [markZombie_of_ne code hcur] at hi ⊢
    exact ⟨hi, rfl⟩

end Events

end OctoOS
