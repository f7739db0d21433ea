import OctoOS.Task.Table
import OctoOS.Elf.Image

set_option autoImplicit false

/-! # From `task_spawn_user` to `task_reap`

`task_spawn_user` either adds a process to the list or undoes everything it did; `task_reap` takes a
process off the list. With the lemmas about `schedule` this gives the invariant in every state that
is reached from `task_init`. -/

namespace OctoOS

open Atomic Tiling

section Events

variable {fs : Fs} {fails : Faults} {kdir userEntryAddr : ℕ} {phys0 : Phys}
  {l0 l l' : List Blk} {s s' : Kernel} {ps ps' : List Proc} {p : Proc} {phys : Phys}

/-! ## `task_spawn_user` -/

/-- The same frames are allocated and the same heap blocks are live. -/
structure Kernel.SameHeld (s s' : Kernel) : Prop where
  frames : ∀ f, f ∈ s'.phys.frames ↔ f ∈ s.phys.frames
  blocks : ∃ l l', s.files.fat.heap.blocks = some l ∧ s'.files.fat.heap.blocks = some l' ∧
    ∀ b, b ∈ usedOf l' ↔ b ∈ usedOf l

/-- A spawn that fails, as if it had not been called. -/
structure SpawnFailed (s : Kernel) (r : Int) (s' : Kernel) : Prop where
  result : r = -1
  tasks : s'.tasks = s.tasks
  nextPid : s'.nextPid = s.nextPid
  held : s.SameHeld s'
  files : s'.files.files = s.files.files

/-- A spawn that makes the task `t` in the slot `i`. -/
structure Spawned (s : Kernel) (r : Int) (s' : Kernel) (i : ℕ) (t : Task) : Prop where
  result : r = toInt32 s.nextPid
  slot : i < maxTasks
  free : (s.tasks i).state = .free
  tasks : s'.tasks = Function.update s.tasks i t
  ready : t.state = .ready
  pid : t.pid = s.nextPid
  nextPid : s'.nextPid = w32 (s.nextPid + 1)
  files : s'.files.files = s.files.files

theorem freeTask_eq_some {tasks : ℕ → Task} {i : ℕ} (h : freeTask tasks = some i) :
    i < maxTasks ∧ (tasks i).state = .free := by
  rw [freeTask] at h
  exact ⟨List.mem_range.1 (List.mem_of_find?_eq_some h), by simpa using List.find?_some h⟩

/-- Without frames there is no address space. -/
theorem pagingNewUser_of_count (h : phys.count = 0) : pagingNewUser kdir phys = (0, phys) := by
  have halloc : frameAlloc phys = (0, phys) := by
    rw [frameAlloc, h]
    rfl
  rw [pagingNewUser, halloc]
  rfl

/-- `paging_new_user` for a process that is not in the table yet. -/
theorem Pages.newUser (h : Pages kdir phys0 ps phys) :
    (∃ phys', pagingNewUser kdir phys = (0, phys') ∧ Pages kdir phys0 ps phys') ∨
    ∃ sp phys', pagingNewUser kdir phys = (sp.dir, phys') ∧ sp.dir ≠ 0 ∧ PagingInv kdir [] [] phys0 ∧
      PagingInv kdir [] (sp :: ps.map Proc.space) phys' := by
  cases h with
  | none hcount hps hphys =>
    subst hphys
    exact Or.inl ⟨_, pagingNewUser_of_count hcount, .none hcount hps rfl⟩
  | held h0 h =>
    rcases pagingNewUser_inv h with ⟨phys', heq, h'⟩ | ⟨sp, phys', heq, h', -, -⟩
    · exact Or.inl ⟨phys', heq, .held h0 h'⟩
    · have hpos := (h'.ok.frame (h'.mem_space (List.mem_cons_self ..) (List.mem_cons_self ..))).2.1
      exact Or.inr ⟨sp, phys', heq, by omega, h0, h'⟩

/-- What a failing exit of `task_spawn_user` leaves, with the text it prints. -/
theorem Kernel.Inv.spawnFailed (h : s.Inv kdir phys0 l0 ps) {heap : Heap} (text : Bytes)
    (hpages : Pages kdir phys0 ps phys) (hheap : heap.blocks = s.files.fat.heap.blocks) :
    SpawnFailed s (-1) (Kernel.puts text { s with
        phys := phys, files := { s.files with fat := { s.files.fat with heap := heap } } }) ∧
      Kernel.Inv kdir phys0 l0 (Kernel.puts text { s with
        phys := phys, files := { s.files with fat := { s.files.fat with heap := heap } } }) ps := by
  obtain ⟨l, hl⟩ := h.kstacks
  refine ⟨⟨rfl, rfl, rfl, ⟨fun f => ?_, l, l, hl.blocks, hheap.trans hl.blocks, fun b => Iff.rfl⟩, rfl⟩,
    ?_⟩
  · exact (hpages.mem_frames f).trans (h.pages.mem_frames f).symm
  · exact h.with_mem hpages ⟨hheap.trans hl.blocks, hl.owns, hl.nodup, hl.fresh⟩ h.owners

/-- A process takes a free slot. -/
theorem Kernel.Inv.started (h : s.Inv kdir phys0 l0 ps) {t : Task} {n : ℕ} {files : FileSys}
    (hlt : p.slot < maxTasks) (hfree : (s.tasks p.slot).state = .free) (ht : p.IsTask t)
    (hstate : t.state = .ready) (hpages : Pages kdir phys0 (p :: ps) phys)
    (hstacks : Stacks l0 (p :: ps) files l) (hfiles : files.files = s.files.files) :
    Kernel.Inv kdir phys0 l0 { s with
      tasks := Function.update s.tasks p.slot t, nextPid := n, phys := phys, files := files }
      (p :: ps) := by
  have hcur : s.current ≠ p.slot := by
    intro heq
    rw [← heq, h.running] at hfree
    cases hfree
  have hold : Function.update s.tasks p.slot t s.current = s.tasks s.current :=
    Function.update_of_ne hcur _ _
  refine ⟨⟨h.table.started hfree hlt ht hstate, ⟨h.cpu.lt, ?_, ?_⟩, hpages, ⟨l, hstacks⟩,
    fun i hi hu => ?_⟩, ?_⟩
  · simp only [hold]
    exact h.cpu.cr3
  · simp only [hold]
    exact h.cpu.esp0
  · simp only [hfiles] at hu ⊢
    obtain ⟨q, hq, hpid⟩ := h.owners i hi hu
    obtain ⟨h0, hqlt, -⟩ := h.table.slot q hq
    have hqp : q.slot ≠ p.slot := by
      intro heq
      rw [← heq] at hfree
      exact (h.table.live _ hqlt h0).2 (List.mem_map_of_mem hq) hfree
    exact ⟨q, List.mem_cons_of_mem _ hq, by rw [Function.update_of_ne hqp]; exact hpid⟩
  · simp only [hold]
    exact h.running

/-- **`task_spawn_user` ends**, and fails without a trace or starts one process. -/
theorem taskSpawnUser_ends (userEntryAddr : ℕ) (h : s.Inv kdir phys0 l0 ps) (name : Bytes)
    (image : ℕ → UInt8) (size : ℕ) (args : Bytes) :
    ∃ r s', taskSpawnUser kdir userEntryAddr name image size args s = .ok (r, s') ∧
      ((SpawnFailed s r s' ∧ s'.Inv kdir phys0 l0 ps) ∨
        ∃ p t, Spawned s r s' p.slot t ∧ s'.Inv kdir phys0 l0 (p :: ps)) := by
  obtain ⟨l, hl⟩ := h.kstacks
  unfold taskSpawnUser
  cases hslot : freeTask s.tasks with
  | none => exact ⟨_, _, rfl, Or.inl (h.spawnFailed _ h.pages rfl)⟩
  | some slot =>
    obtain ⟨hlt, hfree⟩ := freeTask_eq_some hslot
    rcases h.pages.newUser with ⟨phys, heq, hpages⟩ | ⟨sp, phys, heq, hne, h0, hinv⟩
    · simp only [heq, if_true]
      exact ⟨_, _, rfl, Or.inl (h.spawnFailed _ hpages rfl)⟩
    obtain ⟨r, phys', hrun, sp', hgrown, -⟩ := elfLoad_ends image size hinv
    -- a failure after this point gives all frames of the address space back
    have hundo : Pages kdir phys0 ps (pagingDestroyUser sp.dir phys') := by
      rw [← hgrown.dir]
      exact .held h0 (freeUserPages_inv hgrown.inv)
    simp only [heq, if_neg hne, hrun]
    cases r with
    | none => exact ⟨_, _, rfl, Or.inl (h.spawnFailed _ hundo rfl)⟩
    | some entry =>
      obtain ⟨heap, hres, hblocks⟩ := Heap.kmalloc_blocks hl.blocks kstackSize
      simp only [hres]
      by_cases hnull : (kmallocBlocks kstackSize l).1 = 0
      · rw [if_pos hnull]
        rw [kmallocBlocks_null hnull, ← hl.blocks] at hblocks
        exact ⟨_, _, rfl, Or.inl (h.spawnFailed _ hundo hblocks)⟩
      · rw [if_neg hnull]
        obtain ⟨b, hptr, hsize, hg⟩ :=
          kmallocBlocks_granted (Heap.blockList_of_blocks hl.blocks) hnull
        have hstacks : Stacks l0 (⟨slot, sp', b⟩ :: ps)
            (startTask userEntryAddr slot sp.dir entry (kmallocBlocks kstackSize l).1 name args { s with
              phys := phys', files := { s.files with fat := { s.files.fat with heap := heap } } }).2.files
            (kmallocBlocks kstackSize l).2 := hl.granted hg hblocks rfl
        have hpages : Pages kdir phys0 (⟨slot, sp', b⟩ :: ps) phys' := .held h0 hgrown.inv
        refine ⟨_, _, rfl, Or.inr ⟨⟨slot, sp', b⟩, _, ⟨rfl, hlt, hfree, rfl, rfl, rfl, rfl, rfl⟩, ?_⟩⟩
        refine h.started hlt hfree ⟨hgrown.dir.symm, hgrown.dir.symm, hptr, ?_⟩ rfl hpages hstacks rfl
        exact le_trans (by decide) hsize

/-! ## `task_reap` -/

/-- What `file_close_all` leaves, with the blocks `base` of others. -/
structure ClosedAll (pid : ℕ) (s s' : FileSys) (base : Blk → Prop) : Prop where
  owns : ∃ l, s'.fat.heap.blocks = some l ∧ Owns s'.files l base
  kept : ∀ j, s'.files j = s.files j ∨ (s'.files j).used = 0
  none : ∀ j < maxFiles, (s'.files j).used ≠ 0 → (s'.files j).pid ≠ pid

/-- The process `p` is gone when its files are closed and its memory is given back. -/
theorem Kernel.Inv.reaped (h : s.Inv kdir phys0 l0 (p :: ps)) (hcur : s.current = 0) {files : FileSys}
    (hfiles : ClosedAll (s.tasks p.slot).pid s.files files (OrStack l0 (p :: ps))) :
    ∃ heap, files.fat.heap.kfree (s.tasks p.slot).kstack = .ok heap ∧
      Kernel.Inv kdir phys0 l0 { s with
        tasks := Function.update s.tasks p.slot Task.zero
        phys := pagingDestroyUser (s.tasks p.slot).pgdir s.phys
        files := { files with fat := { files.fat with heap := heap } } } ps := by
  obtain ⟨h0, -, htask⟩ := h.table.slot p (List.mem_cons_self ..)
  obtain ⟨l, hl⟩ := h.kstacks
  obtain ⟨l', hblocks, howns⟩ := hfiles.owns
  have hclosed : Stacks l0 (p :: ps) files l' := ⟨hblocks, howns, hl.nodup, hl.fresh⟩
  obtain ⟨heap, hfree, l'', hstacks⟩ := hclosed.released
  have hpages : Pages kdir phys0 ps (pagingDestroyUser p.space.dir s.phys) := by
    cases h.pages with
    | held h₀ hinv => exact .held h₀ (freeUserPages_inv hinv)
    | none _ hnil _ => exact absurd hnil (List.cons_ne_nil _ _)
  have hold : Function.update s.tasks p.slot Task.zero s.current = s.tasks s.current :=
    Function.update_of_ne (hcur ▸ h0.symm) _ _
  rw [htask.kstack, htask.pgdir]
  refine ⟨heap, hfree, ⟨h.table.freed, ⟨h.cpu.lt, ?_, ?_⟩, hpages, ⟨l'', hstacks⟩, fun j hj hu => ?_⟩, ?_⟩
  · simp only [hold]
    exact h.cpu.cr3
  · simp only [hold]
    exact h.cpu.esp0
  · -- an open file of another process
    have hpid := hfiles.none j hj hu
    have hkept := (hfiles.kept j).resolve_right hu
    simp only [hkept] at hu hpid ⊢
    obtain ⟨q, hq, hqpid⟩ := h.owners j hj hu
    rcases List.mem_cons.1 hq with rfl | hq
    · exact absurd hqpid.symm hpid
    · have hqp : q.slot ≠ p.slot := fun heq =>
        (List.nodup_cons.1 h.table.nodup).1 (heq ▸ List.mem_map_of_mem hq)
      exact ⟨q, hq, by rw [Function.update_of_ne hqp]; exact hqpid⟩
  · simp only [hold]
    exact h.running

/-- A call of `task_spawn_user`. -/
def TaskEvent.isSpawn : TaskEvent → Bool
  | .spawn _ _ _ _ => true
  | _ => false

/-- Where there is a process, the frames are held. -/
theorem Pages.inv (h : Pages kdir phys0 ps phys) (hp : p ∈ ps) :
    PagingInv kdir [] (ps.map Proc.space) phys := by
  cases h with
  | held _ hinv => exact hinv
  | none _ hnil _ => exact absurd (hnil ▸ hp) List.not_mem_nil

/-- The page directory of a process is an allocated frame. -/
theorem Pages.dir_mem (h : Pages kdir phys0 ps phys) (hp : p ∈ ps) : p.space.dir ∈ phys.frames :=
  (h.inv hp).mem_space (List.mem_map_of_mem hp) (List.mem_cons_self ..)

theorem Kernel.Inv.task_ne_zero (h : s.Inv kdir phys0 l0 ps) (hp : p ∈ ps) :
    (s.tasks p.slot).pgdir ≠ 0 ∧ (s.tasks p.slot).kstack ≠ 0 := by
  obtain ⟨-, -, htask⟩ := h.table.slot p hp
  have hpos := ((h.pages.inv hp).ok.frame (h.pages.dir_mem hp)).2.1
  rw [htask.pgdir, htask.kstack]
  unfold blockHeader
  omega

/-- What an event leaves. -/
structure TaskStep (kdir : ℕ) (phys0 : Phys) (l0 : List Blk) (s : Kernel) (e : TaskEvent)
    (s' : Kernel) : Prop where
  inv : ∃ ps, s'.Inv kdir phys0 l0 ps
  change : TaskChange s s'
  spawns : e.isSpawn = false → s'.nextPid = s.nextPid
  files : ∀ j, (s.files.files j).used = 0 → (s'.files.files j).used = 0

theorem taskChange_refl (s : Kernel) : TaskChange s s := .kept rfl (fun _ hi => ⟨hi, rfl⟩)

theorem taskReap_ends (h : s.Inv kdir phys0 l0 ps) (hcur : s.current = 0) {i : ℕ} (hi : i < maxTasks)
    (hclose : (s.tasks i).state = .zombie → ∃ files, fileCloseAll fs fails (s.tasks i).pid s.files
      = .ok files ∧ ClosedAll (s.tasks i).pid s.files files (OrStack l0 ps)) :
    ∃ s', taskReap fs fails i s = .ok s' ∧ TaskStep kdir phys0 l0 s (.reap i) s' := by
  unfold taskReap
  by_cases hz : (s.tasks i).state = .zombie
  · rw [if_neg (not_not.2 hz)]
    have h0 : i ≠ 0 := by
      rintro rfl
      rw [h.table.shell.state] at hz
      cases hz
    obtain ⟨p, hp, rfl⟩ := h.table.exists_proc hi h0 (by rw [hz]; decide)
    obtain ⟨files, hres, hfiles⟩ := hclose hz
    obtain ⟨ps1, ps2, rfl⟩ := List.append_of_mem hp
    have hperm : (ps1 ++ p :: ps2).Perm (p :: (ps1 ++ ps2)) := List.perm_middle
    have hinv := h.perm hperm
    obtain ⟨heap, hfree, hinv'⟩ := hinv.reaped hcur
      ⟨hfiles.owns.imp (fun _ hl => ⟨hl.1, hl.2.base_congr (OrStack.perm hperm)⟩), hfiles.kept,
        hfiles.none⟩
    obtain ⟨hdir, hstack⟩ := h.task_ne_zero hp
    rw [hres, ok_bind, if_pos hdir, if_pos hstack, hfree, ok_bind]
    refine ⟨_, rfl, ⟨_, hinv'⟩, .kept rfl (fun j hj => ?_), fun _ => rfl, fun j hj => ?_⟩
    · by_cases hjp : j = p.slot
      · subst hjp
        exact absurd (by simp only [Function.update_self]; rfl) hj
      · simp only [Function.update_of_ne hjp] at hj ⊢
        exact ⟨hj, trivial⟩
    · rcases hfiles.kept j with hk | hk
      · exact (congrArg File.used hk).trans hj
      · exact hk
  · rw [if_pos hz]
    exact ⟨s, rfl, ⟨ps, h⟩, taskChange_refl s, fun _ => rfl, fun _ hj => hj⟩

/-! ## Stores of a process -/

theorem Kernel.Inv.store (h : s.Inv kdir phys0 l0 ps) (h0 : s.current ≠ 0) {va pa : ℕ}
    (hva : va < 2 ^ 32) (hw : walk true s.phys.mem s.cr3 va = some pa) (b : UInt8) :
    Kernel.Inv kdir phys0 l0
      { s with phys := { s.phys with mem := Function.update s.phys.mem pa b } } ps := by
  obtain ⟨p, hp, hslot⟩ := h.table.exists_proc h.cpu.lt h0 (by rw [h.running]; decide)
  obtain ⟨-, -, htask⟩ := h.table.slot p hp
  obtain ⟨l, hl⟩ := h.kstacks
  rw [h.cpu.cr3, ← hslot, htask.cr3] at hw
  refine h.with_mem ?_ hl h.owners
  cases h.pages with
  | held h₀ hinv => exact .held h₀ (hinv.store (List.mem_map_of_mem hp) hva hw b)
  | none _ hnil _ => exact absurd (hnil ▸ hp) List.not_mem_nil

/-! ## One event -/

/-- The events of `task.c` and the stores in between. -/
def TaskEvent.OfTasks : TaskEvent → Prop
  | .file _ => False
  | _ => True

/-- **Every event but those of `file.c`** ends and keeps the invariant, if `file_close_all` does. -/
theorem TaskEvent.exec_ends (fs : Fs) (fails : Faults) (userEntryAddr : ℕ)
    (h : s.Inv kdir phys0 l0 ps) {e : TaskEvent} (he : e.OfTasks) (hby : e.By s)
    (hclose : ∀ i, e = .reap i → (s.tasks i).state = .zombie →
      ∃ files, fileCloseAll fs fails (s.tasks i).pid s.files = .ok files ∧
        ClosedAll (s.tasks i).pid s.files files (OrStack l0 ps)) :
    ∃ s', e.exec fs fails kdir userEntryAddr s = .ok s' ∧ TaskStep kdir phys0 l0 s e s' := by
  have hlive : (s.tasks s.current).state ≠ .free := by
    rw [h.running]
    decide
  cases e with
  | spawn name image size args =>
    obtain ⟨r, s', hres, hpost⟩ := taskSpawnUser_ends userEntryAddr h name image size args
    refine ⟨s', by rw [TaskEvent.exec, hres]; rfl, ?_⟩
    rcases hpost with ⟨hf, hinv⟩ | ⟨p, t, hs, hinv⟩
    · refine ⟨⟨ps, hinv⟩, .kept hf.nextPid (fun i hi => ?_), fun hne => Bool.noConfusion hne,
        fun j hj => by rw [hf.files]; exact hj⟩
      rw [hf.tasks] at hi ⊢
      exact ⟨hi, rfl⟩
    · exact ⟨⟨_, hinv⟩, .started p.slot t hs.tasks hs.pid hs.nextPid, fun hne => Bool.noConfusion hne,
        fun j hj => by rw [hs.files]; exact hj⟩
  | reap i => exact taskReap_ends h hby.1 hby.2 (hclose i rfl)
  | preempt esp =>
    exact ⟨_, rfl, ⟨ps, h.toKeeps.schedule hlive esp⟩, schedule_change esp s,
      fun _ => schedule_nextPid esp s, fun j hj => by rw [schedule_files]; exact hj⟩
  | exit code esp =>
    exact ⟨_, rfl, ⟨ps, h.exit hby code esp⟩, taskExit_change code esp hlive,
      fun _ => schedule_nextPid .., fun j hj => by rw [taskExit, schedule_files]; exact hj⟩
  | store va b =>
    simp only [TaskEvent.exec]
    cases hw : walk true s.phys.mem s.cr3 va with
    | none => exact ⟨s, rfl, ⟨ps, h⟩, taskChange_refl s, fun _ => rfl, fun _ hj => hj⟩
    | some pa =>
      exact ⟨_, rfl, ⟨ps, h.store hby.1 hby.2 hw b⟩, .kept rfl (fun _ hi => ⟨hi, rfl⟩), fun _ => rfl,
        fun _ hj => hj⟩
  | file r => exact he.elim

end Events

/-! ## From `task_init` on -/

section Run

variable {fs : Fs} {fails : Faults} {kdir userEntryAddr : ℕ} {phys0 phys : Phys}
  {l0 l : List Blk} {s s' : Kernel} {ps : List Proc} {files : FileSys}

/-- After `task_init` there is the shell alone. -/
theorem taskInit_task {i : ℕ} (h0 : i ≠ 0) :
    (taskInit kdir (Kernel.boot kdir phys files)).tasks i = Task.zero := Function.update_of_ne h0 _ _

theorem taskInit_inv {map : List E820Entry} {mem : Mem}
    (hinit : pagingInit (frameInit map mem) = (kdir, phys)) (hkdir : kdir ≠ 0 ∨ phys.count = 0)
    (hfree : ∀ i < maxFiles, (files.files i).used = 0) (hheap : files.fat.heap.blocks = some l0) :
    (taskInit kdir (Kernel.boot kdir phys files)).Inv kdir phys l0 [] := by
  have hpages : Pages kdir phys [] phys := by
    rcases hkdir with hkdir | hcount
    · obtain ⟨l, hinv, hlive⟩ := pagingRun_inv hinit hkdir PagingRun.init
      obtain rfl := List.map_eq_nil_iff.1 (List.perm_nil.1 hlive)
      exact .held hinv hinv
    · exact .none hcount rfl rfl
  have hnone : ∀ {P : Proc → Prop}, ∀ p ∈ ([] : List Proc), P p := fun p hp => absurd hp List.not_mem_nil
  refine ⟨⟨⟨⟨rfl, rfl, rfl, rfl⟩, hnone, List.nodup_nil, fun i hi h0 => ?_⟩,
    ⟨Nat.succ_pos 7, rfl, fun hk => absurd rfl hk⟩, hpages, ⟨l0, hheap, ?_, List.nodup_nil, hnone⟩,
    fun i hi hu => absurd (hfree i hi) hu⟩, rfl⟩
  · rw [taskInit_task h0]
    exact iff_of_false (fun hne => hne rfl) (by simp)
  · exact (Owns.init hfree).base_congr (fun b => by simp [OrStack])

/-- Without an open file `file_close_all` does nothing. -/
theorem fileCloseAll_of_unused (hfree : ∀ i < maxFiles, (files.files i).used = 0) (pid : ℕ) :
    fileCloseAll fs fails pid files = .ok files := by
  have hloop : ∀ n i, i + n ≤ maxFiles → fileCloseAllLoop fs fails pid n i files = .ok files := by
    intro n
    induction n with
    | zero => exact fun i _ => rfl
    | succ n ih =>
      intro i hi
      rw [fileCloseAllLoop, if_neg (fun hu => hu.1 (hfree i (by omega)))]
      exact ih (i + 1) (by omega)
  exact hloop maxFiles 0 (by omega)

/-- The pids in the table are different and have been given out. -/
structure Pids (s : Kernel) : Prop where
  below : ∀ i, (s.tasks i).state ≠ .free → (s.tasks i).pid < s.nextPid
  distinct : ∀ i j, (s.tasks i).state ≠ .free → (s.tasks j).state ≠ .free →
    (s.tasks i).pid = (s.tasks j).pid → i = j

theorem Pids.change (h : Pids s) (hc : TaskChange s s') (hlt : s.nextPid + 1 < 2 ^ 32) : Pids s' := by
  cases hc with
  | kept hnext hold =>
    refine ⟨fun i hi => ?_, fun i j hi hj heq => ?_⟩
    · obtain ⟨hlive, hpid⟩ := hold i hi
      rw [hnext, hpid]
      exact h.below i hlive
    · obtain ⟨hi, hpi⟩ := hold i hi
      obtain ⟨hj, hpj⟩ := hold j hj
      exact h.distinct i j hi hj (hpi.symm.trans (heq.trans hpj))
  | started k t htasks hpid hnext =>
    have hw : s'.nextPid = s.nextPid + 1 := hnext.trans (Nat.mod_eq_of_lt hlt)
    have hself : (s'.tasks k).pid = s.nextPid := by rw [htasks, Function.update_self, hpid]
    have hold : ∀ i, i ≠ k → s'.tasks i = s.tasks i := fun i hik => by
      rw [htasks, Function.update_of_ne hik]
    -- the new pid is above all others
    have hother : ∀ i, i ≠ k → (s'.tasks i).state ≠ .free → (s'.tasks i).pid < s.nextPid := by
      intro i hik hi
      rw [hold i hik] at hi ⊢
      exact h.below i hi
    refine ⟨fun i hi => ?_, fun i j hi hj heq => ?_⟩
    · by_cases hik : i = k
      · rw [hik, hself, hw]
        omega
      · have := hother i hik hi
        omega
    · by_cases hik : i = k <;> by_cases hjk : j = k
      · rw [hik, hjk]
      · have := hother j hjk hj
        rw [hik, hself] at heq
        omega
      · have := hother i hik hi
        rw [hjk, hself] at heq
        omega
      · rw [hold i hik] at hi heq
        rw [hold j hjk] at hj heq
        exact h.distinct i j hi hj heq

/-- What holds along a run without calls into `file.c`. -/
structure Kernel.RunInv (kdir : ℕ) (phys0 : Phys) (l0 : List Blk) (spawns : ℕ) (s : Kernel) : Prop where
  inv : ∃ ps, s.Inv kdir phys0 l0 ps
  unused : ∀ i < maxFiles, (s.files.files i).used = 0
  pids : Pids s
  nextPid : s.nextPid ≤ spawns + 2

/-- One event, which always ends. -/
theorem Kernel.RunInv.step {n : ℕ} (h : s.RunInv kdir phys0 l0 n) {e : TaskEvent} (he : e.OfTasks)
    (hby : e.By s) (hn : n + 1 < 2 ^ 31) :
    ∃ s', e.exec fs fails kdir userEntryAddr s = .ok s' ∧
      s'.RunInv kdir phys0 l0 (n + if e.isSpawn then 1 else 0) := by
  obtain ⟨ps, hinv⟩ := h.inv
  obtain ⟨l, hl⟩ := hinv.kstacks
  obtain ⟨s', hexec, hstep⟩ := TaskEvent.exec_ends fs fails userEntryAddr hinv he hby
    (fun i _ _ => ⟨s.files, fileCloseAll_of_unused h.unused _, ⟨l, hl.blocks, hl.owns⟩,
      fun _ => Or.inl rfl, fun j hj hu => absurd (h.unused j hj) hu⟩)
  have hnext := h.nextPid
  refine ⟨s', hexec, hstep.inv, fun i hi => hstep.files i (h.unused i hi),
    h.pids.change hstep.change (by omega), ?_⟩
  cases hsp : e.isSpawn with
  | false =>
    rw [hstep.spawns hsp]
    exact hnext
  | true =>
    rcases hstep.change with ⟨hkept, -⟩ | ⟨-, -, -, -, hnew⟩
    · rw [hkept, if_pos rfl]
      omega
    · rw [hnew, if_pos rfl]
      exact (Nat.mod_le _ _).trans (by omega)

theorem TaskRun.inv {es : List TaskEvent} {s0 : Kernel} (h0 : s0.RunInv kdir phys0 l0 0)
    (hrun : TaskRun fs fails kdir userEntryAddr (fun s e => e.By s ∧ e.OfTasks) s0 es s)
    (hspawns : es.countP TaskEvent.isSpawn < 2 ^ 31 - 1) :
    s.RunInv kdir phys0 l0 (es.countP TaskEvent.isSpawn) := by
  induction hrun with
  | nil => exact h0
  | @snoc es s s' e _ hok hexec ih =>
    rw [List.countP_append, List.countP_singleton] at hspawns ⊢
    obtain ⟨s'', hexec', hinv⟩ := (ih (by omega)).step hok.2 hok.1 (by omega)
    obtain rfl := Except.ok.inj (hexec.symm.trans hexec')
    exact hinv

/-- The page directories of the processes in the table. -/
def Kernel.pgdirs (s : Kernel) : List ℕ :=
  ((List.range maxTasks).filter (fun i => i ≠ 0 ∧ (s.tasks i).state ≠ .free)).map
    (fun i => (s.tasks i).pgdir)

theorem Table.pgdirs (h : Table kdir s.tasks ps) :
    ((ps.map Proc.space).map Space.dir).Perm s.pgdirs := by
  have hslots : (ps.map Proc.slot).Perm
      ((List.range maxTasks).filter (fun i => i ≠ 0 ∧ (s.tasks i).state ≠ .free)) := by
    refine (List.perm_ext_iff_of_nodup h.nodup (List.nodup_range.filter _)).2 (fun i => ?_)
    rw [List.mem_filter, List.mem_range, decide_eq_true_iff]
    constructor
    · intro hi
      obtain ⟨p, hp, rfl⟩ := List.mem_map.1 hi
      obtain ⟨h0, hlt, -⟩ := h.slot p hp
      exact ⟨hlt, h0, (h.live _ hlt h0).2 hi⟩
    · rintro ⟨hlt, h0, hlive⟩
      exact (h.live i hlt h0).1 hlive
  have hdirs : (ps.map Proc.space).map Space.dir = (ps.map Proc.slot).map (fun i => (s.tasks i).pgdir) := by
    rw [List.map_map, List.map_map]
    exact List.map_congr_left (fun p hp => (h.slot p hp).2.2.pgdir.symm)
  rw [hdirs]
  exact hslots.map _

/-- A kernel stack does not reach the end of the address space. -/
theorem Stacks.top (h : Stacks l0 ps files l) {p : Proc} (hp : p ∈ ps) {t : Task} (ht : p.IsTask t) :
    w32 (t.kstack + kstackSize) = t.kstack + kstackSize := by
  have hb := h.owns.kept p.stack (Or.inr (List.mem_map_of_mem hp))
  have hmem := (List.mem_filter.1 hb).1
  have hI := Heap.inv_of_blocks h.blocks (List.ne_nil_of_mem hmem)
  have hfin := (hI.tiles.mem_bounds hmem).2
  have := hI.noWrap
  have := ht.size
  refine Nat.mod_eq_of_lt ?_
  rw [ht.kstack]
  unfold Blk.fin at hfin
  omega

end Run

/-- What holds of a machine that runs tasks; `l0` are the heap blocks of before. -/
structure TasksSound (fs : Fs) (fails : Faults) (kdir userEntryAddr : ℕ) (l0 : List Blk)
    (s : Kernel) : Prop where
  /-- The current task is ready. -/
  running : s.current < maxTasks ∧ (s.tasks s.current).state = .ready
  shell : (s.tasks 0).state = .ready ∧ (s.tasks 0).kstack = 0 ∧ (s.tasks 0).pgdir = 0
  /-- `task_exit` switches away, to a task that is ready. -/
  exits : s.current ≠ 0 → ∀ code esp, (taskExit code esp s).current ≠ s.current ∧
    (s.tasks (taskExit code esp s).current).state = .ready
  /-- No switch goes to a task that is not ready. -/
  switches : ∀ esp, (s.tasks (schedule esp s).current).state = .ready
  distinct : ∀ i < maxTasks, ∀ j < maxTasks, i ≠ j → (s.tasks i).state ≠ .free →
    (s.tasks j).state ≠ .free → (s.tasks i).pid ≠ (s.tasks j).pid ∧
      (s.tasks i).kstack ≠ (s.tasks j).kstack ∧ (s.tasks i).pgdir ≠ (s.tasks j).pgdir
  /-- The kernel stack of a process is in a live block of its own. -/
  stack : ∀ i < maxTasks, i ≠ 0 → (s.tasks i).state ≠ .free →
    ∃ l b, s.files.fat.heap.blocks = some l ∧ b ∈ usedOf l ∧ b ∉ usedOf l0 ∧
      (s.tasks i).kstack = b.addr + blockHeader ∧ kstackSize ≤ b.size
  /-- Its page directory is an allocated frame, and a live address space. -/
  space : ∀ i < maxTasks, i ≠ 0 → (s.tasks i).state ≠ .free →
    (s.tasks i).pgdir ∈ s.phys.frames ∧ (s.tasks i).pgdir ≠ 0 ∧ Isolated kdir s.phys s.pgdirs
  cr3 : s.cr3 = (s.tasks s.current).cr3
  esp0 : (s.tasks s.current).kstack ≠ 0 → s.esp0 = (s.tasks s.current).kstack + kstackSize
  /-- Whatever comes next ends. -/
  goes : ∀ e : TaskEvent, e.OfTasks → e.By s → ∃ s', e.exec fs fails kdir userEntryAddr s = .ok s'

section Sound

variable {fs : Fs} {fails : Faults} {kdir userEntryAddr : ℕ} {phys0 phys : Phys}
  {l0 l : List Blk} {s : Kernel} {ps : List Proc} {files : FileSys}

/-- Two tasks do not share a kernel stack or a page directory. -/
theorem Kernel.Inv.distinct (h : s.Inv kdir phys0 l0 ps) {i j : ℕ} (hi : i < maxTasks)
    (hj : j < maxTasks) (hne : i ≠ j) (hli : (s.tasks i).state ≠ .free)
    (hlj : (s.tasks j).state ≠ .free) : (s.tasks i).kstack ≠ (s.tasks j).kstack ∧
      (s.tasks i).pgdir ≠ (s.tasks j).pgdir := by
  have hshell := h.table.shell
  by_cases hi0 : i = 0
  · obtain ⟨q, hq, rfl⟩ := h.table.exists_proc hj (fun hj0 => hne (hi0.trans hj0.symm)) hlj
    obtain ⟨hdir, hstack⟩ := h.task_ne_zero hq
    rw [hi0, hshell.kstack, hshell.pgdir]
    exact ⟨hstack.symm, hdir.symm⟩
  obtain ⟨p, hp, rfl⟩ := h.table.exists_proc hi hi0 hli
  by_cases hj0 : j = 0
  · obtain ⟨hdir, hstack⟩ := h.task_ne_zero hp
    rw [hj0, hshell.kstack, hshell.pgdir]
    exact ⟨hstack, hdir⟩
  obtain ⟨q, hq, rfl⟩ := h.table.exists_proc hj hj0 hlj
  obtain ⟨l, hl⟩ := h.kstacks
  obtain ⟨-, -, htp⟩ := h.table.slot p hp
  obtain ⟨-, -, htq⟩ := h.table.slot q hq
  have hlive : ∀ r ∈ ps, r.stack ∈ usedOf l := fun r hr =>
    hl.owns.kept _ (Or.inr (List.mem_map_of_mem hr))
  refine ⟨fun heq => hne ?_, fun heq => hne ?_⟩
  · rw [htp.kstack, htq.kstack, Nat.add_right_cancel_iff] at heq
    have hstack := (Heap.blockList_of_blocks hl.blocks).eq_of_addr (hlive p hp) (hlive q hq) heq
    rw [List.inj_on_of_nodup_map hl.nodup hp hq hstack]
  · rw [htp.pgdir, htq.pgdir] at heq
    have hdirs := (h.pages.inv hp).nodup_dirs
    rw [List.map_map] at hdirs
    rw [List.inj_on_of_nodup_map hdirs hp hq heq]

/-- **The task table is sound** in every state that spawns, exits, reaps and preemptions in any order
    lead to from `task_init`: the current task is ready, exiting switches to a ready task, what the
    tasks hold is theirs alone and allocated, and the registers are those of the current task. -/
theorem taskRun_sound {map : List E820Entry} {mem : Mem} {kdir : ℕ} {phys : Phys} {files : FileSys}
    {l0 : List Blk} (hinit : pagingInit (frameInit map mem) = (kdir, phys))
    (hkdir : kdir ≠ 0 ∨ phys.count = 0) (hfree : ∀ i < maxFiles, (files.files i).used = 0)
    (hheap : files.fat.heap.blocks = some l0) {es : List TaskEvent} {s : Kernel}
    (hrun : TaskRun fs fails kdir userEntryAddr (fun s e => e.By s ∧ e.OfTasks)
      (taskInit kdir (Kernel.boot kdir phys files)) es s)
    (hspawns : es.countP TaskEvent.isSpawn < 2 ^ 31 - 1) :
    TasksSound fs fails kdir userEntryAddr l0 s := by
  have hstart : (taskInit kdir (Kernel.boot kdir phys files)).RunInv kdir phys l0 0 := by
    have hlive : ∀ i, ((taskInit kdir (Kernel.boot kdir phys files)).tasks i).state ≠ .free → i = 0 := by
      intro i hi
      by_contra h0
      rw [taskInit_task h0] at hi
      exact hi rfl
    refine ⟨⟨[], taskInit_inv hinit hkdir hfree hheap⟩, hfree, ⟨fun i hi => ?_, fun i j hi hj _ => ?_⟩,
      Nat.le_refl 2⟩
    · rw [hlive i hi]
      exact Nat.lt_succ_self 1
    · rw [hlive i hi, hlive j hj]
  have hall := hrun.inv hstart hspawns
  obtain ⟨ps, h⟩ := hall.inv
  obtain ⟨l, hl⟩ := h.kstacks
  refine ⟨⟨h.cpu.lt, h.running⟩, ⟨h.table.shell.state, h.table.shell.kstack, h.table.shell.pgdir⟩,
    fun h0 code esp => h.exit_switches h0 code esp, fun esp => ?_, fun i hi j hj hne hli hlj => ?_,
    fun i hi h0 hli => ?_, fun i hi h0 hli => ?_, h.cpu.cr3, fun hk => ?_, fun e he hby => ?_⟩
  · rcases schedule_cases h.table.shell.state h.cpu.lt esp with ⟨heq, hready⟩ |
      ⟨next, -, -, hready, heq⟩
    · rw [heq]
      exact hready
    · rw [heq]
      exact hready
  · exact ⟨fun heq => hne (hall.pids.distinct i j hli hlj heq), h.distinct hi hj hne hli hlj⟩
  · obtain ⟨p, hp, rfl⟩ := h.table.exists_proc hi h0 hli
    obtain ⟨-, -, htask⟩ := h.table.slot p hp
    exact ⟨l, p.stack, hl.blocks, hl.owns.kept _ (Or.inr (List.mem_map_of_mem hp)), hl.fresh p hp,
      htask.kstack, htask.size⟩
  · obtain ⟨p, hp, rfl⟩ := h.table.exists_proc hi h0 hli
    obtain ⟨-, -, htask⟩ := h.table.slot p hp
    refine ⟨?_, (h.task_ne_zero hp).1, (h.pages.inv hp).isolated h.table.pgdirs⟩
    rw [htask.pgdir]
    exact h.pages.dir_mem hp
  · have h0 : s.current ≠ 0 := fun h0 => hk (by rw [h0]; exact h.table.shell.kstack)
    obtain ⟨p, hp, hslot⟩ := h.table.exists_proc h.cpu.lt h0 (by rw [h.running]; decide)
    obtain ⟨-, -, htask⟩ := h.table.slot p hp
    rw [hslot] at htask
    exact (h.cpu.esp0 hk).trans (hl.top hp htask)
  · obtain ⟨s', hexec, -⟩ := hall.step he hby (by omega)
    exact ⟨s', hexec⟩

end Sound

/-! ## A run -/

section Exec

variable (fs : Fs) (fails : Faults) (kdir userEntryAddr : ℕ)

/-- Events one after another, as long as they meet `ok` and end. -/
def execAll (ok : Kernel → TaskEvent → Prop) [∀ s e, Decidable (ok s e)] :
    List TaskEvent → Kernel → Option Kernel
  | [], s => some s
  | e :: es, s =>
    if ok s e then
      match e.exec fs fails kdir userEntryAddr s with
      | .ok s' => execAll ok es s'
      | .error _ => none
    else none

variable {fs fails kdir userEntryAddr}

theorem TaskRun.execAll {ok : Kernel → TaskEvent → Prop} [∀ s e, Decidable (ok s e)] {s0 s s' : Kernel}
    {es es' : List TaskEvent} (hrun : TaskRun fs fails kdir userEntryAddr ok s0 es s)
    (h : execAll fs fails kdir userEntryAddr ok es' s = some s') :
    TaskRun fs fails kdir userEntryAddr ok s0 (es ++ es') s' := by
  induction es' generalizing es s with
  | nil =>
    cases h
    rw [List.append_nil]
    exact hrun
  | cons e es' ih =>
    rw [OctoOS.execAll] at h
    split_ifs at h with hok
    cases hexec : e.exec fs fails kdir userEntryAddr s with
    | error w =>
      rw [hexec] at h
      cases h
    | ok s1 =>
      rw [hexec] at h
      have hrun' := ih (hrun.snoc hok hexec) h
      rwa [List.append_assoc, List.singleton_append] at hrun'

end Exec

instance (e : TaskEvent) : Decidable e.OfTasks := by
  induction e using TaskEvent.casesOn <;> unfold TaskEvent.OfTasks <;> infer_instance

/-- The machine with 16 MiB of memory and the small volume, after `task_init`. -/
def mediumKernel : Kernel :=
  taskInit 0x900000 (Kernel.boot 0x900000 mediumPhys (smallFiles [] [] []))

/-- The shell starts the tiny program and the timer switches to it. -/
def tinyStart : List TaskEvent := [.spawn (str "TINY") tinyImage 86 (str "x"), .preempt 0x8FFC0]

/-- The process runs on its own stack and in its own address space. -/
theorem taskRun_sound_tiny : ∃ s, TaskRun smallFs noFaults 0x900000 0x10200
      (fun s e => e.By s ∧ e.OfTasks) mediumKernel tinyStart s ∧
    (s.current, s.cr3, s.esp0, (s.tasks 1).pid) = (1, 0x901000, 0x10100C, 2) ∧
    TasksSound smallFs noFaults 0x900000 0x10200 [⟨0x100000, 0x1FFF4, false⟩] s := by
  have hres : (execAll smallFs noFaults 0x900000 0x10200 (fun s e => e.By s ∧ e.OfTasks)
      tinyStart mediumKernel).map (fun s => (s.current, s.cr3, s.esp0, (s.tasks 1).pid))
        = some (1, 0x901000, 0x10100C, 2) := by decide +kernel
  obtain ⟨s, hexec, hs⟩ := Option.map_eq_some_iff.1 hres
  have hrun := TaskRun.nil.execAll hexec
  rw [List.nil_append] at hrun
  exact ⟨s, hrun, hs, taskRun_sound mediumPhys_init (Or.inl (by decide)) (fun _ _ => rfl) filesHeap_blocks
    hrun (by decide)⟩

end OctoOS
