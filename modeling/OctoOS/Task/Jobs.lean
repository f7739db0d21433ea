import OctoOS.Task.Fair
import OctoOS.Console.Printf

set_option autoImplicit false

/-! # The shell and its jobs (`cmd_run` and `reap_zombies` of `kernel/shell.c`)

The shell starts programs, waits for those in the foreground and collects the others before it shows
its prompt. It is a task like the others: the timer may take the processor from it between any two
steps, and the programs exit when they like. So the shell is here a position in its code; the steps of
the other tasks come in between.

Every exit is collected once, and what the shell prints about it is the pid and the code of that exit. -/

namespace OctoOS

open Atomic

/-- Where the shell is: in `reap_zombies` before slot `i`, or with slot `i` reported but not reaped; at
    the prompt or in a command; in `cmd_run` behind `task_spawn_user`, in the loop that waits for the
    task `t`, and behind that loop. -/
inductive ShellAt where
  | reaping (i : ℕ)
  | reported (i : ℕ)
  | prompt
  | spawned (pid : Int)
  | waiting (pid : Int) (t : ℕ)
  | exited (pid : Int) (t : ℕ)
  deriving DecidableEq

/-- The kernel and the shell's position. -/
structure Jobs where
  kernel : Kernel
  shell : ShellAt

/-- The array `name` as a string. -/
def Task.nameText (t : Task) : Bytes := ((List.range 16).map t.name).takeWhile (· ≠ 0)

/-- `kprintf`, onto the console. -/
def Kernel.printf (fmt : Bytes) (args : List Arg) (s : Kernel) : Except Stop Kernel :=
  match kprintfText fmt args with
  | some text => .ok (s.puts text)
  | none => .error .undefined

/-- `task_by_pid`. -/
def taskByPid (tasks : ℕ → Task) (pid : Int) : Option ℕ :=
  (List.range maxTasks).find? (fun i => (tasks i).state ≠ .free ∧ toInt32 (tasks i).pid = pid)

section Steps

variable (fs : Fs) (fails : Faults) (kdir userEntryAddr : ℕ)

/-- The next step of the shell, where its code leaves it no choice. -/
def Jobs.shellStep (s : Jobs) : Except Stop Jobs :=
  let tasks := s.kernel.tasks
  match s.shell with
  | .reaping i =>
    if i < maxTasks then
      if (tasks i).state = .zombie then do
        let kernel ← s.kernel.printf (str "[%d] %s exited (%d)\n")
          [.word (UInt32.ofNat (tasks i).pid), .str (some (tasks i).nameText),
            .word (UInt32.ofInt (tasks i).exitCode)]
        .ok ⟨kernel, .reported i⟩
      else .ok ⟨s.kernel, .reaping (i + 1)⟩
    else .ok ⟨s.kernel, .prompt⟩
  | .reported i => do
    let kernel ← taskReap fs fails i s.kernel
    .ok ⟨kernel, .reaping (i + 1)⟩
  -- a command other than `run` is over
  | .prompt => .ok ⟨s.kernel, .reaping 0⟩
  | .spawned pid =>
    match taskByPid tasks pid with
    | none => .error .undefined
    | some t => .ok ⟨s.kernel, .waiting pid t⟩
  | .waiting pid t =>
    if (tasks t).state = .zombie then
      if (tasks t).exitCode ≠ 0 then do
        let kernel ← s.kernel.printf (str "exit code %d\n") [.word (UInt32.ofInt (tasks t).exitCode)]
        .ok ⟨kernel, .exited pid t⟩
      else .ok ⟨s.kernel, .exited pid t⟩
    else .ok s
  | .exited _ t => do
    let kernel ← taskReap fs fails t s.kernel
    .ok ⟨kernel, .reaping 0⟩

/-- The middle of `cmd_run`: the program is started, in the background or not. -/
def Jobs.cmdRun (background : Bool) (name : Bytes) (image : ℕ → UInt8) (size : ℕ) (args : Bytes)
    (s : Jobs) : Except Stop Jobs := do
  let (pid, kernel) ← taskSpawnUser kdir userEntryAddr name image size args s.kernel
  if pid < 0 then .ok ⟨kernel, .reaping 0⟩
  else if background then
    let kernel ← kernel.printf (str "[%d] %s\n") [.word (UInt32.ofInt pid), .str (some name)]
    .ok ⟨kernel, .reaping 0⟩
  else .ok ⟨kernel, .spawned pid⟩

inductive JobEvent where
  /-- Whatever the shell's code does next. -/
  | shell
  /-- The command `run`, with the program as it was read from the disk. -/
  | run (background : Bool) (name : Bytes) (image : ℕ → UInt8) (size : ℕ) (args : Bytes)
  /-- The shell works in the file system or in the heap. -/
  | work (phys : Phys) (files : FileSys)
  /-- The timer, or what a program does. -/
  | task (e : TaskEvent)

/-- The shell's part in `TaskEvent` is done by its own steps. -/
def TaskEvent.OfProgram : TaskEvent → Prop
  | .spawn _ _ _ _ => False
  | .reap _ => False
  | _ => True

/-- One step of the machine. -/
inductive JobStep : Jobs → JobEvent → Jobs → Prop where
  | shell {s s' : Jobs} : s.kernel.current = 0 → s.shellStep fs fails = .ok s' → JobStep s .shell s'
  | run {s s' : Jobs} {background : Bool} {name : Bytes} {image : ℕ → UInt8} {size : ℕ} {args : Bytes} :
      s.kernel.current = 0 → s.shell = .prompt →
      s.cmdRun kdir userEntryAddr background name image size args = .ok s' →
      JobStep s (.run background name image size args) s'
  | work {s : Jobs} (phys : Phys) (files : FileSys) : s.kernel.current = 0 →
      JobStep s (.work phys files) { s with kernel := { s.kernel with phys := phys, files := files } }
  | task {s : Jobs} {kernel : Kernel} {e : TaskEvent} : e.OfProgram → e.By s.kernel →
      e.exec fs fails kdir userEntryAddr s.kernel = .ok kernel →
      JobStep s (.task e) { s with kernel := kernel }

/-- Steps one after another, with the states in which they were made. -/
inductive JobRun (s₀ : Jobs) : List (Jobs × JobEvent) → Jobs → Prop where
  | nil : JobRun s₀ [] s₀
  | snoc {tr : List (Jobs × JobEvent)} {s s' : Jobs} {e : JobEvent} : JobRun s₀ tr s →
      JobStep fs fails kdir userEntryAddr s e s' → JobRun s₀ (tr ++ [(s, e)]) s'

/-- The shell begins behind `task_init`. -/
def Jobs.boot (phys : Phys) (files : FileSys) : Jobs :=
  ⟨taskInit kdir (Kernel.boot kdir phys files), .reaping 0⟩

end Steps

/-! ## What is told about the exits -/

/-- An exit: the pid and the code. -/
abbrev Exit := ℕ × Int

/-- The exit of a zombie. -/
def Task.exit (t : Task) : List Exit := if t.state = .zombie then [(t.pid, t.exitCode)] else []

/-- The exits that wait to be collected. -/
def Kernel.zombies (k : Kernel) : List Exit := (List.range maxTasks).flatMap (fun i => (k.tasks i).exit)

/-- The exit that a step makes. -/
def exitsOf (x : Jobs × JobEvent) : List Exit :=
  match x.2 with
  | .task (.exit code _) => [((x.1.kernel.tasks x.1.kernel.current).pid, code)]
  | _ => []

/-- The exit that a step of the shell collects; `true` for one it has waited for. -/
def collectedOf (x : Jobs × JobEvent) : List (Bool × Exit) :=
  match x.2, x.1.shell with
  | .shell, .reported i => (x.1.kernel.tasks i).exit.map (false, ·)
  | .shell, .exited _ t => (x.1.kernel.tasks t).exit.map (true, ·)
  | _, _ => []

/-- What is worth a line: an exit code of a foreground job only if it is not 0. -/
def isTold (c : Bool × Exit) : Bool := !c.1 || c.2.2 ≠ 0

/-- The exit that a step of the shell prints. -/
def toldOf (x : Jobs × JobEvent) : List (Bool × Exit) :=
  match x.2, x.1.shell with
  | .shell, .reaping i => if i < maxTasks then (x.1.kernel.tasks i).exit.map (false, ·) else []
  | .shell, .waiting _ t => ((x.1.kernel.tasks t).exit.map (true, ·)).filter isTold
  | _, _ => []

/-- An exit that is printed and not collected yet. -/
def Jobs.pending (s : Jobs) : List (Bool × Exit) :=
  match s.shell with
  | .reported i => (s.kernel.tasks i).exit.map (false, ·)
  | .exited _ t => ((s.kernel.tasks t).exit.map (true, ·)).filter isTold
  | _ => []

/-! ## What a step does to the table -/

section Table

variable {fs : Fs} {fails : Faults} {kdir userEntryAddr : ℕ} {k k' : Kernel}
  {out gone : List Exit} {s s' : Jobs} {i : ℕ}

/-- A task that only ran, or did not even run. -/
def Kept (k k' : Kernel) (i : ℕ) : Prop := ∃ e, k'.tasks i = { k.tasks i with esp := e }

theorem Kept.refl (k : Kernel) (i : ℕ) : Kept k k i := ⟨_, rfl⟩

theorem kept_of_eq (h : k'.tasks i = k.tasks i) : Kept k k' i := ⟨_, h⟩

/-- Nothing, an exit of the current task, a new task, or the end of a zombie: `out` exits and `gone`
    is collected. -/
inductive TableStep (k : Kernel) : List Exit → List Exit → Kernel → Prop where
  | quiet {k' : Kernel} : (∀ i, Kept k k' i) → k'.nextPid = k.nextPid → TableStep k [] [] k'
  | exits {k' : Kernel} (code : Int) (e : ℕ) : k.current ≠ 0 → k'.tasks k.current
        = { k.tasks k.current with exitCode := code, state := .zombie, esp := e } →
      (∀ i ≠ k.current, Kept k k' i) → k'.nextPid = k.nextPid →
      TableStep k [((k.tasks k.current).pid, code)] [] k'
  | starts {k' : Kernel} (i : ℕ) (t : Task) : i < maxTasks → (k.tasks i).state = .free →
      k'.tasks = Function.update k.tasks i t → t.state = .ready → t.pid = k.nextPid →
      k'.nextPid = w32 (k.nextPid + 1) → TableStep k [] [] k'
  | collects {k' : Kernel} (i : ℕ) : i < maxTasks → (k.tasks i).state = .zombie →
      k'.tasks = Function.update k.tasks i Task.zero → k'.nextPid = k.nextPid →
      TableStep k [] [((k.tasks i).pid, (k.tasks i).exitCode)] k'

theorem Kept.exit {i : ℕ} (h : Kept k k' i) : (k'.tasks i).exit = (k.tasks i).exit := by
  obtain ⟨e, he⟩ := h
  rw [he]
  rfl

theorem Kept.state (h : Kept k k' i) : (k'.tasks i).state = (k.tasks i).state := by
  obtain ⟨e, he⟩ := h
  rw [he]

theorem Kept.pid (h : Kept k k' i) : (k'.tasks i).pid = (k.tasks i).pid := by
  obtain ⟨e, he⟩ := h
  rw [he]

/-- The zombies when the slot `i` alone may have changed. -/
theorem zombies_change (hi : i < maxTasks) (hold : (k.tasks i).exit = gone)
    (hnew : (k'.tasks i).exit = out) (hsame : ∀ j ≠ i, (k'.tasks j).exit = (k.tasks j).exit) :
    (out ++ k.zombies).Perm (gone ++ k'.zombies) := by
  have hsplit : ∀ k : Kernel, k.zombies.Perm
      ((k.tasks i).exit ++ ((List.range maxTasks).erase i).flatMap (fun j => (k.tasks j).exit)) := by
    intro k
    exact (List.perm_cons_erase (List.mem_range.2 hi)).flatMap_right _
  have hrest : ((List.range maxTasks).erase i).flatMap (fun j => (k'.tasks j).exit)
      = ((List.range maxTasks).erase i).flatMap (fun j => (k.tasks j).exit) := by
    refine List.flatMap_congr (fun j hj => hsame j ?_)
    rintro rfl
    exact (List.nodup_range.not_mem_erase hj)
  have hchange := (hsplit k').append_left gone
  rw [hrest, hnew, ← hold] at hchange
  rw [← hold]
  exact (hchange.trans ((List.perm_append_comm_assoc ..).trans ((hsplit k).symm.append_left _))).symm

/-- **An exit is a zombie until it is collected.** -/
theorem TableStep.conserves (h : TableStep k out gone k') (hlt : k.current < maxTasks)
    (hready : (k.tasks k.current).state = .ready) :
    (out ++ k.zombies).Perm (gone ++ k'.zombies) := by
  cases h with
  | quiet hkept _ =>
    have hsame : k'.zombies = k.zombies := List.flatMap_congr (fun i _ => (hkept i).exit)
    rw [hsame]
  | exits code e _ htask hkept _ =>
    exact zombies_change hlt (by simp [Task.exit, hready]) (by simp [Task.exit, htask])
      (fun j hj => (hkept j hj).exit)
  | starts i t hi hfree htasks hstate _ _ =>
    exact zombies_change hi (by simp [Task.exit, hfree]) (by simp [Task.exit, htasks, hstate])
      (fun j hj => by rw [htasks, Function.update_of_ne hj])
  | collects i hi hz htasks _ =>
    exact zombies_change hi (by simp [Task.exit, hz]) (by simp [Task.exit, htasks, Task.zero])
      (fun j hj => by rw [htasks, Function.update_of_ne hj])

theorem TableStep.change (h : TableStep k out gone k') (hready : (k.tasks k.current).state = .ready) :
    TaskChange k k' := by
  cases h with
  | quiet hkept hnext =>
    refine .kept hnext (fun i hi => ?_)
    rw [(hkept i).state] at hi
    exact ⟨hi, (hkept i).pid⟩
  | exits code e _ htask hkept hnext =>
    refine .kept hnext (fun i hi => ?_)
    by_cases hcur : i = k.current
    · subst hcur
      rw [htask, hready]
      exact ⟨by decide, rfl⟩
    · rw [(hkept i hcur).state] at hi
      exact ⟨hi, (hkept i hcur).pid⟩
  | starts i t _ _ htasks _ hpid hnext => exact .started i t htasks hpid hnext
  | collects i _ _ htasks hnext =>
    refine .kept hnext (fun j hj => ?_)
    rw [htasks] at hj ⊢
    by_cases hji : j = i
    · subst hji
      rw [Function.update_self] at hj
      exact absurd rfl hj
    · rw [Function.update_of_ne hji] at hj ⊢
      exact ⟨hj, rfl⟩

/-- A task that is there and not collected stays there, with its pid; a zombie stays one. -/
theorem TableStep.stays (h : TableStep k out [] k') (hi : (k.tasks i).state ≠ .free) :
    (k'.tasks i).state ≠ .free ∧ (k'.tasks i).pid = (k.tasks i).pid ∧
      ((k.tasks i).state = .zombie → (k.tasks k.current).state = .ready →
        (k'.tasks i).exit = (k.tasks i).exit ∧ (k'.tasks i).state = .zombie) := by
  have hkeeps : Kept k k' i → (k'.tasks i).state ≠ .free ∧ (k'.tasks i).pid = (k.tasks i).pid ∧
      ((k.tasks i).state = .zombie → (k.tasks k.current).state = .ready →
        (k'.tasks i).exit = (k.tasks i).exit ∧ (k'.tasks i).state = .zombie) := by
    intro hk
    rw [hk.state, hk.pid, hk.exit]
    exact ⟨hi, rfl, fun hz _ => ⟨rfl, hz⟩⟩
  cases h with
  | quiet hkept _ => exact hkeeps (hkept i)
  | exits code e _ htask hkept _ =>
    by_cases hcur : i = k.current
    · subst hcur
      rw [htask]
      refine ⟨by simp, rfl, fun hz hready => ?_⟩
      rw [hz] at hready
      cases hready
    · exact hkeeps (hkept i hcur)
  | starts j t _ hfree htasks _ _ _ =>
    refine hkeeps (kept_of_eq ?_)
    rw [htasks]
    refine Function.update_of_ne (fun heq => ?_) _ _
    exact hi (heq ▸ hfree)

/-- The shell and the current task are ready. -/
structure Kernel.Running (k : Kernel) : Prop where
  lt : k.current < maxTasks
  shell : (k.tasks 0).state = .ready
  ready : (k.tasks k.current).state = .ready

theorem printf_ok {fmt : Bytes} {args : List Arg} (h : k.printf fmt args = .ok k') :
    ∃ text, kprintfText fmt args = some text ∧ k' = k.puts text := by
  unfold Kernel.printf at h
  cases htext : kprintfText fmt args with
  | none =>
    rw [htext] at h
    cases h
  | some text =>
    rw [htext] at h
    exact ⟨text, rfl, (Except.ok.inj h).symm⟩

theorem schedule_running (hlt : k.current < maxTasks) (hshell : (k.tasks 0).state = .ready) (esp : ℕ) :
    (schedule esp k).Running := by
  obtain ⟨e, htask⟩ := schedule_task esp k 0
  have hshell' : ((schedule esp k).tasks 0).state = .ready := by
    rw [htask]
    exact hshell
  rcases schedule_cases hshell hlt esp with ⟨heq, hready⟩ | ⟨next, hnext, hne, hready, heq⟩
  · rw [heq]
    exact ⟨hlt, hshell, hready⟩
  · rw [heq] at hshell' ⊢
    refine ⟨hnext, hshell', ?_⟩
    have hold : (switchTo next esp k).tasks next = k.tasks next := Function.update_of_ne hne _ _
    show ((switchTo next esp k).tasks next).state = .ready
    rw [hold]
    exact hready

/-- **What a program does**, or the timer. -/
theorem TaskEvent.exec_table {e : TaskEvent} (he : e.OfProgram) (hby : e.By k) (h : k.Running)
    (hexec : e.exec fs fails kdir userEntryAddr k = .ok k') (shell : ShellAt) :
    TableStep k (exitsOf (⟨k, shell⟩, .task e)) [] k' ∧ k'.Running := by
  cases e with
  | spawn _ _ _ _ | reap _ => exact he.elim
  | preempt esp =>
    cases hexec
    exact ⟨.quiet (schedule_task esp k) (schedule_nextPid esp k), schedule_running h.lt h.shell esp⟩
  | exit code esp =>
    cases hexec
    have hshell : ((markZombie code k).tasks 0).state = .ready := by
      rw [markZombie_of_ne code (Ne.symm hby)]
      exact h.shell
    refine ⟨?_, schedule_running (k := markZombie code k) h.lt hshell esp⟩
    obtain ⟨e, he⟩ := schedule_task esp (markZombie code k) k.current
    rw [markZombie_current] at he
    refine .exits code e hby he (fun i hi => ?_) (schedule_nextPid ..)
    obtain ⟨e, he⟩ := schedule_task esp (markZombie code k) i
    rw [markZombie_of_ne code hi] at he
    exact ⟨e, he⟩
  | store va b =>
    simp only [TaskEvent.exec] at hexec
    split at hexec
    · cases hexec
      exact ⟨.quiet (Kept.refl k) rfl, h⟩
    · cases hexec
      exact ⟨.quiet (fun _ => kept_of_eq rfl) rfl, ⟨h.lt, h.shell, h.ready⟩⟩
  | file r =>
    obtain ⟨files, rfl⟩ := TaskEvent.exec_file hexec
    exact ⟨.quiet (fun _ => kept_of_eq rfl) rfl, ⟨h.lt, h.shell, h.ready⟩⟩

theorem taskReap_tableStep (hi : i < maxTasks) (hz : (k.tasks i).state = .zombie)
    (h : taskReap fs fails i k = .ok k') : TableStep k [] ((k.tasks i).exit) k' := by
  obtain ⟨-, hnext, htasks⟩ := taskReap_table h
  rw [if_pos hz] at htasks
  rw [Task.exit, if_pos hz]
  exact .collects i hi hz htasks hnext

/-- The shell has the processor and is as it was. -/
theorem Kernel.Running.of_shell (h : k.Running) (hcur : k'.current = 0)
    (hshell : k'.tasks 0 = k.tasks 0) : k'.Running := by
  refine ⟨?_, ?_, ?_⟩
  · rw [hcur]
    decide
  · rw [hshell]
    exact h.shell
  · rw [hcur, hshell]
    exact h.shell

/-- The shell collects a zombie and stays ready. -/
theorem taskReap_running (h : k.Running) (hcur : k.current = 0)
    (hreap : taskReap fs fails i k = .ok k') : k'.Running := by
  have hshell : k'.tasks 0 = k.tasks 0 := taskReap_same hreap (by simp [h.shell])
  exact h.of_shell ((taskReap_table hreap).1.trans hcur) hshell

theorem SpawnTable.tableStep {r : Int} (h : SpawnTable k r k') : TableStep k [] [] k' := by
  cases h with
  | failed _ htasks hnext => exact .quiet (fun i => kept_of_eq (congrFun htasks i)) hnext
  | started i t hi hfree htasks hstate hpid _ hnext => exact .starts i t hi hfree htasks hstate hpid hnext

/-! ## Where the shell is -/

/-- The task in slot `t` is a program with this pid, and it is not collected. -/
structure IsJob (k : Kernel) (pid : Int) (t : ℕ) : Prop where
  ne : t ≠ 0
  lt : t < maxTasks
  live : (k.tasks t).state ≠ .free
  pid : toInt32 (k.tasks t).pid = pid

/-- What the shell may rely on at each place of its code. -/
def Jobs.AtOk (s : Jobs) : Prop :=
  match s.shell with
  | .reaping _ => True
  | .reported i => i < maxTasks ∧ (s.kernel.tasks i).state = .zombie
  | .prompt => True
  | .spawned pid => ∃ t, IsJob s.kernel pid t
  | .waiting pid t => IsJob s.kernel pid t
  | .exited pid t => IsJob s.kernel pid t ∧ (s.kernel.tasks t).state = .zombie

theorem IsJob.step {pid : Int} {t : ℕ} (h : IsJob k pid t) (hstep : TableStep k out [] k') :
    IsJob k' pid t := by
  obtain ⟨hlive, hpid, -⟩ := hstep.stays h.live
  exact ⟨h.ne, h.lt, hlive, by rw [hpid]; exact h.pid⟩

/-- A zombie that nobody collects stays one. -/
theorem TableStep.zombie (h : TableStep k out [] k') (hready : (k.tasks k.current).state = .ready)
    (hz : (k.tasks i).state = .zombie) :
    (k'.tasks i).exit = (k.tasks i).exit ∧ (k'.tasks i).state = .zombie :=
  (h.stays (by simp [hz])).2.2 hz hready

/-- The others do not disturb the shell. -/
theorem Jobs.AtOk.step {shell : ShellAt} (h : Jobs.AtOk ⟨k, shell⟩) (hstep : TableStep k out [] k')
    (hready : (k.tasks k.current).state = .ready) :
    Jobs.AtOk ⟨k', shell⟩ ∧ Jobs.pending ⟨k', shell⟩ = Jobs.pending ⟨k, shell⟩ := by
  cases shell with
  | reaping _ | prompt => exact ⟨trivial, rfl⟩
  | reported i =>
    obtain ⟨hexit, hz⟩ := hstep.zombie hready h.2
    exact ⟨⟨h.1, hz⟩, by simp only [Jobs.pending, hexit]⟩
  | spawned pid =>
    obtain ⟨t, ht⟩ := h
    exact ⟨⟨t, ht.step hstep⟩, rfl⟩
  | waiting pid t => exact ⟨IsJob.step h hstep, rfl⟩
  | exited pid t =>
    obtain ⟨hexit, hz⟩ := hstep.zombie hready h.2
    exact ⟨⟨h.1.step hstep, hz⟩, by simp only [Jobs.pending, hexit]⟩

/-- `task_by_pid` finds the task and no other one. -/
theorem taskByPid_of_isJob {pid : Int} {t : ℕ} (h : IsJob k pid t) (hp : Pids k)
    (hlt : k.nextPid + 1 < 2 ^ 31) : taskByPid k.tasks pid = some t := by
  have hsome : (taskByPid k.tasks pid).isSome = true := by
    rw [taskByPid, List.find?_isSome]
    exact ⟨t, List.mem_range.2 h.lt, by simp [h.live, h.pid]⟩
  obtain ⟨t', ht'⟩ := Option.isSome_iff_exists.1 hsome
  have hfound := List.find?_some ht'
  simp only [decide_eq_true_eq] at hfound
  have hlt' := hp.below t' hfound.1
  have hltt := hp.below t h.live
  have hsame : (k.tasks t').pid = (k.tasks t).pid := by
    have heq := hfound.2.trans h.pid.symm
    rw [toInt32, toInt32, if_pos (by omega), if_pos (by omega)] at heq
    exact_mod_cast heq
  rw [ht', hp.distinct t' t hfound.1 h.live hsame]

/-- **A step of the shell** collects what it says, and says what it has collected or is about to. -/
theorem Jobs.shellStep_table (hat : s.AtOk) (h : s.kernel.Running) (hp : Pids s.kernel)
    (hlt : s.kernel.nextPid + 1 < 2 ^ 31) (hcur : s.kernel.current = 0)
    (hstep : s.shellStep fs fails = .ok s') :
    TableStep s.kernel [] ((collectedOf (s, .shell)).map Prod.snd) s'.kernel ∧ s'.kernel.Running ∧
      s'.AtOk ∧ s.pending ++ toldOf (s, .shell)
        = (collectedOf (s, .shell)).filter isTold ++ s'.pending := by
  obtain ⟨k, shell⟩ := s
  -- a step that prints at most
  have hquiet : ∀ text, TableStep k [] [] (k.puts text) ∧ (k.puts text).Running := fun text =>
    ⟨.quiet (fun _ => kept_of_eq rfl) rfl, ⟨h.lt, h.shell, h.ready⟩⟩
  have hsame : TableStep k [] [] k := .quiet (Kept.refl k) rfl
  cases shell with
  | reaping i =>
    simp only [Jobs.shellStep] at hstep
    split_ifs at hstep with hi hz
    · obtain ⟨kernel, hprint, hstep⟩ := ok_of_bind hstep
      obtain ⟨text, -, rfl⟩ := printf_ok hprint
      cases hstep
      refine ⟨(hquiet text).1, (hquiet text).2, ⟨hi, hz⟩, ?_⟩
      simp only [Jobs.pending, toldOf, collectedOf, if_pos hi]
      rfl
    · cases hstep
      have hnone : (k.tasks i).exit = [] := if_neg hz
      refine ⟨hsame, h, trivial, ?_⟩
      simp [Jobs.pending, toldOf, collectedOf, hnone]
    · cases hstep
      refine ⟨hsame, h, trivial, ?_⟩
      simp [Jobs.pending, toldOf, collectedOf, hi]
  | reported i =>
    simp only [Jobs.shellStep] at hstep
    obtain ⟨kernel, hreap, hstep⟩ := ok_of_bind hstep
    cases hstep
    refine ⟨?_, taskReap_running h hcur hreap, trivial, ?_⟩
    · simp only [collectedOf, List.map_map, Function.comp_def, List.map_id']
      exact taskReap_tableStep hat.1 hat.2 hreap
    · simp [Jobs.pending, toldOf, collectedOf, isTold, List.filter_map, Function.comp_def]
  | prompt =>
    cases hstep
    exact ⟨hsame, h, trivial, rfl⟩
  | spawned pid =>
    obtain ⟨t, ht⟩ := hat
    simp only [Jobs.shellStep, taskByPid_of_isJob ht hp hlt] at hstep
    cases hstep
    exact ⟨hsame, h, ht, rfl⟩
  | waiting pid t =>
    simp only [Jobs.shellStep] at hstep
    split_ifs at hstep with hz hcode
    · obtain ⟨kernel, hprint, hstep⟩ := ok_of_bind hstep
      obtain ⟨text, -, rfl⟩ := printf_ok hprint
      cases hstep
      exact ⟨(hquiet text).1, (hquiet text).2, ⟨⟨hat.ne, hat.lt, hat.live, hat.pid⟩, hz⟩, rfl⟩
    · cases hstep
      exact ⟨hsame, h, ⟨hat, hz⟩, rfl⟩
    · cases hstep
      have hnone : (k.tasks t).exit = [] := if_neg hz
      refine ⟨hsame, h, hat, ?_⟩
      simp [Jobs.pending, toldOf, collectedOf, hnone]
  | exited pid t =>
    simp only [Jobs.shellStep] at hstep
    obtain ⟨kernel, hreap, hstep⟩ := ok_of_bind hstep
    cases hstep
    refine ⟨?_, taskReap_running h hcur hreap, trivial, ?_⟩
    · simp only [collectedOf, List.map_map, Function.comp_def, List.map_id']
      exact taskReap_tableStep hat.1.lt hat.2 hreap
    · simp [Jobs.pending, toldOf, collectedOf]

/-- A started job is there to be waited for. -/
theorem Jobs.cmdRun_table {background : Bool} {name args : Bytes} {image : ℕ → UInt8} {size : ℕ}
    (h : s.kernel.Running) (hcur : s.kernel.current = 0)
    (hstep : s.cmdRun kdir userEntryAddr background name image size args = .ok s') :
    TableStep s.kernel [] [] s'.kernel ∧ s'.kernel.Running ∧ s'.AtOk ∧ s'.pending = [] := by
  unfold Jobs.cmdRun at hstep
  obtain ⟨⟨pid, kernel⟩, hspawn, hstep⟩ := ok_of_bind hstep
  obtain ⟨hcur', htable⟩ := taskSpawnUser_table hspawn
  have hshell : kernel.tasks 0 = s.kernel.tasks 0 := htable.same_of_live (by simp [h.shell])
  rw [hcur] at hcur'
  have hrunning : kernel.Running := h.of_shell hcur' hshell
  simp only at hstep
  split_ifs at hstep with hneg hback
  · cases hstep
    exact ⟨htable.tableStep, hrunning, trivial, rfl⟩
  · obtain ⟨kernel', hprint, hstep⟩ := ok_of_bind hstep
    obtain ⟨text, -, rfl⟩ := printf_ok hprint
    cases hstep
    refine ⟨?_, ⟨hrunning.lt, hrunning.shell, hrunning.ready⟩, trivial, rfl⟩
    have hput : SpawnTable s.kernel pid (kernel.puts text) := by
      cases htable with
      | failed hr htasks hnext => exact .failed hr htasks hnext
      | started i t hi hfree htasks hstate hpid hr hnext =>
        exact .started i t hi hfree htasks hstate hpid hr hnext
    exact hput.tableStep
  · cases hstep
    refine ⟨htable.tableStep, hrunning, ?_, rfl⟩
    cases htable with
    | failed hr _ _ =>
      rw [hr] at hneg
      exact absurd (by decide) hneg
    | started i t hi hfree htasks hstate hpid hr hnext =>
      have hnew : kernel.tasks i = t := by rw [htasks, Function.update_self]
      refine ⟨i, ?_, hi, ?_, ?_⟩
      · rintro rfl
        rw [h.shell] at hfree
        cases hfree
      · simp [hnew, hstate]
      · simp [hnew, hpid, hr]

/-- **One step** of the machine. -/
theorem JobStep.table {e : JobEvent} (h : JobStep fs fails kdir userEntryAddr s e s') (hat : s.AtOk)
    (hrun : s.kernel.Running) (hp : Pids s.kernel) (hlt : s.kernel.nextPid + 1 < 2 ^ 31) :
    TableStep s.kernel (exitsOf (s, e)) ((collectedOf (s, e)).map Prod.snd) s'.kernel ∧
      s'.kernel.Running ∧ s'.AtOk ∧
      s.pending ++ toldOf (s, e) = (collectedOf (s, e)).filter isTold ++ s'.pending := by
  cases h with
  | shell hcur hstep => exact Jobs.shellStep_table hat hrun hp hlt hcur hstep
  | run hcur hprompt hstep =>
    obtain ⟨htable, hrun', hat', hpending⟩ := Jobs.cmdRun_table hrun hcur hstep
    refine ⟨htable, hrun', hat', ?_⟩
    rw [hpending, Jobs.pending, hprompt]
    rfl
  | work phys files hcur =>
    have htable : TableStep s.kernel [] [] { s.kernel with phys := phys, files := files } :=
      .quiet (fun _ => kept_of_eq rfl) rfl
    obtain ⟨hat', hpending⟩ := Jobs.AtOk.step hat htable hrun.ready
    refine ⟨htable, ⟨hrun.lt, hrun.shell, hrun.ready⟩, hat', ?_⟩
    exact (List.append_nil _).trans hpending.symm
  | @task kernel e hof hby hexec =>
    obtain ⟨htable, hrun'⟩ := e.exec_table hof hby hrun hexec s.shell
    obtain ⟨hat', hpending⟩ := Jobs.AtOk.step hat htable hrun.ready
    refine ⟨htable, hrun', hat', ?_⟩
    exact (List.append_nil _).trans hpending.symm

/-! ## Pids are not used twice -/

/-- The exits so far are of different tasks, none of which is ready. -/
structure FreshExits (xs : List Exit) (k : Kernel) : Prop where
  below : ∀ x ∈ xs, x.1 < k.nextPid
  ready : ∀ x ∈ xs, ∀ i, (k.tasks i).state = .ready → (k.tasks i).pid ≠ x.1
  nodup : (xs.map Prod.fst).Nodup

/-- A task becomes ready with a pid that was not given yet. -/
theorem FreshExits.later {xs : List Exit} (h : FreshExits xs k) (hnext : k.nextPid ≤ k'.nextPid)
    (hold : ∀ i, (k'.tasks i).state = .ready →
      (k.tasks i).state = .ready ∧ (k'.tasks i).pid = (k.tasks i).pid ∨ (k'.tasks i).pid = k.nextPid) :
    FreshExits xs k' := by
  refine ⟨fun x hx => (h.below x hx).trans_le hnext, fun x hx i hi => ?_, h.nodup⟩
  rcases hold i hi with ⟨hready, hpid⟩ | hpid
  · rw [hpid]
    exact h.ready x hx i hready
  · rw [hpid]
    exact (h.below x hx).ne'

theorem FreshExits.step {xs : List Exit} (h : FreshExits xs k) (hstep : TableStep k out gone k')
    (hready : (k.tasks k.current).state = .ready) (hp : Pids k) (hlt : k.nextPid + 1 < 2 ^ 31) :
    FreshExits (xs ++ out) k' := by
  cases hstep with
  | quiet hkept hnext =>
    rw [List.append_nil]
    exact h.later hnext.ge (fun i hi => Or.inl ⟨(hkept i).state ▸ hi, (hkept i).pid⟩)
  | exits code e _ htask hkept hnext =>
    have hother : ∀ i, (k'.tasks i).state = .ready →
        i ≠ k.current ∧ (k.tasks i).state = .ready ∧ (k'.tasks i).pid = (k.tasks i).pid := by
      intro i hi
      have hcur : i ≠ k.current := by
        rintro rfl
        rw [htask] at hi
        cases hi
      exact ⟨hcur, (hkept i hcur).state ▸ hi, (hkept i hcur).pid⟩
    have hxs := h.later hnext.ge (fun i hi => Or.inl (hother i hi).2)
    refine ⟨fun x hx => ?_, fun x hx i hi => ?_, ?_⟩
    · rcases List.mem_append.1 hx with hx | hx
      · exact hxs.below x hx
      · rw [List.mem_singleton.1 hx, hnext]
        exact hp.below k.current (by simp [hready])
    · rcases List.mem_append.1 hx with hx | hx
      · exact hxs.ready x hx i hi
      · obtain ⟨hcur, hold, hpid⟩ := hother i hi
        rw [List.mem_singleton.1 hx, hpid]
        exact fun heq => hcur (hp.distinct i k.current (by simp [hold]) (by simp [hready]) heq)
    · rw [List.map_append]
      refine List.nodup_append'.2 ⟨h.nodup, List.nodup_singleton _, ?_⟩
      intro pid hpid hmem
      obtain ⟨x, hx, rfl⟩ := List.mem_map.1 hpid
      exact h.ready x hx k.current hready (List.mem_singleton.1 hmem).symm
  | starts j t _ _ htasks _ hpid hnext =>
    rw [List.append_nil]
    have hnext' : k'.nextPid = k.nextPid + 1 := hnext.trans (Nat.mod_eq_of_lt (by omega))
    refine h.later (by omega) (fun i hi => ?_)
    rw [htasks] at hi ⊢
    by_cases hij : i = j
    · subst hij
      rw [Function.update_self]
      exact Or.inr hpid
    · rw [Function.update_of_ne hij] at hi ⊢
      exact Or.inl ⟨hi, rfl⟩
  | collects j _ _ htasks hnext =>
    rw [List.append_nil]
    refine h.later hnext.ge (fun i hi => Or.inl ?_)
    rw [htasks] at hi ⊢
    by_cases hij : i = j
    · subst hij
      rw [Function.update_self] at hi
      cases hi
    · rw [Function.update_of_ne hij] at hi ⊢
      exact ⟨hi, rfl⟩

/-! ## Whole runs -/

/-- What holds behind the steps `tr`. -/
structure JobInv (tr : List (Jobs × JobEvent)) (s : Jobs) : Prop where
  running : s.kernel.Running
  at_ok : s.AtOk
  pids : Pids s.kernel
  conserved : (tr.flatMap exitsOf).Perm ((tr.flatMap collectedOf).map Prod.snd ++ s.kernel.zombies)
  told : tr.flatMap toldOf = (tr.flatMap collectedOf).filter isTold ++ s.pending
  fresh : FreshExits (tr.flatMap exitsOf) s.kernel

theorem JobInv.step {tr : List (Jobs × JobEvent)} {e : JobEvent} (h : JobInv tr s)
    (hstep : JobStep fs fails kdir userEntryAddr s e s') (hlt : s.kernel.nextPid + 1 < 2 ^ 31) :
    JobInv (tr ++ [(s, e)]) s' := by
  obtain ⟨htable, hrun, hat, htold⟩ := hstep.table h.at_ok h.running h.pids hlt
  have hready := h.running.ready
  refine ⟨hrun, hat, h.pids.change (htable.change hready) (by omega), ?_, ?_, ?_⟩
  · have hcons := htable.conserves h.running.lt hready
    simp only [List.flatMap_append, List.flatMap_singleton, List.map_append]
    refine (h.conserved.append_right _).trans ?_
    rw [List.append_assoc, List.append_assoc]
    exact (List.perm_append_comm.trans hcons).append_left _
  · simp only [List.flatMap_append, List.flatMap_singleton, List.filter_append]
    rw [h.told, List.append_assoc, htold, List.append_assoc]
  · simp only [List.flatMap_append, List.flatMap_singleton]
    exact h.fresh.step htable hready h.pids hlt

theorem taskInit_pids (kdir : ℕ) (phys : Phys) (files : FileSys) :
    Pids (taskInit kdir (Kernel.boot kdir phys files)) := by
  have hlive : ∀ i, ((taskInit kdir (Kernel.boot kdir phys files)).tasks i).state ≠ .free → i = 0 := by
    intro i hi
    by_contra h0
    rw [taskInit_task h0] at hi
    exact hi rfl
  refine ⟨fun i hi => ?_, fun i j hi hj _ => ?_⟩
  · rw [hlive i hi]
    exact Nat.lt_succ_self 1
  · rw [hlive i hi, hlive j hj]

theorem jobInv_boot (kdir : ℕ) (phys : Phys) (files : FileSys) : JobInv [] (Jobs.boot kdir phys files) := by
  have hzombies : (Jobs.boot kdir phys files).kernel.zombies = [] := by
    refine List.flatMap_eq_nil_iff.2 (fun i _ => if_neg ?_)
    by_cases h0 : i = 0
    · subst h0
      simp [Jobs.boot, taskInit]
    · simp only [Jobs.boot, taskInit_task h0]
      decide
  refine ⟨⟨Nat.succ_pos 7, rfl, rfl⟩, trivial, taskInit_pids kdir phys files, ?_, rfl, ?_⟩
  · rw [hzombies]
    exact List.Perm.refl _
  · exact ⟨fun x hx => absurd hx List.not_mem_nil, fun x hx => absurd hx List.not_mem_nil, List.nodup_nil⟩

theorem JobRun.inv {phys : Phys} {files : FileSys} {tr : List (Jobs × JobEvent)}
    (h : JobRun fs fails kdir userEntryAddr (Jobs.boot kdir phys files) tr s)
    (hpid : ∀ x ∈ tr, x.1.kernel.nextPid + 1 < 2 ^ 31) : JobInv tr s := by
  induction h with
  | nil => exact jobInv_boot kdir phys files
  | @snoc tr s s' e _ hstep ih =>
    have hinv := ih (fun x hx => hpid x (List.mem_append_left _ hx))
    exact hinv.step hstep (hpid (s, e) (List.mem_append_right _ (List.mem_singleton_self _)))

/-- The line about an exit. -/
def lineOf (name : Bytes) (c : Bool × Exit) : Bytes :=
  if c.1 then ([.text (str "exit code "), .int c.2.2, .text (str "\n")] : List Piece).flatMap Piece.shown
  else ([.text (str "["), .int c.2.1, .text (str "] "), .string (some name), .text (str " exited ("),
    .int c.2.2, .text (str ")\n")] : List Piece).flatMap Piece.shown

theorem nameText_no_nul (t : Task) : (0 : UInt8) ∉ t.nameText := by
  intro hmem
  simpa using List.mem_takeWhile_imp hmem

/-- What `reap_zombies` prints for slot `i`. -/
theorem printf_exited {t : Task} (hpid : t.pid < 2 ^ 31) (hlo : -2 ^ 31 < t.exitCode)
    (hhi : t.exitCode < 2 ^ 31) :
    kprintfText (str "[%d] %s exited (%d)\n") [.word (UInt32.ofNat t.pid), .str (some t.nameText),
      .word (UInt32.ofInt t.exitCode)] = some (lineOf t.nameText (false, t.pid, t.exitCode)) := by
  have hok : ∀ p ∈ ([.text (str "["), .int t.pid, .text (str "] "), .string (some t.nameText),
      .text (str " exited ("), .int t.exitCode, .text (str ")\n")] : List Piece), p.Ok := by
    simp only [List.forall_mem_cons, List.not_mem_nil, false_imp_iff, implies_true, and_true]
    refine ⟨by decide, ⟨by omega, by exact_mod_cast hpid⟩, by decide, nameText_no_nul t, by decide,
      ⟨hlo, hhi⟩, by decide⟩
  have hword : UInt32.ofInt (t.pid : Int) = UInt32.ofNat t.pid := by
    refine congrArg UInt32.ofNat ?_
    omega
  have htext := kprintfText_pieces hok
  simp only [List.flatMap_cons, List.flatMap_nil, Piece.args, Piece.fmt, hword] at htext
  exact htext

/-- What `cmd_run` prints for a job that failed. -/
theorem printf_exitCode (name : Bytes) (pid : ℕ) {code : Int} (hlo : -2 ^ 31 < code) (hhi : code < 2 ^ 31) :
    kprintfText (str "exit code %d\n") [.word (UInt32.ofInt code)]
      = some (lineOf name (true, pid, code)) := by
  have hok : ∀ p ∈ ([.text (str "exit code "), .int code, .text (str "\n")] : List Piece), p.Ok := by
    simp only [List.forall_mem_cons, List.not_mem_nil, false_imp_iff, implies_true, and_true]
    exact ⟨by decide, ⟨hlo, hhi⟩, by decide⟩
  have htext := kprintfText_pieces hok
  simp only [List.flatMap_cons, List.flatMap_nil, Piece.args, Piece.fmt] at htext
  exact htext

/-- The slot that the shell looks at. -/
def ShellAt.slot : ShellAt → ℕ
  | .reaping i => i
  | .reported i => i
  | .waiting _ t => t
  | .exited _ t => t
  | _ => 0

/-- The shell is about to call `task_reap`. -/
def ShellAt.reaps : ShellAt → Bool
  | .reported _ => true
  | .exited _ _ => true
  | _ => false

/-- **What is told is printed**, and nothing else, until `task_reap` may complain about the disk. -/
theorem Jobs.shellStep_prints (hp : Pids s.kernel) (hlt : s.kernel.nextPid + 1 < 2 ^ 31)
    (hcodes : ∀ i, (s.kernel.tasks i).state = .zombie →
      -2 ^ 31 < (s.kernel.tasks i).exitCode ∧ (s.kernel.tasks i).exitCode < 2 ^ 31)
    (hreaps : s.shell.reaps = false) (hstep : s.shellStep fs fails = .ok s') :
    s'.kernel.files.fat.console = s.kernel.files.fat.console ++
      (toldOf (s, .shell)).flatMap (lineOf (s.kernel.tasks s.shell.slot).nameText) := by
  obtain ⟨k, shell⟩ := s
  cases shell with
  | reaping i =>
    simp only [Jobs.shellStep] at hstep
    split_ifs at hstep with hi hz
    · obtain ⟨kernel, hprint, hstep⟩ := ok_of_bind hstep
      obtain ⟨text, htext, rfl⟩ := printf_ok hprint
      cases hstep
      have hbelow : (k.tasks i).pid < 2 ^ 31 :=
        lt_trans (hp.below i (by simp [hz])) (lt_trans (Nat.lt_succ_self k.nextPid) hlt)
      rw [printf_exited hbelow (hcodes i hz).1 (hcodes i hz).2] at htext
      cases htext
      simp [toldOf, hi, Task.exit, hz, Kernel.puts, ShellAt.slot]
    · cases hstep
      simp [toldOf, hi, Task.exit, hz]
    · cases hstep
      simp [toldOf, hi]
  | reported _ | exited _ _ => cases hreaps
  | prompt =>
    cases hstep
    exact (List.append_nil _).symm
  | spawned pid =>
    simp only [Jobs.shellStep] at hstep
    split at hstep
    · cases hstep
    · cases hstep
      exact (List.append_nil _).symm
  | waiting pid t =>
    simp only [Jobs.shellStep] at hstep
    split_ifs at hstep with hz hcode
    · obtain ⟨kernel, hprint, hstep⟩ := ok_of_bind hstep
      obtain ⟨text, htext, rfl⟩ := printf_ok hprint
      cases hstep
      rw [printf_exitCode (k.tasks t).nameText (k.tasks t).pid (hcodes t hz).1 (hcodes t hz).2] at htext
      cases htext
      simp [toldOf, Task.exit, hz, isTold, hcode, Kernel.puts, ShellAt.slot]
    · cases hstep
      simp [toldOf, Task.exit, hz, isTold, not_not.1 hcode]
    · cases hstep
      simp [toldOf, Task.exit, hz]

/-- What is known of the exits in a state that the steps `tr` lead to. -/
structure ExitsTold (fs : Fs) (fails : Faults) (tr : List (Jobs × JobEvent)) (s : Jobs) : Prop where
  /-- Every exit has been collected once or is still a zombie. -/
  conserved : (tr.flatMap exitsOf).Perm ((tr.flatMap collectedOf).map Prod.snd ++ s.kernel.zombies)
  /-- They are exits of different tasks. -/
  distinct : ((tr.flatMap exitsOf).map Prod.fst).Nodup
  /-- The exits that were printed are those that were collected, in the same order. -/
  told : tr.flatMap toldOf = (tr.flatMap collectedOf).filter isTold ++ s.pending
  /-- The next one will be printed as it is. -/
  printed : ∀ s', (∀ i, (s.kernel.tasks i).state = .zombie →
      -2 ^ 31 < (s.kernel.tasks i).exitCode ∧ (s.kernel.tasks i).exitCode < 2 ^ 31) →
    s.kernel.nextPid + 1 < 2 ^ 31 → s.shell.reaps = false → s.shellStep fs fails = .ok s' →
    s'.kernel.files.fat.console = s.kernel.files.fat.console ++
      (toldOf (s, .shell)).flatMap (lineOf (s.kernel.tasks s.shell.slot).nameText)

/-- **No exit is lost or told twice**, however the tasks and the shell interleave. -/
theorem exits_told_once {phys : Phys} {files : FileSys} {tr : List (Jobs × JobEvent)} {s : Jobs}
    (hrun : JobRun fs fails kdir userEntryAddr (Jobs.boot kdir phys files) tr s)
    (hpid : ∀ x ∈ tr, x.1.kernel.nextPid + 1 < 2 ^ 31) : ExitsTold fs fails tr s := by
  have h := hrun.inv hpid
  refine ⟨h.conserved, h.fresh.nodup, h.told, fun s' hcodes hlt hreaps hstep => ?_⟩
  exact Jobs.shellStep_prints h.pids hlt hcodes hreaps hstep

/-- **`cmd_run` waits for its own job**: `task_by_pid` returns the task that was started and never
    `NULL`, and the task that the loop looks at keeps the pid until the shell has collected it. -/
theorem foreground_job_found {phys : Phys} {files : FileSys} {tr : List (Jobs × JobEvent)} {s : Jobs}
    (hrun : JobRun fs fails kdir userEntryAddr (Jobs.boot kdir phys files) tr s)
    (hpid : ∀ x ∈ tr, x.1.kernel.nextPid + 1 < 2 ^ 31) (hlt : s.kernel.nextPid + 1 < 2 ^ 31) :
    (∀ pid, s.shell = .spawned pid → ∃ t, taskByPid s.kernel.tasks pid = some t ∧ IsJob s.kernel pid t) ∧
    (∀ pid t, s.shell = .waiting pid t ∨ s.shell = .exited pid t → IsJob s.kernel pid t) ∧
    (∀ pid t, s.shell = .exited pid t → (s.kernel.tasks t).state = .zombie) := by
  have h := hrun.inv hpid
  have hat := h.at_ok
  refine ⟨fun pid hs => ?_, fun pid t hs => ?_, fun pid t hs => ?_⟩
  · rw [Jobs.AtOk, hs] at hat
    obtain ⟨t, ht⟩ := hat
    exact ⟨t, taskByPid_of_isJob ht h.pids hlt, ht⟩
  · rcases hs with hs | hs
    · rw [Jobs.AtOk, hs] at hat
      exact hat
    · rw [Jobs.AtOk, hs] at hat
      exact hat.1
  · rw [Jobs.AtOk, hs] at hat
    exact hat.2

end Table

/-! ## A run -/

instance (e : TaskEvent) : Decidable e.OfProgram := by
  induction e using TaskEvent.casesOn <;> unfold TaskEvent.OfProgram <;> infer_instance

section Exec

variable (fs : Fs) (fails : Faults) (kdir userEntryAddr : ℕ)

/-- One step, if it can be made. -/
def Jobs.exec (s : Jobs) : JobEvent → Option Jobs
  | .shell => if s.kernel.current = 0 then (s.shellStep fs fails).toOption else none
  | .run background name image size args =>
    if s.kernel.current = 0 ∧ s.shell = .prompt then
      (s.cmdRun kdir userEntryAddr background name image size args).toOption
    else none
  | .work phys files =>
    if s.kernel.current = 0 then some { s with kernel := { s.kernel with phys := phys, files := files } }
    else none
  | .task e =>
    if e.OfProgram ∧ e.By s.kernel then
      (e.exec fs fails kdir userEntryAddr s.kernel).toOption.map (fun kernel => { s with kernel := kernel })
    else none

/-- Steps one after another, with the trace they leave. -/
def Jobs.execAll : List JobEvent → Jobs → Option (List (Jobs × JobEvent) × Jobs)
  | [], s => some ([], s)
  | e :: es, s => (s.exec fs fails kdir userEntryAddr e).bind (fun s' =>
      (execAll es s').map (fun r => ((s, e) :: r.1, r.2)))

variable {fs fails kdir userEntryAddr}

theorem toOption_eq_some {α : Type} {x : Except Stop α} {a : α} (h : x.toOption = some a) : x = .ok a := by
  cases x with
  | error w => cases h
  | ok b => exact congrArg _ (Option.some.inj h)

theorem Jobs.exec_step {s s' : Jobs} {e : JobEvent} (h : s.exec fs fails kdir userEntryAddr e = some s') :
    JobStep fs fails kdir userEntryAddr s e s' := by
  cases e with
  | shell =>
    simp only [Jobs.exec] at h
    split_ifs at h with hcur
    exact .shell hcur (toOption_eq_some h)
  | run background name image size args =>
    simp only [Jobs.exec] at h
    split_ifs at h with hcur
    exact .run hcur.1 hcur.2 (toOption_eq_some h)
  | work phys files =>
    simp only [Jobs.exec] at h
    split_ifs at h with hcur
    cases h
    exact .work phys files hcur
  | task e =>
    simp only [Jobs.exec] at h
    split_ifs at h with hby
    obtain ⟨kernel, hexec, rfl⟩ := Option.map_eq_some_iff.1 h
    exact .task hby.1 hby.2 (toOption_eq_some hexec)

theorem JobRun.execAll {s0 s s' : Jobs} {tr tr' : List (Jobs × JobEvent)} {es : List JobEvent}
    (hrun : JobRun fs fails kdir userEntryAddr s0 tr s)
    (h : s.execAll fs fails kdir userEntryAddr es = some (tr', s')) :
    JobRun fs fails kdir userEntryAddr s0 (tr ++ tr') s' := by
  induction es generalizing tr tr' s with
  | nil =>
    cases h
    rw [List.append_nil]
    exact hrun
  | cons e es ih =>
    obtain ⟨s1, hexec, h⟩ := Option.bind_eq_some_iff.1 h
    obtain ⟨⟨tr1, s2⟩, hrest, heq⟩ := Option.map_eq_some_iff.1 h
    cases heq
    have hrun' := ih (hrun.snoc (Jobs.exec_step hexec)) hrest
    rwa [List.append_assoc, List.singleton_append] at hrun'

end Exec

/-- Nothing is to be collected at first, and then the tiny program is run. -/
def startJob : List JobEvent :=
  List.replicate 9 .shell ++ [.run false (str "TINY") tinyImage 86 (str "x")]

/-- It exits with the code 3 when it gets the processor, and the shell collects it. -/
def finishJob : List JobEvent :=
  [.task (.preempt 0x8FFC0), .task (.exit 3 0x101000), .shell, .shell, .shell]

/-- The shell after boot on the machine with 16 MiB. -/
def mediumJobs : Jobs := Jobs.boot 0x900000 mediumPhys (smallFiles [] [] [])

theorem exits_told_once_tiny : ∃ tr s,
    JobRun smallFs noFaults 0x900000 0x10200 mediumJobs tr s ∧
    tr.flatMap exitsOf = [(2, 3)] ∧ tr.flatMap toldOf = [(true, 2, 3)] ∧
    ExitsTold smallFs noFaults tr s := by
  have hres : (mediumJobs.execAll smallFs noFaults 0x900000 0x10200 (startJob ++ finishJob)).map
      (fun r => (r.1.flatMap exitsOf, r.1.flatMap toldOf,
        r.1.all (fun x => x.1.kernel.nextPid + 1 < 2 ^ 31)))
      = some ([(2, 3)], [(true, 2, 3)], true) := by decide +kernel
  obtain ⟨⟨tr, s⟩, hexec, heq⟩ := Option.map_eq_some_iff.1 hres
  simp only [Prod.mk.injEq, List.all_eq_true, decide_eq_true_eq] at heq
  have hrun := JobRun.nil.execAll hexec
  rw [List.nil_append] at hrun
  exact ⟨tr, s, hrun, heq.1, heq.2.1, exits_told_once hrun heq.2.2⟩

theorem foreground_job_found_tiny : ∃ tr s,
    JobRun smallFs noFaults 0x900000 0x10200 mediumJobs tr s ∧ s.shell = .spawned 2 ∧
    ∃ t, taskByPid s.kernel.tasks 2 = some t ∧ IsJob s.kernel 2 t := by
  have hres : (mediumJobs.execAll smallFs noFaults 0x900000 0x10200 startJob).map
      (fun r => (r.2.shell, r.2.kernel.nextPid,
        r.1.all (fun x => x.1.kernel.nextPid + 1 < 2 ^ 31)))
      = some (.spawned 2, 3, true) := by decide +kernel
  obtain ⟨⟨tr, s⟩, hexec, heq⟩ := Option.map_eq_some_iff.1 hres
  simp only [Prod.mk.injEq, List.all_eq_true, decide_eq_true_eq] at heq
  have hrun := JobRun.nil.execAll hexec
  rw [List.nil_append] at hrun
  have hlt : s.kernel.nextPid + 1 < 2 ^ 31 := by
    rw [heq.2.1]
    decide
  exact ⟨tr, s, hrun, heq.1, (foreground_job_found hrun heq.2.2 hlt).1 2 heq.1⟩

end OctoOS
