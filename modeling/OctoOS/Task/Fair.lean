import OctoOS.Task.Lifecycle
import OctoOS.Lib.RoundRobin

set_option autoImplicit false

/-! # Every ready task runs

`schedule` goes round the table from the slot behind the current one. A task that waits stays ready,
since only the shell's reaping and the task's own exit could change that, and with every call of
`schedule` the current slot comes nearer to its own. So it runs before `schedule` has been called
once for every other slot, whatever the other tasks do in between. -/

namespace OctoOS

open Atomic RoundRobin

variable {fs : Fs} {fails : Faults} {kdir userEntryAddr : ℕ} {s s' s0 : Kernel} {j : ℕ}
  {e : TaskEvent} {es : List TaskEvent}

/-- The events that call `schedule`. -/
def TaskEvent.isTurn : TaskEvent → Bool
  | .preempt _ => true
  | .exit _ _ => true
  | _ => false

theorem nextReady_eq_pick (tasks : ℕ → Task) (c : ℕ) :
    nextReady tasks c = pick maxTasks (fun i => (tasks i).state = .ready) c := rfl

/-- A call of `schedule` brings the turn nearer to a ready task. -/
theorem schedule_nearer (hlt : s.current < maxTasks) (hj : j < maxTasks) (hne : s.current ≠ j)
    (hready : (s.tasks j).state = .ready) (esp : ℕ) :
    (schedule esp s).current < maxTasks ∧
      ahead maxTasks (schedule esp s).current j < ahead maxTasks s.current j := by
  have hplace : decide ((s.tasks j).state = .ready) = true := by simpa using hready
  obtain ⟨d, hpick, hd, -, hnear⟩ :=
    pick_nearer (fun i => decide ((s.tasks i).state = .ready)) hlt hj hne hplace
  have hmoved : d ≠ s.current := by
    intro heq
    rw [heq] at hnear
    exact lt_irrefl _ hnear
  have hsched : schedule esp s = switchTo d esp s := by
    unfold schedule
    rw [nextReady_eq_pick, hpick, Option.getD_some, if_neg hmoved]
  rw [hsched]
  exact ⟨hd, hnear⟩

/-- What a call of `task_spawn_user` leaves of the table: it fails and changes nothing there, or the
    task `t` stands in a slot that was free. -/
inductive SpawnTable (s : Kernel) (r : Int) (s' : Kernel) : Prop where
  | failed : r = -1 → s'.tasks = s.tasks → s'.nextPid = s.nextPid → SpawnTable s r s'
  | started (i : ℕ) (t : Task) : i < maxTasks → (s.tasks i).state = .free →
      s'.tasks = Function.update s.tasks i t → t.state = .ready → t.pid = s.nextPid →
      r = toInt32 s.nextPid → s'.nextPid = w32 (s.nextPid + 1) → SpawnTable s r s'

theorem taskSpawnUser_table {name args : Bytes} {image : ℕ → UInt8} {size : ℕ} {r : Int}
    (h : taskSpawnUser kdir userEntryAddr name image size args s = .ok (r, s')) :
    s'.current = s.current ∧ SpawnTable s r s' := by
  unfold taskSpawnUser at h
  cases hslot : freeTask s.tasks with
  | none =>
    simp only [hslot] at h
    cases h
    exact ⟨rfl, .failed rfl rfl rfl⟩
  | some slot =>
    obtain ⟨hlt, hfree⟩ := freeTask_eq_some hslot
    simp only [hslot] at h
    split_ifs at h with hdir
    · cases h
      exact ⟨rfl, .failed rfl rfl rfl⟩
    · split at h
      · cases h
      · cases h
        exact ⟨rfl, .failed rfl rfl rfl⟩
      · split at h
        · cases h
        · split_ifs at h with hnull
          · cases h
            exact ⟨rfl, .failed rfl rfl rfl⟩
          · cases h
            exact ⟨rfl, .started slot _ hlt hfree rfl rfl rfl rfl rfl⟩

/-- What a call of `task_reap` leaves of the table: a zombie is gone. -/
theorem taskReap_table {i : ℕ} (h : taskReap fs fails i s = .ok s') :
    s'.current = s.current ∧ s'.nextPid = s.nextPid ∧ s'.tasks =
      if (s.tasks i).state = .zombie then Function.update s.tasks i Task.zero else s.tasks := by
  unfold taskReap at h
  by_cases hz : (s.tasks i).state = .zombie
  · rw [if_neg (not_not.2 hz)] at h
    obtain ⟨files, -, h⟩ := ok_of_bind h
    simp only at h
    rw [if_pos hz]
    split_ifs at h with hstack
    all_goals
      obtain ⟨heap, -, h⟩ := ok_of_bind h
      cases h
      exact ⟨rfl, rfl, rfl⟩
  · rw [if_pos hz] at h
    cases h
    exact ⟨rfl, rfl, (if_neg hz).symm⟩

theorem SpawnTable.same_of_live {r : Int} (h : SpawnTable s r s') (hlive : (s.tasks j).state ≠ .free) :
    s'.tasks j = s.tasks j := by
  cases h with
  | failed _ htasks _ => rw [htasks]
  | started i t _ hfree htasks _ _ _ _ =>
    rw [htasks]
    refine Function.update_of_ne (fun heq => ?_) _ _
    exact hlive (heq ▸ hfree)

theorem taskReap_same {i : ℕ} (h : taskReap fs fails i s = .ok s')
    (hne : (s.tasks j).state ≠ .zombie) : s'.tasks j = s.tasks j := by
  rw [(taskReap_table h).2.2]
  split_ifs with hz
  · refine Function.update_of_ne (fun heq => ?_) _ _
    exact hne (heq ▸ hz)
  · rfl

/-- A request for a file changes the files only. -/
theorem TaskEvent.exec_file {r : FileRequest}
    (hexec : (TaskEvent.file r).exec fs fails kdir userEntryAddr s = .ok s') :
    ∃ files, s' = { s with files := files } := by
  rw [TaskEvent.exec] at hexec
  cases hres : (r.call (s.tasks s.current).pid).exec fs fails s.files with
  | error w =>
    rw [hres] at hexec
    cases hexec
  | ok x =>
    rw [hres] at hexec
    exact ⟨x.2, (Except.ok.inj hexec).symm⟩

/-- **One event** while `j` waits: it stays ready, and a turn goes to a task nearer to it. -/
theorem TaskEvent.exec_waits (hby : e.By s) (hexec : e.exec fs fails kdir userEntryAddr s = .ok s')
    (hlt : s.current < maxTasks) (hj : j < maxTasks) (hne : s.current ≠ j)
    (hready : (s.tasks j).state = .ready) :
    (s'.tasks j).state = .ready ∧ s'.current < maxTasks ∧
      ahead maxTasks s'.current j + (if e.isTurn then 1 else 0) ≤ ahead maxTasks s.current j := by
  -- an event that leaves the task and the turn as they are
  have hsame : s'.current = s.current ∧ s'.tasks j = s.tasks j → e.isTurn = false →
      (s'.tasks j).state = .ready ∧ s'.current < maxTasks ∧
        ahead maxTasks s'.current j + (if e.isTurn then 1 else 0) ≤ ahead maxTasks s.current j := by
    intro hs' hturn
    rw [hs'.1, hs'.2, hturn]
    exact ⟨hready, hlt, le_refl _⟩
  cases e with
  | spawn name image size args =>
    rw [TaskEvent.exec] at hexec
    cases hres : taskSpawnUser kdir userEntryAddr name image size args s with
    | error w =>
      rw [hres] at hexec
      cases hexec
    | ok r =>
      rw [hres] at hexec
      cases hexec
      obtain ⟨hcur, htable⟩ := taskSpawnUser_table hres
      exact hsame ⟨hcur, htable.same_of_live (by simp [hready])⟩ rfl
  | reap i => exact hsame ⟨(taskReap_table hexec).1, taskReap_same hexec (by simp [hready])⟩ rfl
  | preempt esp =>
    cases hexec
    obtain ⟨hlt', hnear⟩ := schedule_nearer hlt hj hne hready esp
    obtain ⟨sp, htask⟩ := schedule_task esp s j
    rw [htask]
    exact ⟨hready, hlt', hnear⟩
  | exit code esp =>
    cases hexec
    have hold : (markZombie code s).tasks j = s.tasks j := markZombie_of_ne code hne.symm
    have hready' : ((markZombie code s).tasks j).state = .ready := by
      rw [hold]
      exact hready
    obtain ⟨hlt', hnear⟩ := schedule_nearer (s := markZombie code s) hlt hj hne hready' esp
    obtain ⟨sp, htask⟩ := schedule_task esp (markZombie code s) j
    rw [taskExit, htask]
    exact ⟨hready', hlt', hnear⟩
  | store va b =>
    simp only [TaskEvent.exec] at hexec
    split at hexec
    · cases hexec
      exact hsame ⟨rfl, rfl⟩ rfl
    · cases hexec
      exact hsame ⟨rfl, rfl⟩ rfl
  | file r =>
    obtain ⟨files, rfl⟩ := TaskEvent.exec_file hexec
    exact hsame ⟨rfl, rfl⟩ rfl

/-- The task `j` is ready and does not have the processor. -/
def Kernel.Waits (s : Kernel) (j : ℕ) : Prop := s.current ≠ j ∧ (s.tasks j).state = .ready

/-- The task `j` had the processor after one of the events `es`, as the ready task it was in every
    state until then. -/
def RanIn (fs : Fs) (fails : Faults) (kdir userEntryAddr : ℕ) (s0 : Kernel) (es : List TaskEvent)
    (j : ℕ) : Prop :=
  ∃ before after s, es = before ++ after ∧
    TaskRun fs fails kdir userEntryAddr (fun s e => e.By s ∧ s.Waits j) s0 before s ∧
    s.current = j ∧ (s.tasks j).state = .ready ∧ before.countP TaskEvent.isTurn < maxTasks

/-- **A whole run**: `j` has run, or it still waits and the turns so far have come nearer to it. -/
theorem TaskRun.waits (hlt : s0.current < maxTasks) (hj : j < maxTasks)
    (hready : (s0.tasks j).state = .ready)
    (hrun : TaskRun fs fails kdir userEntryAddr (fun s e => e.By s) s0 es s) :
    RanIn fs fails kdir userEntryAddr s0 es j ∨
      (TaskRun fs fails kdir userEntryAddr (fun s e => e.By s ∧ s.Waits j) s0 es s ∧ s.Waits j ∧
        s.current < maxTasks ∧
        ahead maxTasks s.current j + es.countP TaskEvent.isTurn ≤ ahead maxTasks s0.current j) := by
  have hmax := ahead_lt hlt hj
  induction hrun with
  | nil =>
    by_cases hcur : s0.current = j
    · exact Or.inl ⟨[], [], s0, rfl, .nil, hcur, hready, by decide⟩
    · exact Or.inr ⟨.nil, ⟨hcur, hready⟩, hlt, le_refl _⟩
  | @snoc es s s' e _ hby hexec ih =>
    rcases ih with ⟨before, after, t, heq, hbefore, hran⟩ | ⟨hrun, hwait, hlt, hnear⟩
    · left
      exact ⟨before, after ++ [e], t, by rw [heq, List.append_assoc], hbefore, hran⟩
    · obtain ⟨hready', hlt', hnear'⟩ := e.exec_waits hby hexec hlt hj hwait.1 hwait.2
      have hrun' := hrun.snoc ⟨hby, hwait⟩ hexec
      have hcount : (es ++ [e]).countP TaskEvent.isTurn
          = es.countP TaskEvent.isTurn + if e.isTurn then 1 else 0 := by
        rw [List.countP_append, List.countP_singleton]
      by_cases hcur : s'.current = j
      · left
        exact ⟨es ++ [e], [], s', (List.append_nil _).symm, hrun', hcur, hready', by omega⟩
      · right
        exact ⟨hrun', ⟨hcur, hready'⟩, hlt', by omega⟩

/-- **No ready task starves**: in every run in which `schedule` is called once for every other slot,
    a task that is ready at the start gets the processor, after fewer than `MAX_TASKS` calls, and it
    stays ready until then. -/
theorem ready_task_runs (hlt : s0.current < maxTasks) (hj : j < maxTasks)
    (hready : (s0.tasks j).state = .ready)
    (hrun : TaskRun fs fails kdir userEntryAddr (fun s e => e.By s) s0 es s)
    (hturns : maxTasks ≤ es.countP TaskEvent.isTurn + 1) :
    RanIn fs fails kdir userEntryAddr s0 es j := by
  rcases hrun.waits hlt hj hready with hran | ⟨-, hwait, hlt', hnear⟩
  · exact hran
  · have hpos := ahead_pos hlt' hj hwait.1
    have hmax := ahead_lt hlt hj
    omega

/-- The tiny program runs while the timer ticks seven times. -/
theorem ready_task_runs_tiny : ∃ s1, TaskRun smallFs noFaults 0x900000 0x10200
      (fun s e => e.By s) mediumKernel [.spawn (str "TINY") tinyImage 86 (str "x")] s1 ∧ s1.current = 0 ∧
    RanIn smallFs noFaults 0x900000 0x10200 s1 (List.replicate 7 (.preempt 0x8FFC0)) 1 := by
  have hres : ((execAll smallFs noFaults 0x900000 0x10200 (fun s e => e.By s)
      [.spawn (str "TINY") tinyImage 86 (str "x")] mediumKernel).bind (fun s1 =>
        (execAll smallFs noFaults 0x900000 0x10200 (fun s e => e.By s)
          (List.replicate 7 (.preempt 0x8FFC0)) s1).map (fun _ => (s1.current, (s1.tasks 1).state))))
      = some (0, .ready) := by decide +kernel
  obtain ⟨s1, hspawn, hres⟩ := Option.bind_eq_some_iff.1 hres
  obtain ⟨s2, hturns, hs1⟩ := Option.map_eq_some_iff.1 hres
  obtain ⟨hcur, hready⟩ := Prod.mk.inj hs1
  have hrun := TaskRun.nil.execAll hturns
  rw [List.nil_append] at hrun
  refine ⟨s1, by simpa using TaskRun.nil.execAll hspawn, hcur, ?_⟩
  exact ready_task_runs (by rw [hcur]; decide) (by decide) hready hrun (by decide)

end OctoOS
