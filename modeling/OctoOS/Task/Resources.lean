import OctoOS.Task.Lifecycle

set_option autoImplicit false

/-! # What is held is given back

Frames, kernel stacks and file buffers are taken in four modules and given back on other paths. The
invariant of the task table counts all of them, so a spawn that fails leaves nothing behind, and when
the last process is reaped, nothing is left but what was there before. This needs every `file_open`
to leave the other slots of `files[]` alone: `abs_path` copies the working directory before it looks
at its length, and from 108 characters on it marks the next slot as used. -/

namespace OctoOS

open Atomic Tiling

/-! ## `file_open` below a long path -/

/-- What `abs_path` copies in front of the path stays inside the slot. -/
def InSlot (cwd path : Bytes) : Prop := path.head? = some slash ∨ cwd.length ≤ 107
  deriving Decidable

section Open

variable {fs : Fs} {fails : Faults} {s : FileSys} {l : List Blk} {files : ℕ → File} {i : ℕ}
  {cwd path : Bytes}

theorem InSlot.length_le (h : InSlot cwd path) : pathOffset + (cwdPart cwd path).length ≤ sizeofFile := by
  unfold cwdPart pathOffset sizeofFile
  split_ifs with habs hlen
  · simp
  · have := h.resolve_left habs
    rw [List.length_append, List.length_singleton]
    omega
  · omega

/-- Stores behind the first word of a slot that stay inside it. -/
theorem storeFiles_slot {off : ℕ} {cs : Bytes} (hi : i < maxFiles) (hlo : 4 ≤ off)
    (hfit : off + cs.length ≤ sizeofFile) :
    ∃ f, storeFiles files (i * sizeofFile + off) cs = some (Function.update files i f) ∧
      f.used = (files i).used := by
  unfold maxFiles at hi
  unfold sizeofFile at hfit
  induction cs generalizing files off with
  | nil => exact ⟨files i, by rw [storeFiles, Function.update_eq_self], rfl⟩
  | cons c cs ih =>
    rw [List.length_cons] at hfit
    have hdiv : (i * 120 + off) / 120 = i := by omega
    have hmod : (i * 120 + off) % 120 = off := by omega
    obtain ⟨f, hf, hu⟩ := @ih (Function.update files i ((files i).setByte off c)) (off + 1) (by omega)
      (by omega)
    rw [Function.update_self] at hu
    refine ⟨f, ?_, hu.trans ?_⟩
    · rw [storeFiles, if_pos (by unfold maxFiles sizeofFile; omega)]
      simp only [sizeofFile] at hf ⊢
      rw [hdiv, hmod, Nat.add_assoc, hf, Function.update_idem]
    · unfold File.setByte
      split_ifs <;> first | omega | rfl

/-- `abs_path` of a path that is too long. -/
theorem absPath_too_long (hin : InSlot cwd path) (hfit : ¬ PathFits cwd path) (hi : i < maxFiles)
    (files : ℕ → File) : ∃ f, absPath cwd path i files = some (false, Function.update files i f) ∧
      f.used = (files i).used := by
  obtain ⟨f, hf, hu⟩ := @storeFiles_slot files i pathOffset _ hi (by decide) hin.length_le
  have hlong : pathMax < (cwdPart cwd path).length + path.length + 1 := by
    simpa [PathFits, absText] using hfit
  refine ⟨f, ?_, hu⟩
  simp only [absPath, hf, Option.bind_eq_bind, Option.bind_some, if_pos hlong]
  rfl

/-- `file_open` on any volume, in any working directory that stays inside the slot. -/
theorem fileOpen_inSlot (hspc : fs.sectorsPerCluster < 256) (hl : s.fat.heap.blocks = some l)
    {pid mode : ℕ} (hin : InSlot s.fat.cwdPath path)
    (hsize : (FileCall.open pid path mode).Loads fs fails s) :
    Defined (fileOpen fs fails pid path mode s) (OpenPost fs fails s l pid path mode) := by
  by_cases hfit : PathFits s.fat.cwdPath path
  · exact fileOpen_defined hspc hl hfit hsize
  · unfold fileOpen
    cases hslot : freeSlotLoop s.files maxFiles 0 with
    | none => exact Or.inl ⟨rfl, hl, fun _ => Or.inl rfl, rfl⟩
    | some i =>
      obtain ⟨hi, hfree⟩ := freeSlotLoop_eq_some hslot
      rw [Nat.zero_add] at hi
      obtain ⟨f, habs, hu⟩ := absPath_too_long hin hfit hi (Function.update s.files i File.zero)
      rw [Function.update_self] at hu
      simp only [habs]
      refine Or.inl ⟨rfl, hl, fun j => ?_, rfl⟩
      by_cases hji : j = i
      · subst hji
        exact Or.inr ⟨hfree, by simp only [Function.update_self]; exact hu⟩
      · simp only [Function.update_of_ne hji]
        exact Or.inl trivial

end Open

/-! ## Calls into `file.c` -/

/-- The condition on a request: the paths stay inside the slot, a file that is read has a size that
    `kmalloc` can round up, and no write has more than the user window. -/
def FileRequest.Meets (fs : Fs) (fails : Faults) (s : FileSys) : FileRequest → Prop
  | .open path mode => InSlot s.fat.cwdPath path ∧ (FileCall.open 0 path mode).Loads fs fails s
  | .write _ src => src.length ≤ 4 * 1024 * 1024
  | _ => True

def TaskEvent.Meets (fs : Fs) (fails : Faults) (s : Kernel) : TaskEvent → Prop
  | .file r => r.Meets fs fails s.files
  | _ => True

/-- Every open file was open before, or it belongs to `pid`. -/
def OpenedBy (pid : ℕ) (files files' : ℕ → File) : Prop :=
  ∀ j, (files' j).used ≠ 0 →
    ((files j).used ≠ 0 ∧ (files' j).pid = (files j).pid) ∨ (files' j).pid = pid

section Requests

variable {fs : Fs} {fails : Faults} {s s' : FileSys} {l : List Blk} {base : Blk → Prop}
  {pid : ℕ} {files : ℕ → File}

theorem openedBy_refl (pid : ℕ) (files : ℕ → File) : OpenedBy pid files files :=
  fun _ hu => Or.inl ⟨hu, rfl⟩

theorem openedBy_update {i : ℕ} {f : File}
    (h : f.used ≠ 0 → ((files i).used ≠ 0 ∧ f.pid = (files i).pid) ∨ f.pid = pid) :
    OpenedBy pid files (Function.update files i f) := by
  intro j hu
  by_cases hji : j = i
  · subst hji
    rw [Function.update_self] at hu ⊢
    exact h hu
  · rw [Function.update_of_ne hji] at hu ⊢
    exact Or.inl ⟨hu, rfl⟩

theorem fileOpen_keeps (hspc : fs.sectorsPerCluster < 256) (hl : s.fat.heap.blocks = some l)
    (ho : Owns s.files l base) {path : Bytes} {mode : ℕ} (hin : InSlot s.fat.cwdPath path)
    (hsize : (FileCall.open pid path mode).Loads fs fails s) :
    Defined (fileOpen fs fails pid path mode s) (fun r =>
      (∃ l', r.2.fat.heap.blocks = some l' ∧ Owns r.2.files l' base) ∧
        OpenedBy pid s.files r.2.files) := by
  refine (fileOpen_inSlot hspc hl hin hsize).mono (fun r hr => ?_)
  rcases hr with ⟨-, hl', hsame, -⟩ | ⟨i, b, l', f, data, hi, hfree, -, hl', hg, hfiles, -, hf⟩
  · refine ⟨⟨l, hl', ho.congr hsame⟩, fun j hu => ?_⟩
    have hj := (hsame j).resolve_right (fun hz => hu hz.2)
    rw [hj] at hu ⊢
    exact Or.inl ⟨hu, rfl⟩
  · rw [hfiles]
    refine ⟨⟨l', hl', ho.opened hg hi hfree (by rw [hf.used]; decide) hf.owned⟩, ?_⟩
    exact openedBy_update (fun _ => Or.inr hf.pid)

/-- A call on a descriptor does nothing, or what it does to the slot of the descriptor. -/
theorem openedBy_of_slot {α : Type} {fd : Int} {a r : α} {k : ℕ → Except Stop (α × FileSys)}
    (h : (match getFile s.files pid fd with | none => Except.ok (a, s) | some i => k i) = .ok (r, s'))
    (hk : ∀ i, k i = .ok (r, s') → s'.files = s.files ∨ ∃ f, s'.files = Function.update s.files i f ∧
      (f.used ≠ 0 → (s.files i).used ≠ 0 ∧ f.pid = (s.files i).pid)) :
    OpenedBy pid s.files s'.files := by
  cases hget : getFile s.files pid fd with
  | none =>
    rw [hget] at h
    cases h
    exact openedBy_refl _ _
  | some i =>
    rw [hget] at h
    rcases hk i h with hsame | ⟨f, hfiles, hf⟩
    · rw [hsame]
      exact openedBy_refl _ _
    · rw [hfiles]
      exact openedBy_update (fun hu => Or.inl (hf hu))

/-- A request keeps the ownership, and only its own process gets files. -/
theorem FileRequest.exec_keeps (hspc : fs.sectorsPerCluster < 256) (hl : s.fat.heap.blocks = some l)
    (ho : Owns s.files l base) {r : FileRequest} (hr : r.Meets fs fails s) (pid : ℕ) :
    Defined ((r.call pid).exec fs fails s) (fun x =>
      (∃ l', x.2.fat.heap.blocks = some l' ∧ Owns x.2.files l' base) ∧
        OpenedBy pid s.files x.2.files) := by
  cases r with
  | «open» path mode =>
    have hload : (FileCall.open pid path mode).Loads fs fails s := hr.2
    exact (fileOpen_keeps hspc hl ho hr.1 hload).bind (fun _ hx => hx)
  | read fd n =>
    refine Defined.and_eq ((FileCall.exec_step hspc hl ho (.read pid fd n) trivial trivial).mono
      (fun _ hx => hx.owns)) (fun ⟨r, s'⟩ hx => openedBy_of_slot hx (fun i h => ?_))
    dsimp only at h
    split_ifs at h <;> cases h
    · exact Or.inl rfl
    all_goals exact Or.inr ⟨_, rfl, fun hu => ⟨hu, rfl⟩⟩
  | write fd src =>
    refine Defined.and_eq ((FileCall.exec_step hspc hl ho (.write pid fd src) hr trivial).mono
      (fun _ hx => hx.owns)) (fun x hx => ?_)
    obtain ⟨⟨r, s'⟩, hw, h⟩ := ok_of_bind hx
    cases h
    refine openedBy_of_slot hw (fun i h => ?_)
    dsimp only at h
    split_ifs at h <;> cases h
    · exact Or.inl rfl
    · exact Or.inl rfl
    · exact Or.inr ⟨_, rfl, fun hu => ⟨hu, rfl⟩⟩
  | close fd =>
    refine Defined.and_eq ((FileCall.exec_step hspc hl ho (.close pid fd) trivial trivial).mono
      (fun _ hx => hx.owns)) (fun x hx => ?_)
    obtain ⟨⟨r, s'⟩, hc, h⟩ := ok_of_bind hx
    cases h
    refine openedBy_of_slot hc (fun i h => ?_)
    obtain ⟨⟨rc, fat⟩, -, h⟩ := ok_of_bind h
    obtain ⟨heap, -, h⟩ := ok_of_bind h
    cases h
    exact Or.inr ⟨_, rfl, fun hu => absurd rfl hu⟩

theorem fileCloseAll_closedAll (hspc : fs.sectorsPerCluster < 256) (hl : s.fat.heap.blocks = some l)
    (ho : Owns s.files l base) (h : fileCloseAll fs fails pid s = .ok s') :
    ClosedAll pid s s' base := by
  obtain ⟨l', hl', ho', -, hold, hnone⟩ :=
    (fileCloseAllLoop_defined hspc (Nat.zero_add _) hl ho).post h
  exact ⟨⟨l', hl', ho'⟩, fun j => (hold j).imp id And.right, fun j hj => hnone j (Nat.zero_le j) hj⟩

end Requests

/-! ## Whole runs -/

section Run

variable {fs : Fs} {fails : Faults} {kdir userEntryAddr : ℕ} {phys0 : Phys} {l0 : List Blk}
  {s s' : Kernel} {ps : List Proc}

theorem Kernel.Inv.file (hspc : fs.sectorsPerCluster < 256) (h : s.Inv kdir phys0 l0 ps)
    (h0 : s.current ≠ 0) {r : FileRequest} (hr : r.Meets fs fails s.files)
    (hexec : (TaskEvent.file r).exec fs fails kdir userEntryAddr s = .ok s') :
    s'.Inv kdir phys0 l0 ps := by
  obtain ⟨l, hl⟩ := h.kstacks
  obtain ⟨p, hp, hslot⟩ := h.table.exists_proc h.cpu.lt h0 (by rw [h.running]; decide)
  simp only [TaskEvent.exec] at hexec
  cases hcall : (r.call (s.tasks s.current).pid).exec fs fails s.files with
  | error w =>
    rw [hcall] at hexec
    cases hexec
  | ok x =>
    rw [hcall] at hexec
    cases hexec
    obtain ⟨⟨l', hl', ho'⟩, hopened⟩ := (r.exec_keeps hspc hl.blocks hl.owns hr _).post hcall
    refine h.with_mem h.pages ⟨hl', ho', hl.nodup, hl.fresh⟩ (fun i hi hu => ?_)
    rcases hopened i hu with ⟨hold, hpid⟩ | hpid
    · rw [hpid]
      exact h.owners i hi hold
    · exact ⟨p, hp, by rw [hpid, hslot]⟩

/-- A reap that ends has closed the files. -/
theorem taskReap_closes {i : ℕ} (hz : (s.tasks i).state = .zombie) (h : taskReap fs fails i s = .ok s') :
    ∃ files, fileCloseAll fs fails (s.tasks i).pid s.files = .ok files := by
  unfold taskReap at h
  rw [if_neg (not_not.2 hz)] at h
  obtain ⟨files, hres, -⟩ := ok_of_bind h
  exact ⟨files, hres⟩

theorem TaskEvent.exec_inv (hspc : fs.sectorsPerCluster < 256) (h : s.Inv kdir phys0 l0 ps)
    {e : TaskEvent} (hby : e.By s) (hm : e.Meets fs fails s)
    (hexec : e.exec fs fails kdir userEntryAddr s = .ok s') : ∃ ps', s'.Inv kdir phys0 l0 ps' := by
  have hrest : e.OfTasks → ∃ ps', s'.Inv kdir phys0 l0 ps' := by
    intro he
    obtain ⟨l, hl⟩ := h.kstacks
    obtain ⟨s'', hexec', hstep⟩ := TaskEvent.exec_ends fs fails userEntryAddr h he hby (by
      rintro i rfl hz
      obtain ⟨files, hres⟩ := taskReap_closes hz hexec
      exact ⟨files, hres, fileCloseAll_closedAll hspc hl.blocks hl.owns hres⟩)
    obtain rfl := Except.ok.inj (hexec.symm.trans hexec')
    exact hstep.inv
  cases e with
  | file r => exact ⟨ps, h.file hspc hby hm hexec⟩
  | _ => exact hrest trivial

/-- The invariant along a run whose file requests meet the condition. -/
theorem TaskRun.keeps (hspc : fs.sectorsPerCluster < 256) {s0 : Kernel}
    (h0 : s0.Inv kdir phys0 l0 ps) {es : List TaskEvent}
    (hrun : TaskRun fs fails kdir userEntryAddr (fun s e => e.By s ∧ e.Meets fs fails s) s0 es s) :
    ∃ ps', s.Inv kdir phys0 l0 ps' := by
  induction hrun with
  | nil => exact ⟨ps, h0⟩
  | snoc _ hok hexec ih =>
    obtain ⟨ps', hinv⟩ := ih
    exact TaskEvent.exec_inv hspc hinv hok.1 hok.2 hexec

end Run

/-- What a state of a run that began in `s₀` gives back. -/
structure Conserved (kdir userEntryAddr : ℕ) (s₀ s : Kernel) : Prop where
  /-- `task_spawn_user` ends; it fails as if it had not been called, or it starts one task. -/
  spawn : ∀ name image size args, ∃ r s',
    taskSpawnUser kdir userEntryAddr name image size args s = .ok (r, s') ∧
      (SpawnFailed s r s' ∨ ∃ i t, Spawned s r s' i t)
  /-- Without processes everything is as it was. -/
  reaped : (∀ i < maxTasks, i ≠ 0 → (s.tasks i).state = .free) →
    s₀.SameHeld s ∧ ∀ i < maxFiles, (s.files.files i).used = 0

/-- **Nothing is lost over the lifetimes of processes**, in every run whose file requests meet the
    condition, with any device behind the volume. -/
theorem taskRun_conserved {fs : Fs} {fails : Faults} (hspc : fs.sectorsPerCluster < 256)
    {userEntryAddr : ℕ} {map : List E820Entry} {mem : Mem} {kdir : ℕ} {phys : Phys} {files : FileSys}
    {l0 : List Blk} (hinit : pagingInit (frameInit map mem) = (kdir, phys))
    (hkdir : kdir ≠ 0 ∨ phys.count = 0) (hfree : ∀ i < maxFiles, (files.files i).used = 0)
    (hheap : files.fat.heap.blocks = some l0) {es : List TaskEvent} {s : Kernel}
    (hrun : TaskRun fs fails kdir userEntryAddr (fun s e => e.By s ∧ e.Meets fs fails s)
      (taskInit kdir (Kernel.boot kdir phys files)) es s) :
    Conserved kdir userEntryAddr (taskInit kdir (Kernel.boot kdir phys files)) s := by
  obtain ⟨ps, h⟩ := hrun.keeps hspc (taskInit_inv hinit hkdir hfree hheap)
  refine ⟨fun name image size args => ?_, fun hall => ?_⟩
  · obtain ⟨r, s', hres, hpost⟩ := taskSpawnUser_ends userEntryAddr h name image size args
    exact ⟨r, s', hres, hpost.imp And.left (fun ⟨p, t, hs, _⟩ => ⟨p.slot, t, hs⟩)⟩
  · have hnil : ps = [] := by
      refine List.eq_nil_iff_forall_not_mem.2 (fun p hp => ?_)
      obtain ⟨h0, hlt, -⟩ := h.table.slot p hp
      exact (h.table.live _ hlt h0).2 (List.mem_map_of_mem hp) (hall _ hlt h0)
    subst hnil
    obtain ⟨l, hl⟩ := h.kstacks
    have hunused : ∀ i < maxFiles, (s.files.files i).used = 0 := by
      intro i hi
      by_contra hu
      obtain ⟨p, hp, -⟩ := h.owners i hi hu
      cases hp
    refine ⟨⟨fun f => ?_, l0, l, hheap, hl.blocks, fun b => ⟨fun hb => ?_, fun hb => ?_⟩⟩, hunused⟩
    · exact (h.pages.mem_frames f).trans (by simp [taskInit, Kernel.boot])
    · rcases hl.owns.live b hb with hb | ⟨i, hi, hu, -⟩
      · simpa [OrStack] using hb
      · exact absurd (hunused i hi) hu
    · exact hl.owns.kept b (Or.inl hb)

/-! ## Two runs -/

instance (fs : Fs) (fails : Faults) (s : Kernel) (e : TaskEvent) : Decidable (e.Meets fs fails s) := by
  induction e using TaskEvent.casesOn with
  | file r =>
    unfold TaskEvent.Meets
    induction r using FileRequest.casesOn <;> unfold FileRequest.Meets <;> infer_instance
  | _ => exact instDecidableTrue

/-- The tiny program opens a file and exits, and the shell reaps it. -/
def tinyLife (mode : ℕ) : List TaskEvent :=
  tinyStart ++ [.file (.open (str "B") mode), .exit 0 0x100FC0, .reap 1]

/-- It leaves a file open for writing, and nothing is left of it. -/
theorem taskRun_conserved_tiny : ∃ s, TaskRun smallFs noFaults 0x900000 0x10200
      (fun s e => e.By s ∧ e.Meets smallFs noFaults s) mediumKernel (tinyLife oWronly) s ∧
    (List.range maxTasks).all (fun i => i = 0 ∨ (s.tasks i).state = .free) = true ∧
    Conserved 0x900000 0x10200 mediumKernel s := by
  have hres : (execAll smallFs noFaults 0x900000 0x10200
      (fun s e => e.By s ∧ e.Meets smallFs noFaults s) (tinyLife oWronly) mediumKernel).map
        (fun s => (List.range maxTasks).all (fun i => i = 0 ∨ (s.tasks i).state = .free))
        = some true := by decide +kernel
  obtain ⟨s, hexec, hs⟩ := Option.map_eq_some_iff.1 hres
  have hrun := TaskRun.nil.execAll hexec
  rw [List.nil_append] at hrun
  exact ⟨s, hrun, hs, taskRun_conserved (by decide) mediumPhys_init (Or.inl (by decide)) (fun _ _ => rfl)
    filesHeap_blocks hrun⟩

/-- The machine with a working directory of 108 characters. -/
def deepKernel : Kernel := taskInit 0x900000 (Kernel.boot 0x900000 mediumPhys
  { smallFiles [] [] [] with
    fat := { (smallFiles [] [] []).fat with cwdPath := slash :: List.replicate 107 0x41 } })

/-- The open fails, and when the process is reaped, the second slot of `files[]` is in use. -/
theorem taskRun_leaves_slot : ∃ s, TaskRun smallFs noFaults 0x900000 0x10200
      (fun s e => e.By s) deepKernel (tinyLife oRdonly) s ∧
    ((List.range maxTasks).all (fun i => i = 0 ∨ (s.tasks i).state = .free), (s.files.files 1).used)
      = (true, 0x2F) := by
  have hres : (execAll smallFs noFaults 0x900000 0x10200 (fun s e => e.By s)
      (tinyLife oRdonly) deepKernel).map
        (fun s => ((List.range maxTasks).all (fun i => i = 0 ∨ (s.tasks i).state = .free),
          (s.files.files 1).used)) = some (true, 0x2F) := by decide +kernel
  obtain ⟨s, hexec, hs⟩ := Option.map_eq_some_iff.1 hres
  have hrun := TaskRun.nil.execAll hexec
  rw [List.nil_append] at hrun
  exact ⟨s, hrun, hs⟩

end OctoOS
