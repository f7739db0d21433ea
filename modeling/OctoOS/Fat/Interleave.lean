import OctoOS.Fat.Cwd
import OctoOS.Lib.Conflict

set_option autoImplicit false

/-! # File system calls of a task inside an operation of the shell

The shell runs its FAT operation with interrupts on, so the timer can switch to a task between any
two steps of it; the system call of the task then runs a whole `fat_read_file` or `fat_write_file`
on the same `sector_buf`. Sector by sector one can say which steps of the operation and which calls
have a conflict, and where there is none the calls can be taken out of the operation; for `sector_buf`
it is enough that the operation fills it again before it uses it. Between an `ata_read` and the use of
what it read a call is seen. -/

namespace OctoOS

open Atomic

/-- The disk without faults. -/
abbrev idealDisk : Handler fatSig FatState := fatHandler noFaults

/-- What the file system calls of a task run: `SYS_OPEN` for reading and `SYS_CLOSE` after
    writing. -/
inductive UserCall where
  | openFile (path : Bytes)
  | closeFile (path data : Bytes)

def UserCall.prog (fs : Fs) : UserCall → Fat Unit
  | .openFile path => do
    let _ ← fatReadFile fs path
    return ()
  | .closeFile path data => do
    let _ ← fatWriteFile fs path data
    return ()

/-- The operation with the calls of `l` at any points of it. -/
abbrev Interleaving (fs : Fs) {α : Type} (p : Fat α) (st : FatState) (l : List UserCall) (a : α)
    (st' : FatState) : Prop :=
  p.Mixed idealDisk (fun u s s' => (u.prog fs).run idealDisk s = .ok ((), s')) st l a st'

/-- The operation and the calls of `l`, one after another in some order; the operation takes the state
    from `s` to `s'`. -/
def SerialOver (fs : Fs) {α : Type} (p : Fat α) (st : FatState) (l : List UserCall) (s s' st' : FatState) :
    Prop :=
  ∃ l₁ l₂ a, (l₁ ++ l₂).Perm l ∧ Acts idealDisk (UserCall.prog fs) st l₁ s ∧
    p.run idealDisk s = .ok (a, s') ∧ Acts idealDisk (UserCall.prog fs) s' l₂ st'

def Serial (fs : Fs) {α : Type} (p : Fat α) (st : FatState) (l : List UserCall) (st' : FatState) : Prop :=
  ∃ s s', SerialOver fs p st l s s' st'

/-! ## The cells of the driver's state -/

/-- A sector of the disk, the sector in `sector_buf` and what is behind it, the heap, and the working
    directory. The console is left out, as nothing depends on it. -/
inductive Cell where
  | sector (lba : ℕ)
  | buf
  | tail
  | heap
  | cwd
  deriving DecidableEq

/-- The sectors of a transfer. -/
def sectorCells (lba count : ℕ) : List Cell := (List.range count).map (fun i => .sector (lba + i))

/-- A step that changes a part of a cell reads the cell. -/
def fatCells : Footprint fatSig Cell where
  reads
    | .ataRead lba => [.sector lba]
    | .ataWrite lba => [.buf, .sector lba]
    | .ataReadTo lba count _ => .heap :: sectorCells lba count
    | .ataWriteFrom lba count _ => sectorCells lba count
    | .bufLoad | .bufStore _ _ => [.buf, .tail]
    | .kmalloc _ | .kfree _ | .heapStore _ _ _ => [.heap]
    | .print _ => []
    | _ => [.cwd]
  writes
    | .ataRead _ => [.buf]
    | .ataWrite lba => [.sector lba]
    | .ataWriteFrom lba count _ => sectorCells lba count
    | .bufStore off data => if off + data.length ≤ sectorSize then [.buf] else [.buf, .tail]
    | .kmalloc _ => [.heap]
    | .kfree _ => [.heap]
    | .setCwdCluster _ => [.cwd]
    | .setCwdPath _ => [.cwd]
    | _ => []

/-- The states agree on a cell. -/
def SameCell : Cell → FatState → FatState → Prop
  | .sector lba, s, t => s.disk lba = t.disk lba
  | .buf, s, t => ∀ i < sectorSize, s.sectorBuf i = t.sectorBuf i
  | .tail, s, t => ∀ i, sectorSize ≤ i → s.sectorBuf i = t.sectorBuf i
  | .heap, s, t => s.heap = t.heap
  | .cwd, s, t => s.cwdCluster = t.cwdCluster ∧ s.cwdPath = t.cwdPath

theorem sameCell_equiv (c : Cell) : Equivalence (SameCell c) := by
  cases c with
  | sector _ | heap => exact ⟨fun _ => rfl, Eq.symm, Eq.trans⟩
  | buf | tail =>
    exact ⟨fun _ _ _ => rfl, fun h i hi => (h i hi).symm, fun h h' i hi => (h i hi).trans (h' i hi)⟩
  | cwd =>
    exact ⟨fun _ => ⟨rfl, rfl⟩, fun h => ⟨h.1.symm, h.2.symm⟩, fun h h' => ⟨h.1.trans h'.1, h.2.trans h'.2⟩⟩

section Steps

variable {s s' t : FatState}

theorem sectorBuf_eq (hbuf : SameCell .buf s t) (htail : SameCell .tail s t) : s.sectorBuf = t.sectorBuf := by
  funext i
  by_cases hi : i < sectorSize
  · exact hbuf i hi
  · exact htail i (not_lt.1 hi)

theorem mem_sectorCells {lba count l : ℕ} : Cell.sector l ∈ sectorCells lba count ↔ ∃ i < count, lba + i = l := by
  simp [sectorCells]

/-- What a write leaves in a sector depends on nothing but that sector. -/
theorem writeSectors_at {disk disk' : Disk} {l : ℕ} (count n n' lba : ℕ) (data : Bytes)
    (h : disk l = disk' l) : (writeSectors noFaults count n lba data disk).2.2 l
      = (writeSectors noFaults count n' lba data disk').2.2 l := by
  induction count generalizing n n' lba data disk disk' with
  | zero => exact h
  | succ count ih =>
    refine ih _ _ _ _ ?_
    by_cases hl : l = lba
    · subst hl
      rw [Function.update_self, Function.update_self, h]
    · rw [Function.update_of_ne hl, Function.update_of_ne hl, h]

/-- Both states after a step in which the cells of `ws` were written. -/
abbrev SameAfter (ws : List Cell) (s t s' t' : FatState) : Prop :=
  ∀ c, c ∈ ws ∨ SameCell c s t → SameCell c s' t'

/-- A step that writes no cell. -/
theorem sameAfter_nil {t' : FatState} (h : ∀ c, SameCell c s t → SameCell c s' t') : SameAfter [] s t s' t' :=
  fun c hc => h c (hc.resolve_left (List.not_mem_nil))

theorem sameAfter_heap (heap : Heap) :
    SameAfter [.heap] s t { s with heap := heap } { t with heap := heap } := by
  intro c hc
  cases c with
  | heap => rfl
  | _ => exact hc.resolve_left (by simp)

theorem ataRead_again {lba : ℕ} (h : s.disk lba = t.disk lba) (n n' : ℕ) :
    SameAfter [.buf] s t { s with ataCount := n, sectorBuf := transfer s.sectorBuf (s.disk lba) }
      { t with ataCount := n', sectorBuf := transfer t.sectorBuf (t.disk lba) } := by
  intro c hc
  cases c with
  | buf =>
    intro i hi
    simp only [transfer, if_pos hi, h]
  | tail =>
    have htail : SameCell .tail s t := hc.resolve_left (by simp)
    intro i hi
    simp only [transfer, if_neg (not_lt.2 hi)]
    exact htail i hi
  | _ => exact hc.resolve_left (by simp)

theorem ataWrite_again {lba : ℕ} (h : s.disk lba = t.disk lba) (hbuf : SameCell .buf s t) (n n' : ℕ) :
    SameAfter [.sector lba] s t
      { s with ataCount := n, disk := Function.update s.disk lba (transfer (s.disk lba) s.sectorBuf) }
      { t with ataCount := n', disk := Function.update t.disk lba (transfer (t.disk lba) t.sectorBuf) } := by
  have hnew : transfer (s.disk lba) s.sectorBuf = transfer (t.disk lba) t.sectorBuf := by
    funext i
    simp only [transfer, h]
    split_ifs with hi
    · exact hbuf i hi
    · rfl
  intro c hc
  cases c with
  | sector l =>
    show Function.update s.disk lba _ l = Function.update t.disk lba _ l
    by_cases hl : l = lba
    · rw [hl, Function.update_self, Function.update_self, hnew]
    · have hsame : SameCell (.sector l) s t := hc.resolve_left (by simpa using hl)
      rw [Function.update_of_ne hl, Function.update_of_ne hl]
      exact hsame
  | _ => exact hc.resolve_left (by simp)

theorem readSectors_again {lba count : ℕ} (n n' : ℕ) (h : ∀ c ∈ sectorCells lba count, SameCell c s t) :
    (readSectors noFaults t.disk count n lba).1
      = (readSectors noFaults s.disk count n' lba).1 := by
  rw [readSectors_run, readSectors_run]
  refine congrArg some (List.map_congr_left fun k hk => ?_)
  have hlt : k / sectorSize < count :=
    Nat.div_lt_of_lt_mul (by rw [Nat.mul_comm]; exact List.mem_range.1 hk)
  have hsame : s.disk (lba + k / sectorSize) = t.disk (lba + k / sectorSize) :=
    h _ (mem_sectorCells.2 ⟨_, hlt, rfl⟩)
  rw [hsame]

theorem ataWriteFrom_again {lba count : ℕ} (h : ∀ c ∈ sectorCells lba count, SameCell c s t) (data : Bytes)
    (n n' m m' : ℕ) : SameAfter (sectorCells lba count) s t
      { s with ataCount := n, disk := (writeSectors noFaults count m lba data s.disk).2.2 }
      { t with ataCount := n', disk := (writeSectors noFaults count m' lba data t.disk).2.2 } := by
  intro c hc
  have hsame : SameCell c s t := hc.elim (h c) id
  cases c with
  | sector l => exact writeSectors_at count m m' lba data hsame
  | _ => exact hsame

theorem bufStore_again (hbuf : SameCell .buf s t) (htail : SameCell .tail s t) (off : ℕ) (data : Bytes)
    (ws : List Cell) (hws : ∀ c ∈ ws, SameCell c s t) :
    SameAfter ws s t { s with sectorBuf := storeBytes s.sectorBuf off data }
      { t with sectorBuf := storeBytes t.sectorBuf off data } := by
  intro c hc
  rw [sectorBuf_eq hbuf htail]
  cases c with
  | buf | tail => exact fun _ _ => rfl
  | _ => exact hc.elim (hws _) id

theorem kmalloc_step {size r : ℕ} : idealDisk (.kmalloc size : FatOp) s = .ok (r, s') ↔
    ∃ heap, s.heap.kmalloc size = .ok (r, heap) ∧ s' = { s with heap := heap } := by
  simp only [idealDisk, fatHandler]
  constructor
  · intro h
    split at h <;> cases h
    exact ⟨_, by assumption, rfl⟩
  · rintro ⟨heap, hk, rfl⟩
    rw [hk]

theorem kfree_step {ptr : ℕ} : idealDisk (.kfree ptr : FatOp) s = .ok ((), s') ↔
    ∃ heap, s.heap.kfree ptr = .ok heap ∧ s' = { s with heap := heap } := by
  simp only [idealDisk, fatHandler]
  constructor
  · intro h
    split at h <;> cases h
    exact ⟨_, by assumption, rfl⟩
  · rintro ⟨heap, hk, rfl⟩
    rw [hk]

/-- A step does the same in two states that agree on what it reads. -/
theorem fat_again {o : fatSig.Op} {r : fatSig.Ans o} (hstep : idealDisk o s = .ok (r, s'))
    (hread : ∀ c ∈ fatCells.reads o, SameCell c s t) :
    ∃ t', idealDisk o t = .ok (r, t') ∧ SameAfter (fatCells.writes o) s t s' t' := by
  cases o with
  | ataRead lba =>
    cases hstep
    exact ⟨_, rfl, ataRead_again (hread (.sector lba) (List.mem_singleton_self _)) _ _⟩
  | ataWrite lba =>
    cases hstep
    exact ⟨_, rfl, ataWrite_again (hread (.sector lba) (by simp [fatCells])) (hread .buf (by simp [fatCells])) _ _⟩
  | ataReadTo lba count buf =>
    have hheap : s.heap = t.heap := hread .heap (by simp [fatCells])
    have hdata := readSectors_again t.ataCount s.ataCount fun c hc => hread c (List.mem_cons_of_mem _ hc)
    simp only [idealDisk, fatHandler] at hstep ⊢
    split_ifs at hstep with hroom
    cases hstep
    rw [if_neg (hheap ▸ hroom)]
    refine ⟨_, congrArg Except.ok (Prod.ext hdata rfl), sameAfter_nil fun c hc => ?_⟩
    cases c <;> exact hc
  | ataWriteFrom lba count data =>
    have hok : (writeSectors noFaults count t.ataCount lba data t.disk).1
        = (writeSectors noFaults count s.ataCount lba data s.disk).1 := by
      obtain ⟨_, h, -⟩ := writeSectors_run count t.ataCount lba data t.disk
      obtain ⟨_, h', -⟩ := writeSectors_run count s.ataCount lba data s.disk
      rw [h, h']
    cases hstep
    exact ⟨_, congrArg Except.ok (Prod.ext hok rfl), ataWriteFrom_again hread data _ _ _ _⟩
  | bufLoad =>
    cases hstep
    have hbuf := sectorBuf_eq (hread .buf (by simp [fatCells])) (hread .tail (by simp [fatCells]))
    exact ⟨t, by rw [hbuf]; rfl, sameAfter_nil fun _ hc => hc⟩
  | bufStore off data =>
    cases hstep
    refine ⟨_, rfl, bufStore_again (hread .buf (by simp [fatCells])) (hread .tail (by simp [fatCells])) off data _
      fun c hc => hread c ?_⟩
    simp only [fatCells] at hc ⊢
    split_ifs at hc
    · simp_all
    · exact hc
  | kmalloc size =>
    have hheap : s.heap = t.heap := hread .heap (by simp [fatCells])
    obtain ⟨heap, hk, rfl⟩ := kmalloc_step.1 hstep
    exact ⟨_, kmalloc_step.2 ⟨heap, hheap ▸ hk, rfl⟩, sameAfter_heap _⟩
  | kfree ptr =>
    have hheap : s.heap = t.heap := hread .heap (by simp [fatCells])
    obtain ⟨heap, hk, rfl⟩ := kfree_step.1 hstep
    exact ⟨_, kfree_step.2 ⟨heap, hheap ▸ hk, rfl⟩, sameAfter_heap _⟩
  | heapStore buf off len =>
    have hheap : s.heap = t.heap := hread .heap (by simp [fatCells])
    simp only [idealDisk, fatHandler] at hstep ⊢
    rw [← hheap]
    split_ifs at hstep with hroom
    cases hstep
    rw [if_neg hroom]
    exact ⟨t, rfl, sameAfter_nil fun _ hc => hc⟩
  | getCwdCluster =>
    cases hstep
    have hcwd : SameCell .cwd s t := hread .cwd (by simp [fatCells])
    exact ⟨t, by rw [hcwd.1]; rfl, sameAfter_nil fun _ hc => hc⟩
  | getCwdPath =>
    cases hstep
    have hcwd : SameCell .cwd s t := hread .cwd (by simp [fatCells])
    exact ⟨t, by rw [hcwd.2]; rfl, sameAfter_nil fun _ hc => hc⟩
  | setCwdCluster c =>
    cases hstep
    have hcwd : SameCell .cwd s t := hread .cwd (by simp [fatCells])
    refine ⟨_, rfl, fun c hc => ?_⟩
    cases c with
    | cwd => exact ⟨rfl, hcwd.2⟩
    | _ => exact hc.resolve_left (by simp [fatCells])
  | setCwdPath path =>
    cases hstep
    have hcwd : SameCell .cwd s t := hread .cwd (by simp [fatCells])
    refine ⟨_, rfl, fun c hc => ?_⟩
    cases c with
    | cwd => exact ⟨hcwd.1, rfl⟩
    | _ => exact hc.resolve_left (by simp [fatCells])
  | print text =>
    cases hstep
    refine ⟨_, rfl, sameAfter_nil fun c hc => ?_⟩
    cases c <;> exact hc

theorem heap_frame (heap : Heap) {c : Cell} (hc : c ∉ [Cell.heap]) : SameCell c s { s with heap := heap } := by
  cases c with
  | heap => exact absurd (List.mem_singleton_self _) hc
  | _ => simp [SameCell]

theorem cwd_frame (cluster : UInt16) (path : Bytes) {c : Cell} (hc : c ∉ [Cell.cwd]) :
    SameCell c s { s with cwdCluster := cluster, cwdPath := path } := by
  cases c with
  | cwd => exact absurd (List.mem_singleton_self _) hc
  | _ => simp [SameCell]

/-- A step changes only what it writes. -/
theorem fat_frame {o : fatSig.Op} {r : fatSig.Ans o} (hstep : idealDisk o s = .ok (r, s')) :
    ∀ c ∉ fatCells.writes o, SameCell c s s' := by
  intro c hc
  cases o with
  | ataRead lba =>
    cases hstep
    cases c with
    | buf => exact absurd (List.mem_singleton_self _) hc
    | tail => exact fun i hi => (if_neg (not_lt.2 hi)).symm
    | _ => simp [SameCell]
  | ataWrite lba =>
    cases hstep
    cases c with
    | sector l =>
      have hl : l ≠ lba := fun h => hc (by simp [fatCells, h])
      exact (Function.update_of_ne hl _ _).symm
    | _ => simp [SameCell]
  | ataWriteFrom lba count data =>
    cases hstep
    cases c with
    | sector l =>
      obtain ⟨d, hrun, -, hout⟩ := writeSectors_run count s.ataCount lba data s.disk
      show s.disk l = (writeSectors noFaults count s.ataCount lba data s.disk).2.2 l
      rw [hrun]
      exact (hout l fun i hi hl => hc (mem_sectorCells.2 ⟨i, hi, hl.symm⟩)).symm
    | _ => simp [SameCell]
  | bufStore off data =>
    cases hstep
    simp only [fatCells] at hc
    cases c with
    | buf =>
      split_ifs at hc
      · exact absurd (List.mem_singleton_self _) hc
      · exact absurd (List.mem_cons_self ..) hc
    | tail =>
      split_ifs at hc with hin
      · exact fun i hi => (if_neg (by omega)).symm
      · exact absurd (by simp) hc
    | _ => simp [SameCell]
  | ataReadTo lba count buf =>
    simp only [idealDisk, fatHandler] at hstep
    split_ifs at hstep
    cases hstep
    cases c <;> simp [SameCell]
  | kmalloc size =>
    obtain ⟨heap, -, rfl⟩ := kmalloc_step.1 hstep
    exact heap_frame heap hc
  | kfree ptr =>
    obtain ⟨heap, -, rfl⟩ := kfree_step.1 hstep
    exact heap_frame heap hc
  | heapStore buf off len =>
    simp only [idealDisk, fatHandler] at hstep
    split_ifs at hstep
    cases hstep
    exact (sameCell_equiv _).refl s
  | setCwdCluster x => cases hstep; exact cwd_frame x s.cwdPath hc
  | setCwdPath path => cases hstep; exact cwd_frame s.cwdCluster path hc
  | print text =>
    cases hstep
    cases c <;> simp [SameCell]
  | bufLoad | getCwdCluster | getCwdPath =>
    cases hstep
    exact (sameCell_equiv _).refl s

end Steps

/-! ## The two read-modify-writes -/

section Entries

variable {fs : Fs} {ps : ℕ}

/-- `fat_set` alone changes the two bytes of its entry in each copy of the FAT. -/
theorem fatSet_changes (hs : fs.Sane ps) {c : UInt16} (hc : c.toNat ≤ fs.maxCluster) {x : UInt16}
    {s s' : FatState} {b : Bool} (hrun : (fatSet fs c x).run idealDisk s = .ok (b, s')) {lba i : ℕ}
    (hne : s'.disk lba i ≠ s.disk lba i) :
    ∃ j < fs.numFats, lba = fs.copyLba c j ∧
      (i = c.toNat * 2 % sectorSize ∨ i = c.toNat * 2 % sectorSize + 1) := by
  obtain ⟨hin, hout⟩ := fatSet_disk hs hc hrun
  -- outside its sectors nothing changes, inside them only the two stores
  by_cases hj : ∃ j < fs.numFats, lba = fs.copyLba c j
  · obtain ⟨j, hjn, rfl⟩ := hj
    refine ⟨j, hjn, rfl, ?_⟩
    by_contra hi
    rw [not_or] at hi
    apply hne
    rw [hin j hjn, fatEdit_of_ne _ _ _ hi.1 hi.2]
  · exact absurd (congrFun (hout lba (fun j hjn heq => hj ⟨j, hjn, heq⟩)) i) hne

/-- `loc_update` alone changes the 32 bytes of its entry. -/
theorem locUpdate_changes {loc : Loc} {d : Dirent} (hoff : loc.off + 32 ≤ sectorSize)
    {s s' : FatState} {b : Bool} (hrun : (locUpdate loc d).run idealDisk s = .ok (b, s')) {lba i : ℕ}
    (hne : s'.disk lba i ≠ s.disk lba i) : lba = loc.lba ∧ loc.off ≤ i ∧ i < loc.off + 32 := by
  obtain ⟨-, rfl⟩ := Prod.mk.inj (Except.ok.inj (hrun.symm.trans (locUpdate_run hoff d s)))
  have hlen := Dirent.bytes_length d
  by_cases hl : lba = loc.lba
  · subst hl
    refine ⟨rfl, ?_⟩
    by_contra hi
    refine hne ((congrFun (Function.update_self ..) i).trans (if_neg ?_))
    omega
  · exact absurd (congrFun (Function.update_of_ne hl _ _) i) hne

end Entries

/-! ## Interleavings -/

def driverCells : Cells idealDisk fatCells := ⟨SameCell, sameCell_equiv, fat_again, fat_frame⟩

/-- The operation with the calls of `l` in it, where every call can be taken out of it: it has no
    conflict with what came before it and goes to the front, or none with the steps of the operation
    that are to come and goes to the end. -/
def Woven (fs : Fs) {α : Type} (p : Fat α) (st : FatState) (l : List UserCall) (a : α) (st' : FatState) : Prop :=
  ∃ m, p.Mixed (watched fatCells idealDisk) (Movable fatCells idealDisk (UserCall.prog fs) [.buf])
    (st, .start) l a (st', m)

theorem Woven.serial {fs : Fs} {α : Type} {p : Fat α} {st st' : FatState} {l : List UserCall} {a : α}
    (h : Woven fs p st l a st') : ∃ s s' st'', SerialOver fs p st l s s' st'' ∧ st''.disk = st'.disk := by
  obtain ⟨m, hm⟩ := h
  obtain ⟨l1, l2, e, t, v, hperm, hfirst, hrun, hlast, hsame⟩ := hm.serial driverCells
  refine ⟨e, t, v, ⟨l1, l2, a, hperm, hfirst, hrun, hlast⟩, ?_⟩
  funext lba
  exact hsame (.sector lba) (by simp)

/-- **Interleavings without conflicts are serial.** The disk is that of a serial order of the operation
    and the calls; in this order the two read-modify-writes change their own bytes only. -/
theorem interleaving_serial {fs : Fs} {ps : ℕ} (hs : fs.Sane ps) :
    (∀ {α : Type} (p : Fat α) (l : List UserCall) (st st' : FatState) (a : α), Woven fs p st l a st' →
      Interleaving fs p st l a st' ∧ ∃ st'', Serial fs p st l st'' ∧ st''.disk = st'.disk) ∧
    (∀ (c x : UInt16) (l : List UserCall) (st st' : FatState) (b : Bool), c.toNat ≤ fs.maxCluster →
      Woven fs (fatSet fs c x) st l b st' →
      ∃ s s' st'', SerialOver fs (fatSet fs c x) st l s s' st'' ∧ st''.disk = st'.disk ∧
        ∀ lba i, s'.disk lba i ≠ s.disk lba i → ∃ j < fs.numFats, lba = fs.copyLba c j ∧
          (i = c.toNat * 2 % sectorSize ∨ i = c.toNat * 2 % sectorSize + 1)) ∧
    (∀ (slot : Slot) (d : Dirent) (l : List UserCall) (st st' : FatState) (b : Bool),
      Woven fs (locUpdate (slot.loc fs) d) st l b st' →
      ∃ s s' st'', SerialOver fs (locUpdate (slot.loc fs) d) st l s s' st'' ∧ st''.disk = st'.disk ∧
        ∀ lba i, s'.disk lba i ≠ s.disk lba i →
          lba = (slot.loc fs).lba ∧ (slot.loc fs).off ≤ i ∧ i < (slot.loc fs).off + 32) := by
  refine ⟨fun p l st st' a hw => ⟨?_, ?_⟩, fun c x l st st' b hc hw => ?_, fun slot d l st st' b hw => ?_⟩
  · obtain ⟨m, hm⟩ := hw
    exact hm.unwatched driverCells
  · obtain ⟨s, s', st'', hserial, hdisk⟩ := hw.serial
    exact ⟨st'', ⟨s, s', hserial⟩, hdisk⟩
  · obtain ⟨s, s', st'', hserial, hdisk⟩ := hw.serial
    refine ⟨s, s', st'', hserial, hdisk, fun lba i hne => ?_⟩
    obtain ⟨l1, l2, a, -, -, hrun, -⟩ := hserial
    exact fatSet_changes hs hc hrun hne
  · obtain ⟨s, s', st'', hserial, hdisk⟩ := hw.serial
    refine ⟨s, s', st'', hserial, hdisk, fun lba i hne => ?_⟩
    obtain ⟨l1, l2, a, -, -, hrun, -⟩ := hserial
    exact locUpdate_changes (slot.loc_off_le fs) hrun hne

/-- A volume with the file `SUB/X` of one cluster. -/
def nested : FatState := smallState [0xFFF8, 0xFFFF, 0xFFFF, 0xFFFF]
  [{ dirEntry 2 with name := name83 [0x53, 0x55, 0x42] [] }]
  [entrySector [dotEntry 2, dotdotEntry 0,
    { Dirent.zero with name := name83 [0x58] [], clusterLo := 3, size := 1 }]]

set_option synthInstance.maxSize 1000 in
/-- `rm SUB/X`; when it has found the file, a task closes its new file `/B`, and between the two copies of
    the FAT it opens it. -/
theorem interleaving_serial_nested : ∃ a st' st'',
    Woven smallFs (fatRm smallFs [0x53, 0x55, 0x42, 0x2F, 0x58]) nested
      [.closeFile [0x2F, 0x42] [], .openFile [0x2F, 0x42]] a st' ∧
    Serial smallFs (fatRm smallFs [0x53, 0x55, 0x42, 0x2F, 0x58]) nested
      [.closeFile [0x2F, 0x42] [], .openFile [0x2F, 0x42]] st'' ∧ st''.disk = st'.disk := by
  have hends : (fatRm smallFs [0x53, 0x55, 0x42, 0x2F, 0x58]).After (watched fatCells idealDisk) 9
      (nested, .start) (fun q x =>
        ((UserCall.closeFile [0x2F, 0x42] []).prog smallFs).Ends (tracked fatCells idealDisk) (x.1, [], [])
          (fun _ y => (∀ c ∈ y.2.1, c ∉ [Cell.buf]) ∧
            q.After (watched fatCells idealDisk) 6 (y.1, x.2.behind [.buf] y.2.1 y.2.2) (fun q' x' =>
              ((UserCall.openFile [0x2F, 0x42]).prog smallFs).Ends (tracked fatCells idealDisk) (x'.1, [], [])
                (fun _ y' => (∀ c ∈ y'.2.1, c ∉ [Cell.buf]) ∧
                  q'.Ends (watched fatCells idealDisk) (y'.1, x'.2.behind [.buf] y'.2.1 y'.2.2)
                    (fun a _ => a = 0))))) := by decide +kernel
  obtain ⟨q, x, hsteps, _, y, hclose, hR, q', x', hsteps', _, y', hopen, hR', a, z, hrun, -⟩ := hends
  have hw : Woven smallFs (fatRm smallFs [0x53, 0x55, 0x42, 0x2F, 0x58]) nested
      [.closeFile [0x2F, 0x42] [], .openFile [0x2F, 0x42]] a z.1 :=
    ⟨z.2, .of_steps hsteps (.act (.behind hclose hR) (.of_steps hsteps' (.act (.behind hopen hR') (.of_run hrun))))⟩
  obtain ⟨-, st'', hserial, hdisk⟩ := (interleaving_serial smallFs_sane).1 _ _ _ _ _ hw
  exact ⟨a, z.1, st'', hw, hserial, hdisk⟩

/-- `open /B`, switched in when `rm A` has read the FAT sector: the sector `fat_set` edits and
    writes back to the first FAT is then the root directory. In every serial order the first FAT
    keeps its first byte. -/
theorem fatRm_openFile_not_serial : ∃ a st', smallFs.Sane 7 ∧
    (oneCluster.vol smallFs).WellFormed smallFs ∧
    (oneCluster.vol smallFs).Live smallFs oneCluster.cwdCluster ∧
    Interleaving smallFs (fatRm smallFs [0x41]) oneCluster [.openFile [0x2F, 0x42]] a st' ∧
    ∀ st'', Serial smallFs (fatRm smallFs [0x41]) oneCluster [.openFile [0x2F, 0x42]] st'' →
      st''.disk ≠ st'.disk := by
  -- the seventh operation of `rm A` is the first edit of the FAT sector
  have hmixed : (fatRm smallFs [0x41]).After idealDisk 6 oneCluster (fun q s =>
      ((UserCall.openFile [0x2F, 0x42]).prog smallFs).Ends idealDisk s (fun _ s' =>
        q.Ends idealDisk s' (fun _ st' => st'.disk smallFs.fatLba 0 = 0x41))) := by decide +kernel
  have hfirst : ((UserCall.openFile [0x2F, 0x42]).prog smallFs).Ends idealDisk oneCluster (fun _ s =>
      (fatRm smallFs [0x41]).Ends idealDisk s (fun _ s' => s'.disk smallFs.fatLba 0 = 0xF8)) := by
    decide +kernel
  have hlast : (fatRm smallFs [0x41]).Ends idealDisk oneCluster (fun _ s =>
      ((UserCall.openFile [0x2F, 0x42]).prog smallFs).Ends idealDisk s
        (fun _ s' => s'.disk smallFs.fatLba 0 = 0xF8)) := by decide +kernel
  obtain ⟨q, s, hsteps, _, s', hopen, a, st', hrun, hbyte⟩ := hmixed
  refine ⟨a, st', smallFs_sane, oneCluster_wellFormed, Vol.Live.root,
    Prog.Mixed.of_steps hsteps (.act hopen (.of_run hrun)), ?_⟩
  rintro st'' ⟨t, t', l1, l2, a', hperm, hbefore, hrm, hbehind⟩ heq
  have hmark : st''.disk smallFs.fatLba 0 = 0xF8 := by
    have hl := List.perm_singleton.1 hperm
    -- the open is either before the operation or behind it
    cases hbefore with
    | nil =>
      rw [List.nil_append] at hl
      subst hl
      obtain ⟨_, _, hrm', _, _, hopen', hval⟩ := hlast
      obtain ⟨-, rfl⟩ := Prod.mk.inj (Except.ok.inj (hrm.symm.trans hrm'))
      cases hbehind with
      | cons hu hrest =>
        cases hrest
        obtain ⟨-, rfl⟩ := Prod.mk.inj (Except.ok.inj (hu.symm.trans hopen'))
        exact hval
    | cons hu hrest =>
      obtain ⟨rfl, hnil⟩ := List.cons.inj hl
      obtain ⟨rfl, rfl⟩ := List.append_eq_nil_iff.1 hnil
      cases hrest
      cases hbehind
      obtain ⟨_, _, hfirst, _, _, hrm', hval⟩ := hfirst
      obtain ⟨-, rfl⟩ := Prod.mk.inj (Except.ok.inj (hu.symm.trans hfirst))
      obtain ⟨-, rfl⟩ := Prod.mk.inj (Except.ok.inj (hrm.symm.trans hrm'))
      exact hval
  rw [heq, hbyte] at hmark
  cases hmark

end OctoOS
