import OctoOS.Fat.Effect

set_option autoImplicit false

/-! # Calls on the machine

The calls that change the file system, run on a machine whose disk may fail. A run in which no
access fails is a run on a disk without faults, where the outcomes of `Ops.lean` apply. -/

namespace OctoOS

open Atomic Tiling Linked

/-- The exported calls that write. -/
inductive FatCall where
  | writeFile (path data : Bytes)
  | rm (path : Bytes)
  | mkdir (path : Bytes)

namespace FatCall

def path : FatCall → Bytes
  | .writeFile path _ | .rm path | .mkdir path => path

/-- The data a call writes. -/
def data : FatCall → Bytes
  | .writeFile _ data => data
  | _ => []

def prog (fs : Fs) : FatCall → Fat Int
  | .writeFile path data => fatWriteFile fs path data
  | .rm path => fatRm fs path
  | .mkdir path => fatMkdir fs path

/-- The outcomes of a call. -/
def Outcome (fs : Fs) (v : Vol) : FatCall → Int → Vol → Prop
  | .writeFile path data => v.WriteOutcome fs path data
  | .rm path => v.RmOutcome fs path
  | .mkdir path => v.MkdirOutcome fs path

end FatCall

/-! ## Device errors -/

/-- The step meets an access that fails. -/
def AtaError (fails : Faults) : fatSig.Op → FatState → Prop
  | .ataRead lba, st | .ataWrite lba, st => fails st.ataCount lba = true
  | .ataReadTo lba count _, st => (readSectors fails st.disk count st.ataCount lba).1 = none
  | .ataWriteFrom lba count data, st =>
    (writeSectors fails count st.ataCount lba data st.disk).1 = false
  | _, _ => False

instance (fails : Faults) (o : fatSig.Op) (st : FatState) : Decidable (AtaError fails o st) := by
  cases o <;> unfold AtaError <;> infer_instance

/-- No access of the run of `p` from `st` fails, on a device with the given faults. -/
def NoAtaError {α : Type} (fault : Faults) (p : Fat α) (st : FatState) : Prop :=
  p.Clean (ataHandler fault) (AtaError (ataFails fault)) st
  deriving Decidable

section Errors

variable {fails fault : Faults} {α : Type}

theorem readSectors_of_ne_none {disk : Disk} {count n lba : ℕ}
    (h : (readSectors fails disk count n lba).1 ≠ none) :
    readSectors fails disk count n lba = readSectors noFaults disk count n lba := by
  induction count generalizing n lba with
  | zero => rfl
  | succ count ih =>
    rw [readSectors] at h
    split_ifs at h with hf
    · exact absurd rfl h
    · have hrec : (readSectors fails disk count (n + 1) (lba + 1)).1 ≠ none := by
        intro hz
        simp [hz] at h
      rw [readSectors, readSectors, if_neg hf, if_neg (by simp), ih hrec]

theorem writeSectors_of_ne_false {disk : Disk} {count n lba : ℕ} {data : Bytes}
    (h : (writeSectors fails count n lba data disk).1 ≠ false) :
    writeSectors fails count n lba data disk
      = writeSectors noFaults count n lba data disk := by
  induction count generalizing n lba data disk with
  | zero => rfl
  | succ count ih =>
    rw [writeSectors] at h
    split_ifs at h with hf
    · exact absurd rfl h
    · rw [writeSectors, writeSectors, if_neg hf, if_neg (by simp), ih h]

/-- Off the errors, the faulty disk is a disk without faults. -/
theorem fatHandler_eq_of_not_ataError (o : fatSig.Op) (st : FatState) (h : ¬ AtaError fails o st) :
    fatHandler fails o st = fatHandler noFaults o st := by
  cases o with
  | ataRead lba | ataWrite lba =>
    have hf : ¬ fails st.ataCount lba = true := h
    simp only [fatHandler, if_neg hf]
    rfl
  | ataReadTo lba count buf => simp only [fatHandler, readSectors_of_ne_none h]
  | ataWriteFrom lba count data => simp only [fatHandler, writeSectors_of_ne_false h]
  | _ => rfl

/-- A run without device errors ends as the outcome says. -/
theorem Fs.Yields.run_eq {fs : Fs} {p : Fat α} {st st' : FatState} {a r : α} {v' : Vol}
    (hy : fs.Yields p (st.vol fs) a v') (hclean : NoAtaError fault p st)
    (hrun : p.run (ataHandler fault) st = .ok (r, st')) : r = a ∧ st'.vol fs = v' := by
  rw [Prog.run_eq_of_clean fatHandler_eq_of_not_ataError p st hclean] at hrun
  exact Prog.Computes.run_eq hy hrun

/-- A run without device errors ends. -/
theorem Fs.Yields.run_ok {fs : Fs} {p : Fat α} {st : FatState} {a : α} {v' : Vol}
    (hy : fs.Yields p (st.vol fs) a v') (hclean : NoAtaError fault p st) :
    ∃ st', p.run (ataHandler fault) st = .ok (a, st') ∧ st'.vol fs = v' := by
  rw [Prog.run_eq_of_clean fatHandler_eq_of_not_ataError p st hclean]
  exact hy st rfl

end Errors

/-! ## States -/

/-- A state the calls start in: the volume is consistent, the working directory is live and the
    heap is one that `kmalloc` and `kfree` can leave behind. -/
structure FatState.Ready (fs : Fs) (st : FatState) : Prop where
  consistent : (st.vol fs).Consistent fs
  cwd : (st.vol fs).Live fs st.cwdCluster
  heap : ∃ l, st.heap.blocks = some l

theorem FatState.Ready.vol {fs : Fs} {st : FatState} (h : st.Ready fs) : (st.vol fs).Ready fs := by
  obtain ⟨l, hl⟩ := h.heap
  exact ⟨h.consistent, h.cwd, l, hl, Heap.blockList_of_blocks hl⟩

/-- **Every call runs to its end with one of its outcomes.** -/
theorem FatCall.yields {fs : Fs} {ps : ℕ} (hs : fs.Sane ps) {v : Vol} (hr : v.Ready fs)
    (call : FatCall) (hlen : call.data.length < 2 ^ 32) :
    ∃ r v', fs.Yields (call.prog fs) v r v' ∧ call.Outcome fs v r v' := by
  cases call with
  | writeFile path data => exact fatWriteFile_yields hs hr path hlen
  | rm path => exact fatRm_yields hs hr path
  | mkdir path => exact fatMkdir_yields hs hr path

end OctoOS
