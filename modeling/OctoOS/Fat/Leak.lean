import OctoOS.Fat.Memory
import OctoOS.Fat.Success

set_option autoImplicit false

/-! # Clusters lost to a failing write

`fat_write_file` and `fat_mkdir` take clusters before they store the entry that owns them. This
file runs them on a device whose writes fail by a pattern, and says for every sector write of the
two calls, by what it is for, whether its failure leaves a cluster allocated that belongs to
nothing. Both calls go straight to their exit after the first write that fails. -/

namespace OctoOS

open Atomic Tiling Linked

/-! ## A device with failing writes -/

/-- Which of the sector writes to come fail. -/
abbrev Pattern := ℕ → Bool

namespace Pattern

def never : Pattern := fun _ => false

/-- The first write to fail is the one after `j` others. -/
def First (π : Pattern) (j : ℕ) : Prop := π j = true ∧ ∀ i < j, π i = false

/-- The pattern after `k` writes. When one of them failed, the accesses that follow are those of
    the clean-up, and they succeed. -/
def after (π : Pattern) (k : ℕ) : Pattern :=
  if ∃ i < k, π i = true then never else fun i => π (k + i)

theorem after_zero (π : Pattern) : π.after 0 = π := by
  rw [after, if_neg (by simp)]
  simp only [Nat.zero_add]

theorem never_after (k : ℕ) : never.after k = never := by
  rw [after, if_neg (by simp [never])]
  rfl

variable {π : Pattern} {j k : ℕ}

theorem First.after (h : π.First j) (hk : k ≤ j) : (π.after k).First (j - k) := by
  rw [Pattern.after, if_neg (by
    rintro ⟨i, hi, hbad⟩
    rw [h.2 i (by omega)] at hbad
    cases hbad)]
  refine ⟨?_, fun i hi => h.2 _ (by omega)⟩
  change π (k + (j - k)) = true
  rw [Nat.add_sub_cancel' hk]
  exact h.1

theorem First.after_of_lt (h : π.First j) (hk : j < k) : π.after k = never := if_pos ⟨j, hk, h.1⟩

/-- Without a first failing write there is none at all. -/
theorem eq_never (h : ∀ j, ¬ π.First j) : π = never := by
  funext j
  induction j using Nat.strongRecOn with
  | ind j ih =>
    by_contra hbad
    exact h j ⟨by simpa [never] using hbad, ih⟩

theorem First.unique (hj : π.First j) (hk : π.First k) : j = k := by
  rcases lt_trichotomy j k with hlt | heq | hlt
  · exact absurd (hk.2 j hlt) (by simp [hj.1])
  · exact heq
  · exact absurd (hj.2 k hlt) (by simp [hk.1])

end Pattern

/-- The sector writes an operation asks for. -/
def FatOp.writes : FatOp → ℕ
  | .ataWrite _ => 1
  | .ataWriteFrom _ count _ => count
  | _ => 0

def FatOp.Writeless (o : FatOp) : Prop := o.writes = 0

/-- The driver on a device whose writes fail by a pattern. A write that fails leaves its sector as
    it was; reads succeed. -/
def writeFaults : Handler fatSig (FatState × Pattern) := fun o s =>
  (fatHandler (fun n _ => decide (s.1.ataCount ≤ n ∧ n < s.1.ataCount + FatOp.writes o) &&
    s.2 (n - s.1.ataCount)) o s.1).map (fun r => (r.1, r.2, s.2.after (FatOp.writes o)))

section Device

variable {fs : Fs} {ps : ℕ} {v v' : Vol} {st : FatState} {π : Pattern} {j : ℕ} {α : Type}
  {p : Fat α}

/-- An operation none of whose writes fails. -/
theorem writeFaults_passes (o : fatSig.Op) (h : ∀ i < FatOp.writes o, π i = false) :
    writeFaults o (st, π) = (fatHandler noFaults o st).map
      (fun r => (r.1, r.2, π.after (FatOp.writes o))) := by
  have hfails : (fun n (_ : ℕ) => decide (st.ataCount ≤ n ∧ n < st.ataCount + FatOp.writes o) &&
      π (n - st.ataCount)) = fun _ _ => false := by
    funext n _
    by_cases hn : st.ataCount ≤ n ∧ n < st.ataCount + FatOp.writes o
    · rw [h _ (by omega), Bool.and_false]
    · rw [decide_eq_false hn, Bool.false_and]
  unfold writeFaults
  rw [hfails]

theorem writeFaults_writeless (o : fatSig.Op) (h : FatOp.Writeless o) :
    writeFaults o (st, π) = (fatHandler noFaults o st).map (fun r => (r.1, r.2, π)) := by
  have h0 : FatOp.writes o = 0 := h
  rw [writeFaults_passes o (by rw [h0]; exact fun i hi => absurd hi (by omega)), h0, π.after_zero]

theorem writeFaults_never (o : fatSig.Op) : writeFaults o (st, Pattern.never)
    = (fatHandler noFaults o st).map (fun r => (r.1, r.2, Pattern.never)) := by
  have h := @writeFaults_passes st Pattern.never o (fun _ _ => rfl)
  rwa [Pattern.never_after] at h

theorem run_never (p : Fat α) : p.run writeFaults (st, Pattern.never)
    = (p.run (fatHandler noFaults) st).map (fun r => (r.1, r.2, Pattern.never)) :=
  p.all_true.run_beside (fun o _ _ => writeFaults_never o) st

theorem run_writeless (hp : p.All FatOp.Writeless) :
    p.run writeFaults (st, π)
      = (p.run (fatHandler noFaults) st).map (fun r => (r.1, r.2, π)) :=
  hp.run_beside (fun o _ ho => writeFaults_writeless o ho) st

/-- Once a write has failed, a program computes what it computes without errors. -/
theorem Fs.Yields.ends_never {a : α} (hy : fs.Yields p v a v') (hst : st.vol fs = v) :
    p.Ends writeFaults (st, Pattern.never) (fun b s => b = a ∧ s.1.vol fs = v') := by
  obtain ⟨st', hrun, hvol⟩ := hy st hst
  refine ⟨a, (st', Pattern.never), ?_, rfl, hvol⟩
  rw [run_never, hrun]
  rfl

/-- A program that only reads does not notice the pattern. -/
theorem Fs.Yields.ends_reading {a : α} (hy : fs.Yields p v a v') (hp : p.All FatOp.Writeless)
    (hst : st.vol fs = v) :
    p.Ends writeFaults (st, π) (fun b s => b = a ∧ s.1.vol fs = v' ∧ s.2 = π) := by
  obtain ⟨st', hrun, hvol⟩ := hy st hst
  refine ⟨a, (st', π), ?_, rfl, hvol, rfl⟩
  rw [run_writeless hp, hrun]
  rfl

/-! ## The parts that only read -/

theorem kmalloc_writeless (size : ℕ) : (kmalloc size).All FatOp.Writeless :=
  ⟨rfl, fun _ => trivial⟩

theorem kfree_writeless (ptr : ℕ) : (kfree ptr).All FatOp.Writeless := ⟨rfl, fun _ => trivial⟩

theorem writeless_of_reads (hp : p.Only FatOp.Reads) : p.All FatOp.Writeless := by
  refine (hp.mono (fun o ho => ?_)).all
  cases o <;> first | rfl | exact ho.elim

theorem dirFind_writeless (d : UInt16) (name : Name83) : (dirFind fs d name).All FatOp.Writeless :=
  writeless_of_reads ((dirFind_looks d name).mono (fun _ => FatOp.Looks.reads))

theorem dirFreeSlot_writeless (d : UInt16) : (dirFreeSlot fs d).All FatOp.Writeless :=
  writeless_of_reads ((dirFreeSlot_looks d).mono (fun _ => FatOp.Looks.reads))

theorem parentOf_writeless (path : Bytes) : (parentOf fs path).All FatOp.Writeless :=
  writeless_of_reads (parentOf_reads path)

/-! ## The writes of the parts -/

theorem ataRead_run (lba : ℕ) : (ataRead lba).run writeFaults (st, π) = .ok (true, { st with
    ataCount := st.ataCount + 1, sectorBuf := transfer st.sectorBuf (st.disk lba) }, π) :=
  run_writeless ⟨rfl, fun _ => trivial⟩

theorem bufStore_run (off : ℕ) (data : Bytes) : (bufStore off data).run writeFaults (st, π)
    = .ok ((), { st with sectorBuf := storeBytes st.sectorBuf off data }, π) :=
  run_writeless ⟨rfl, fun _ => trivial⟩

theorem perform_passes (o : fatSig.Op) (h : ∀ i < FatOp.writes o, π i = false) :
    (perform o).run writeFaults (st, π) = ((perform o).run (fatHandler noFaults) st).map
      (fun r => (r.1, r.2, π.after (FatOp.writes o))) := by
  rw [Prog.run_perform, Prog.run_perform, writeFaults_passes o h]

theorem ataWrite_passes (lba : ℕ) (h : π 0 = false) :
    (ataWrite lba).run writeFaults (st, π) = .ok (true, { st with
      ataCount := st.ataCount + 1,
      disk := Function.update st.disk lba (transfer (st.disk lba) st.sectorBuf) }, π.after 1) :=
  perform_passes (FatOp.ataWrite lba) (fun i hi => by
    obtain rfl : i = 0 := Nat.lt_one_iff.1 hi
    exact h)

theorem ataWrite_fails (lba : ℕ) (h : π 0 = true) : (ataWrite lba).run writeFaults (st, π)
    = .ok (false, { st with ataCount := st.ataCount + 1 }, Pattern.never) := by
  have hafter : π.after 1 = Pattern.never := if_pos ⟨0, Nat.one_pos, h⟩
  refine (Prog.run_perform _ _ _).trans ?_
  simp only [writeFaults, fatHandler, FatOp.writes, hafter, Nat.sub_self, h, Bool.and_true]
  rw [if_pos (by simp)]
  rfl

/-- One round of `fat_set` up to its write. -/
theorem fatSetLoop_round (c x : UInt16) (f : ℕ) : ∃ st1 : FatState, st1.vol fs = st.vol fs ∧
    (∀ n, (fatSetLoop fs c x (n + 1) f).run (fatHandler noFaults) st
      = (ataWrite (w32 (fs.fatLba + f * fs.fatSectors + c.toNat * 2 / sectorSize)) >>= fun ok =>
        if ok = true then fatSetLoop fs c x n (f + 1) else pure false).run
          (fatHandler noFaults) st1) ∧
    ∀ n π, (fatSetLoop fs c x (n + 1) f).run writeFaults (st, π)
      = (ataWrite (w32 (fs.fatLba + f * fs.fatSectors + c.toNat * 2 / sectorSize)) >>= fun ok =>
        if ok = true then fatSetLoop fs c x n (f + 1) else pure false).run writeFaults (st1, π) := by
  refine ⟨_, ?_, fun n => rfl, fun n π => ?_⟩
  rotate_left
  · rw [fatSetLoop, Prog.run_bind_ok _ (ataRead_run _), if_pos rfl, Prog.run_bind_ok _ (bufStore_run _ _),
      Prog.run_bind_ok _ (bufStore_run _ _)]
  · rfl

theorem fatSetLoop_passes (c x : UInt16) (n f : ℕ) (hj : π.First j) (hn : n ≤ j) :
    ∃ π' : Pattern, π'.First (j - n) ∧ (fatSetLoop fs c x n f).run writeFaults (st, π)
      = ((fatSetLoop fs c x n f).run (fatHandler noFaults) st).map
        (fun r => (r.1, r.2, π')) := by
  induction n generalizing f st π j with
  | zero => exact ⟨π, hj, rfl⟩
  | succ n ih =>
    obtain ⟨st1, -, hideal, hfault⟩ := @fatSetLoop_round fs st c x f
    obtain ⟨π', hπ', hrun⟩ := ih (f + 1) (hj.after (by omega : 1 ≤ j)) (by omega)
    refine ⟨π', by rwa [Nat.sub_sub, Nat.add_comm] at hπ', ?_⟩
    rw [hideal, hfault, Prog.run_bind_ok _ (ataWrite_passes _ (hj.2 0 (by omega))), if_pos rfl, hrun]
    rfl

/-- The copies before the one whose write fails are written. -/
theorem fatSetLoop_fails (c x : UInt16) (n f : ℕ) (hj : π.First j) (hn : j < n) :
    ∃ st1 st' : FatState, (fatSetLoop fs c x j f).run (fatHandler noFaults) st
        = .ok (true, st1) ∧ st'.vol fs = st1.vol fs ∧
      (fatSetLoop fs c x n f).run writeFaults (st, π) = .ok (false, st', Pattern.never) := by
  obtain ⟨n, rfl⟩ : ∃ m, n = m + 1 := ⟨n - 1, by omega⟩
  induction j generalizing n f st π with
  | zero =>
    obtain ⟨st1, hvol, -, hfault⟩ := @fatSetLoop_round fs st c x f
    refine ⟨st, { st1 with ataCount := st1.ataCount + 1 }, rfl, hvol, ?_⟩
    rw [hfault, Prog.run_bind_ok _ (ataWrite_fails _ hj.1), if_neg (by decide)]
    rfl
  | succ j ih =>
    obtain ⟨n, rfl⟩ : ∃ m, n = m + 1 := ⟨n - 1, by omega⟩
    obtain ⟨st1, -, hideal, hfault⟩ := @fatSetLoop_round fs st c x f
    obtain ⟨st2, st', hrun, hvol, hrun'⟩ := ih (f + 1) (hj.after (by omega : 1 ≤ j + 1)) n (by omega)
    refine ⟨st2, st', ?_, hvol, ?_⟩
    · rw [hideal, ← hrun]
      rfl
    · rw [hfault, Prog.run_bind_ok _ (ataWrite_passes _ (hj.2 0 (by omega))), if_pos rfl, hrun']

/-- `fat_set` when the write to copy `j` fails; the view sees the first copy. -/
theorem fatSet_fails (hs : fs.Sane ps) {c : UInt16} (hc : c.toNat ≤ fs.maxCluster) (x : UInt16)
    (hst : st.vol fs = v) (hj : π.First j) (hlt : j < fs.numFats) :
    (fatSet fs c x).Ends writeFaults (st, π) (fun ok s => ok = false ∧
      s.1.vol fs = (if j = 0 then v else v.setFat c x) ∧ s.2 = Pattern.never) := by
  obtain ⟨st1, st', hrun, hvol, hrun'⟩ := @fatSetLoop_fails fs st π j c x fs.numFats 0 hj hlt
  refine ⟨_, _, hrun', rfl, hvol.trans ?_, rfl⟩
  by_cases h0 : j = 0
  · subst h0
    cases hrun
    exact hst.trans (if_pos rfl).symm
  · rw [if_neg h0]
    subst hst
    exact (Prog.Computes.run_eq
      (fatSetLoop_yields hs hc x (Nat.pos_of_ne_zero h0) (le_of_lt hlt)) hrun).2

theorem fatSet_passes (hs : fs.Sane ps) {c : UInt16} (hc : c.toNat ≤ fs.maxCluster) (x : UInt16)
    (hst : st.vol fs = v) (hj : π.First j) (hle : fs.numFats ≤ j) :
    (fatSet fs c x).Ends writeFaults (st, π) (fun ok s => ok = true ∧
      s.1.vol fs = v.setFat c x ∧ s.2.First (j - fs.numFats)) := by
  obtain ⟨π', hπ', hrun⟩ := @fatSetLoop_passes fs st π j c x fs.numFats 0 hj hle
  obtain ⟨st', hideal, hvol⟩ := fatSet_yields hs hc x st hst
  exact ⟨true, (st', π'), by rw [fatSet, hrun, ← fatSet, hideal]; rfl, rfl, hvol, hπ'⟩

theorem writeSectors_fails {fails : Faults} (count n lba : ℕ) (data : Bytes) (disk : Disk)
    {i : ℕ} (hi : i < count) (hf : ∀ l, fails (n + i) l = true) :
    ∃ k d', writeSectors fails count n lba data disk = (false, k, d') ∧
      ∀ l, (∀ i < count, l ≠ lba + i) → d' l = disk l := by
  induction count generalizing n lba data disk i with
  | zero => exact absurd hi (by omega)
  | succ count ih =>
    rw [writeSectors]
    by_cases hnow : fails n lba = true
    · rw [if_pos hnow]
      exact ⟨_, disk, rfl, fun _ _ => rfl⟩
    · rw [if_neg hnow]
      obtain ⟨i, rfl⟩ : ∃ m, i = m + 1 := ⟨i - 1, by
        have : i ≠ 0 := by
          rintro rfl
          exact hnow (hf lba)
        omega⟩
      obtain ⟨k, d', hrun, hout⟩ := ih (n + 1) (lba + 1) (data.drop sectorSize)
        (Function.update disk lba (transfer (disk lba) (toSector data))) (Nat.lt_of_succ_lt_succ hi)
        (fun l => by rw [Nat.add_assoc, Nat.add_comm 1]; exact hf l)
      refine ⟨k, d', hrun, fun l hl => ?_⟩
      rw [hout l (fun i hi => by have := hl (i + 1) (by omega); omega)]
      exact Function.update_of_ne (by simpa using hl 0 (by omega)) _ _

section

variable {c : UInt16} (hs : fs.Sane ps) (hc : fs.IsCluster c)

include hs hc

/-- The data of a cluster when the write of one of its sectors fails. -/
theorem ataWriteFrom_fails (data : Bytes) (hst : st.vol fs = v) (hj : π.First j)
    (hlt : j < fs.sectorsPerCluster) :
    (ataWriteFrom (clusterLba fs c) fs.sectorsPerCluster data).Ends writeFaults (st, π)
      (fun ok s => ok = false ∧ (∃ a, s.1.vol fs = v.setArea c a) ∧ s.2 = Pattern.never) := by
  subst hst
  have hsec := hc.areaSectors
  obtain ⟨k, d', hrun, hout⟩ := @writeSectors_fails
    (fun n _ => decide (st.ataCount ≤ n ∧ n < st.ataCount + fs.sectorsPerCluster) &&
      π (n - st.ataCount)) fs.sectorsPerCluster st.ataCount (fs.areaLba c) data st.disk j hlt
    (fun _ => by simp [hlt, hj.1])
  refine ⟨false, ({ st with disk := d', ataCount := k }, Pattern.never),
    (Prog.run_perform _ _ _).trans ?_, rfl, ⟨fs.areaOf d' c, ?_⟩, rfl⟩
  · rw [clusterLba_eq hs hc, ← hj.after_of_lt hlt]
    exact congrArg (fun r : Bool × ℕ × Disk => Except.ok
      (r.1, { st with ataCount := r.2.1, disk := r.2.2 }, π.after fs.sectorsPerCluster)) hrun
  · exact FatState.vol_setArea hs (Or.inr hc) st d' (fun lba hl => hout lba (by rwa [hsec] at hl)) _ _

theorem ataWriteFrom_passes {data : Bytes} (hlen : data.length = fs.clusterBytes)
    (hst : st.vol fs = v) (hj : π.First j) (hle : fs.sectorsPerCluster ≤ j) :
    (ataWriteFrom (clusterLba fs c) fs.sectorsPerCluster data).Ends writeFaults (st, π)
      (fun ok s => ok = true ∧ s.1.vol fs = v.setArea c (toSector data) ∧
        s.2.First (j - fs.sectorsPerCluster)) := by
  obtain ⟨st', hrun, hvol⟩ := ataWriteFrom_yields hs hc hlen st hst
  have hpass : ∀ i < fs.sectorsPerCluster, π i = false := fun i hi => hj.2 i (lt_of_lt_of_le hi hle)
  refine ⟨true, (st', π.after fs.sectorsPerCluster), ?_, rfl, hvol, hj.after hle⟩
  refine (perform_passes (FatOp.ataWriteFrom (clusterLba fs c) fs.sectorsPerCluster data) hpass).trans ?_
  exact congrArg (Except.map _) hrun

theorem clusterZeroLoop_ends (n s : ℕ) (hns : s + n = fs.sectorsPerCluster)
    (hst : (st.vol fs).fat = v.fat) (hj : π.First j) :
    (clusterZeroLoop fs c n s).Ends writeFaults (st, π) (fun ok s => (s.1.vol fs).fat = v.fat ∧
      (j < n → ok = false) ∧ (n ≤ j → ok = true ∧ s.2.First (j - n))) := by
  induction n generalizing s st π j with
  | zero => exact Prog.Ends.pure ⟨hst, fun h => absurd h (by omega), fun _ => ⟨rfl, hj⟩⟩
  | succ n ih =>
    have hlba := Fs.clusterLba_add hs hc (k := s) (by omega)
    rw [clusterZeroLoop, hlba]
    rcases Nat.eq_zero_or_pos j with rfl | hpos
    · -- this sector fails
      refine Prog.Ends.bind_ok (ataWrite_fails _ hj.1) ?_
      rw [if_neg (by decide)]
      exact Prog.Ends.pure ⟨hst, fun _ => rfl, fun h => absurd h (by omega)⟩
    · have hsec := hc.areaSectors
      have hvol := FatState.vol_setArea hs (Or.inr hc : fs.IsArea c) st
        (Function.update st.disk (fs.areaLba c + s)
          (transfer (st.disk (fs.areaLba c + s)) st.sectorBuf))
        (fun lba hl => Function.update_of_ne (hl s (by omega)) _ _) st.sectorBuf (st.ataCount + 1)
      refine Prog.Ends.bind_ok (ataWrite_passes _ (hj.2 0 hpos)) ?_
      rw [if_pos rfl]
      refine (ih (s + 1) (by omega) ((congrArg Vol.fat hvol).trans hst) (hj.after hpos)).mono ?_
      rintro ok s' ⟨hfat, hbad, hgood⟩
      refine ⟨hfat, fun h => hbad (by omega), fun h => ?_⟩
      obtain ⟨hok, hfirst⟩ := hgood (by omega)
      exact ⟨hok, by rwa [Nat.sub_sub, Nat.add_comm 1] at hfirst⟩

/-- `cluster_zero`, and whether a write of it fails. -/
theorem clusterZero_ends (hst : (st.vol fs).fat = v.fat) (hj : π.First j) :
    (clusterZero fs c).Ends writeFaults (st, π) (fun ok s => (s.1.vol fs).fat = v.fat ∧
      (j < fs.sectorsPerCluster → ok = false) ∧
      (fs.sectorsPerCluster ≤ j → ok = true ∧ s.2.First (j - fs.sectorsPerCluster))) := by
  unfold clusterZero
  generalize List.replicate sectorSize (0 : UInt8) = zeros
  exact Prog.Ends.bind_ok (bufStore_run _ _) (clusterZeroLoop_ends hs hc _ 0 (Nat.zero_add _) hst hj)

end

/-- `loc_update`, and whether its write fails. -/
theorem locUpdate_ends (hs : fs.Sane ps) {s : Slot} (hsl : fs.IsSlot s) (d : Dirent)
    (hst : (st.vol fs).fat = v.fat) (hj : π.First j) :
    (locUpdate (s.loc fs) d).Ends writeFaults (st, π) (fun ok s => (s.1.vol fs).fat = v.fat ∧
      (ok = true ↔ 0 < j)) := by
  refine Prog.Ends.bind_ok (ataRead_run _) ?_
  rw [if_pos rfl]
  refine Prog.Ends.bind_ok (bufStore_run _ _) ?_
  rcases Nat.eq_zero_or_pos j with rfl | hpos
  · exact ⟨_, _, ataWrite_fails _ hj.1, hst, by simp⟩
  · refine ⟨_, _, ataWrite_passes _ (hj.2 0 hpos), ?_, by simp [hpos]⟩
    refine Eq.trans (congrArg Vol.fat (FatState.vol_setArea hs hsl.1 st _ (fun lba hl => ?_) _ _)) hst
    exact Function.update_of_ne (hl _ hsl.sector_lt) _ _

theorem findFree_writeless (fuel : ℕ) (c : UInt16) : (findFree fs fuel c).All FatOp.Writeless := by
  refine writeless_of_reads (Prog.Only.mono ?_ (fun _ => FatOp.Looks.reads))
  induction fuel generalizing c with
  | zero => rfl
  | succ fuel ih =>
    rw [findFree]
    refine Prog.Only.ite ?_ (Prog.Only.pure _)
    exact (fatGet_looks c).bind (fun x => Prog.Only.ite (Prog.Only.pure _) (ih _))

/-- `cluster_alloc` when a cluster is free, and whether a write of it fails. -/
theorem clusterAlloc_ends (hs : fs.Sane ps) (hst : st.vol fs = v) (hj : π.First j) {x : UInt16}
    (hx : fs.IsCluster x) (hfind : fs.Yields (findFree fs clusterLoopBound 2) v (some x) v) :
    (clusterAlloc fs).Ends writeFaults (st, π) (fun r s =>
      (j < fs.numFats ∧ r = 0 ∧ s.1.vol fs = (if j = 0 then v else v.setFat x clusterEoc) ∧
        s.2 = Pattern.never) ∨
      (fs.numFats ≤ j ∧ r = x ∧ s.1.vol fs = v.setFat x clusterEoc ∧
        s.2.First (j - fs.numFats))) := by
  rw [clusterAlloc, clusterAllocLoop_eq]
  refine (hfind.ends_reading (findFree_writeless _ _) hst).bind ?_
  rintro r ⟨st1, π1⟩ ⟨rfl, hst1, rfl⟩
  by_cases hlt : j < fs.numFats
  · refine (fatSet_fails hs hx.2 clusterEoc hst1 hj hlt).bind ?_
    rintro ok s ⟨rfl, hvol, hnever⟩
    rw [if_neg (by decide)]
    exact Prog.Ends.pure (Or.inl ⟨hlt, rfl, hvol, hnever⟩)
  · refine (fatSet_passes hs hx.2 clusterEoc hst1 hj (not_lt.1 hlt)).bind ?_
    rintro ok s ⟨rfl, hvol, hfirst⟩
    rw [if_pos rfl]
    exact Prog.Ends.pure (Or.inr ⟨not_lt.1 hlt, rfl, hvol, hfirst⟩)

end Device

/-! ## The writes of `chain_write` -/

/-- The sector writes of `chain_write` before it takes its cluster `i`: every cluster is entered in
    the FAT copies, linked to the one before it in each of them, and filled. -/
def Fs.writesBefore (fs : Fs) : ℕ → ℕ
  | 0 => 0
  | i + 1 => fs.writesBefore i + (fs.numFats + (if i = 0 then 0 else fs.numFats) +
      fs.sectorsPerCluster)

/-- Write `j` of `chain_write` enters a cluster in a FAT copy other than the first, or links one to
    its chain in the first copy. -/
def Fs.ChainLeak (fs : Fs) (j : ℕ) : Prop :=
  ∃ i, (∃ f, 0 < f ∧ f < fs.numFats ∧ j = fs.writesBefore i + f) ∨
    (0 < i ∧ j = fs.writesBefore i + fs.numFats)

/-- The clusters that were free still are. -/
def Vol.StillFree (fs : Fs) (v v' : Vol) : Prop :=
  ∀ c, fs.IsCluster c → v.fat c = clusterFree → v'.fat c = clusterFree

/-- A call that answers -1 gives every cluster back, unless `lost`. -/
def GivesBack (fs : Fs) (v : Vol) (lost : Prop) (rc : Int) (s : FatState × Pattern) : Prop :=
  (rc = -1 → v.StillFree fs (s.1.vol fs)) ↔ ¬ lost

/-- How the loop of `chain_write` ends on `data` when the first write to fail is `j`. -/
def ChainEnd (fs : Fs) (v0 : Vol) (data : Bytes) (j : ℕ) (r : UInt16) (s : FatState × Pattern) :
    Prop :=
  (j < fs.writesBefore (fs.clustersFor data.length) ∧ r = 0 ∧
    (v0.StillFree fs (s.1.vol fs) ↔ ¬ fs.ChainLeak j)) ∨
  (fs.writesBefore (fs.clustersFor data.length) ≤ j ∧
    s.2.First (j - fs.writesBefore (fs.clustersFor data.length)) ∧
    ∃ ds prev, ChainState fs v0 (s.1.vol fs) data ds r prev)

section Chain

variable {fs : Fs} {ps : ℕ} {v v0 v' w : Vol} {st : FatState} {π : Pattern} {i j : ℕ}
  {data done rest : Bytes} {ds : List UInt16} {first prev c : UInt16} {l : List Blk} {b : Blk}

theorem Vol.stillFree_of_fat (h : v'.fat = v.fat) : v.StillFree fs v' :=
  fun c _ hc => by rw [h, hc]

/-- An exit with a message and the answer -1. -/
theorem givesBack_exit {lost : Prop} (h : v.StillFree fs (st.vol fs) ↔ ¬ lost) (text : Bytes) :
    (print text >>= fun _ => pure (-1)).Ends writeFaults (st, π) (GivesBack fs v lost) := by
  refine Prog.Ends.bind_ok (run_writeless ⟨rfl, fun _ => trivial⟩) (Prog.Ends.pure ?_)
  exact ⟨fun hfree => h.1 (hfree rfl), fun hno _ => h.2 hno⟩

/-- An exit before anything is taken. -/
theorem givesBack_refused {lost : Prop} (hfat : (st.vol fs).fat = v.fat) (hno : ¬ lost) (text : Bytes) :
    (print text >>= fun _ => pure (-1)).Ends writeFaults (st, π) (GivesBack fs v lost) :=
  givesBack_exit (iff_of_true (Vol.stillFree_of_fat hfat) hno) text

theorem Fs.writesBefore_mono (fs : Fs) : Monotone fs.writesBefore :=
  monotone_nat_of_le_succ (fun _ => Nat.le_add_right _ _)

theorem Fs.writesBefore_succ (fs : Fs) (i : ℕ) : fs.writesBefore (i + 1) = fs.writesBefore i +
    (fs.numFats + (if i = 0 then 0 else fs.numFats) + fs.sectorsPerCluster) := rfl

/-- The position of a write in the round for cluster `i` decides whether its failure loses one. -/
theorem Fs.chainLeak_iff (hs : fs.Sane ps) (hj : fs.writesBefore i + j < fs.writesBefore (i + 1)) :
    fs.ChainLeak (fs.writesBefore i + j)
      ↔ (0 < j ∧ j < fs.numFats) ∨ (0 < i ∧ j = fs.numFats) := by
  have hpos := hs.numFats
  have hround := fs.writesBefore_succ
  -- a write at the start of round `k` is one of round `i` only for `k = i`
  have hsame : ∀ k f, fs.writesBefore i + j = fs.writesBefore k + f →
      fs.writesBefore k + f < fs.writesBefore (k + 1) → k = i := by
    intro k f heq hlt
    rcases lt_trichotomy k i with hk | hk | hk
    · have := fs.writesBefore_mono (show k + 1 ≤ i from hk)
      omega
    · exact hk
    · have := fs.writesBefore_mono (show i + 1 ≤ k from hk)
      omega
  constructor
  · rintro ⟨k, ⟨f, hf, hlt, heq⟩ | ⟨hk, heq⟩⟩
    · obtain rfl := hsame k f heq (by rw [hround]; omega)
      exact Or.inl ⟨by omega, by omega⟩
    · obtain rfl := hsame k _ heq (by rw [hround, if_neg (by omega)]; omega)
      exact Or.inr ⟨hk, by omega⟩
  · rintro (⟨hf, hlt⟩ | ⟨hi, rfl⟩)
    · exact ⟨i, Or.inl ⟨j, hf, hlt, rfl⟩⟩
    · exact ⟨i, Or.inr ⟨hi, rfl⟩⟩

/-- The exit of `chain_write` after a write failed. -/
theorem chainWriteFail_ends (hs : fs.Sane ps) (hst : st.vol fs = w) (hl : w.heap = some l)
    (hb : b ∈ usedOf l) (hlinks : first ≠ 0 → Links w.fat fs.IsCluster isEoc first ds)
    (hnil : first = 0 → ds = []) :
    (chainWriteFail fs (b.addr + blockHeader) first).Ends writeFaults (st, Pattern.never)
      (fun r s => r = 0 ∧ (s.1.vol fs).fat = (w.free ds).fat) := by
  refine ((chainWriteFail_free hs hl hb hlinks hnil).ends_never hst).mono ?_
  rintro r s ⟨rfl, hvol⟩
  exact ⟨rfl, by rw [hvol]⟩

/-- A cluster that is taken and not linked is not freed. -/
theorem ChainState.not_stillFree (h : ChainState fs v0 v done ds first prev) (hc : fs.IsCluster c)
    (hfree : v.fat c = clusterFree) (hw : w.fat = ((v.setFat c clusterEoc).free ds).fat) :
    ¬ v0.StillFree fs w := by
  have hcds : c ∉ ds := fun hm => h.fat_ne_free hm hfree
  intro hstill
  have hlost := hstill c hc (by rw [← h.fat c hcds, hfree])
  rw [hw] at hlost
  simp only [Vol.free, if_neg hcds, Vol.setFat, Function.update_self] at hlost
  cases hlost

/-- The chain so far does not depend on a cluster that is taken and not linked. -/
theorem ChainState.links_setFat (h : ChainState fs v0 v done ds first prev)
    (hfree : v.fat c = clusterFree) (hfirst : first ≠ 0) :
    Links (v.setFat c clusterEoc).fat fs.IsCluster isEoc first ds := by
  refine (h.links_of_first hfirst).congr (fun y hy => Function.update_of_ne ?_ _ _)
  rintro rfl
  exact h.fat_ne_free hy hfree

/-- The link of a new cluster to the one before it, and whether a write of it fails. -/
theorem linkNew_ends (hs : fs.Sane ps) (h : ChainState fs v0 v done ds first prev)
    (hst : st.vol fs = v.setFat c clusterEoc) (hj : π.First j) :
    (if prev ≠ 0 then fatSet fs prev c else pure true : Fat Bool).Ends writeFaults (st, π)
      (fun ok s => (ds ≠ [] ∧ j < fs.numFats ∧ ok = false ∧ s.2 = Pattern.never ∧
        s.1.vol fs = if j = 0 then v.setFat c clusterEoc else v.linkNew prev c) ∨
      ((if ds.length = 0 then 0 else fs.numFats) ≤ j ∧ ok = true ∧ s.1.vol fs = v.linkNew prev c ∧
        s.2.First (j - (if ds.length = 0 then 0 else fs.numFats)))) := by
  unfold Vol.linkNew
  rcases h.ends with ⟨rfl, -, rfl⟩ | ⟨es, rfl, -⟩
  · simp only [ne_eq, not_true_eq_false, if_false]
    exact Prog.Ends.pure (Or.inr ⟨Nat.zero_le _, rfl, hst, hj⟩)
  · have hpc : fs.IsCluster prev := (h.fresh prev (by simp)).1
    have hlen : ¬ (es ++ [prev]).length = 0 := by simp
    simp only [if_pos hpc.ne_zero, if_neg hlen]
    by_cases hlt : j < fs.numFats
    · refine (fatSet_fails hs hpc.2 c hst hj hlt).mono ?_
      rintro ok s ⟨rfl, hvol, hnever⟩
      exact Or.inl ⟨by simp, hlt, rfl, hnever, hvol⟩
    · refine (fatSet_passes hs hpc.2 c hst hj (not_lt.1 hlt)).mono ?_
      rintro ok s ⟨rfl, hvol, hfirst⟩
      exact Or.inr ⟨not_lt.1 hlt, rfl, hvol, hfirst⟩

/-- An exit of `chain_write` in the round for cluster `i`. -/
theorem ChainEnd.failed (hs : fs.Sane ps) {s : FatState × Pattern}
    (hround : fs.writesBefore i + j < fs.writesBefore (i + 1))
    (hi : i < fs.clustersFor data.length)
    (h : v0.StillFree fs (s.1.vol fs) ↔ ¬ ((0 < j ∧ j < fs.numFats) ∨ (0 < i ∧ j = fs.numFats))) :
    ChainEnd fs v0 data (fs.writesBefore i + j) 0 s :=
  Or.inl ⟨lt_of_lt_of_le hround (fs.writesBefore_mono hi), rfl, by rw [Fs.chainLeak_iff hs hround, h]⟩

/-- An exit with every cluster that was taken in the chain: all of them are freed. -/
theorem ChainState.exit_freed (hs : fs.Sane ps) (h : ChainState fs v0 v done ds first prev)
    (hst : st.vol fs = w) (hfat : w.fat = v.fat) (hl : w.heap = some l) (hb : b ∈ usedOf l)
    (hround : fs.writesBefore i + j < fs.writesBefore (i + 1)) (hi : i < fs.clustersFor data.length)
    (hj : ¬ ((0 < j ∧ j < fs.numFats) ∨ (0 < i ∧ j = fs.numFats))) :
    (chainWriteFail fs (b.addr + blockHeader) first).Ends writeFaults (st, Pattern.never)
      (ChainEnd fs v0 data (fs.writesBefore i + j)) := by
  have hlinks := h.links_of_first
  have hfree := h.free_fat
  rw [← hfat] at hlinks
  refine (chainWriteFail_ends hs hst hl hb hlinks h.nil_of_first).mono ?_
  rintro r s ⟨rfl, hs'⟩
  have hsame : (w.free ds).fat = (v.free ds).fat := by
    unfold Vol.free
    rw [hfat]
  exact ChainEnd.failed hs hround hi
    (iff_of_true (Vol.stillFree_of_fat ((hs'.trans hsame).trans hfree)) hj)

section

variable (hs : fs.Sane ps) (h : ChainState fs v0 v done ds first prev) (hc : fs.IsCluster c)
  (hfree : v.fat c = clusterFree)

include hs h hc hfree

/-- An exit with a cluster that is taken and not linked: it is lost. -/
theorem ChainState.exit_lost (hst : st.vol fs = v.setFat c clusterEoc) (hl : v.heap = some l)
    (hb : b ∈ usedOf l) (hround : fs.writesBefore i + j < fs.writesBefore (i + 1))
    (hi : i < fs.clustersFor data.length)
    (hj : (0 < j ∧ j < fs.numFats) ∨ (0 < i ∧ j = fs.numFats)) :
    (chainWriteFail fs (b.addr + blockHeader) first).Ends writeFaults (st, Pattern.never)
      (ChainEnd fs v0 data (fs.writesBefore i + j)) := by
  refine (chainWriteFail_ends hs hst hl hb (h.links_setFat hfree) h.nil_of_first).mono ?_
  rintro r s ⟨rfl, hs'⟩
  exact ChainEnd.failed hs hround hi
    (iff_of_false (h.not_stillFree hc hfree hs') (not_not_intro hj))

/-- The exit where entering the new cluster in the FAT fails: harmless for the first copy only. -/
theorem ChainState.exit_alloc (hl : v.heap = some l) (hb : b ∈ usedOf l)
    (hmore : ds.length < fs.clustersFor data.length) (hj : j < fs.numFats)
    (hst : st.vol fs = if j = 0 then v else v.setFat c clusterEoc) :
    (chainWriteFail fs (b.addr + blockHeader) first).Ends writeFaults (st, Pattern.never)
      (ChainEnd fs v0 data (fs.writesBefore ds.length + j)) := by
  have hround := fs.writesBefore_succ ds.length
  by_cases h0 : j = 0
  · rw [if_pos h0] at hst
    exact h.exit_freed hs hst rfl hl hb (by omega) hmore (by omega)
  · rw [if_neg h0] at hst
    exact h.exit_lost hs hc hfree hst hl hb (by omega) hmore (by omega)

/-- The exit where linking the new cluster fails: it is lost when the first copy does not have the
    link. -/
theorem ChainState.exit_link (hl : v.heap = some l) (hb : b ∈ usedOf l)
    (hmore : ds.length < fs.clustersFor data.length) (hne : ds ≠ []) (hle : fs.numFats ≤ j)
    (hlt : j - fs.numFats < fs.numFats)
    (hstep : ChainState fs v0 w rest (ds ++ [c]) (if first = 0 then c else first) c)
    (hw : (v.linkNew prev c).fat = w.fat)
    (hst : st.vol fs = if j - fs.numFats = 0 then v.setFat c clusterEoc else v.linkNew prev c) :
    (chainWriteFail fs (b.addr + blockHeader) (if first = 0 then c else first)).Ends writeFaults
      (st, Pattern.never) (ChainEnd fs v0 data (fs.writesBefore ds.length + j)) := by
  have hi : 0 < ds.length := List.length_pos_of_ne_nil hne
  have hround := fs.writesBefore_succ ds.length
  rw [if_neg (by omega)] at hround
  by_cases h0 : j - fs.numFats = 0
  · rw [if_pos h0] at hst
    rw [if_neg (fun hf => hne (h.nil_of_first hf))]
    exact h.exit_lost hs hc hfree hst hl hb (by omega) hmore (by omega)
  · rw [if_neg h0] at hst
    exact hstep.exit_freed hs hst hw (by rw [Vol.linkNew_heap, hl]) hb (by omega) hmore (by omega)

end

/-- The exit with everything written. -/
theorem ChainState.exit_done (h : ChainState fs v0 v data ds first prev) (hst : st.vol fs = v)
    (hl : v.heap = some l) (hb : b ∈ usedOf l) (hj : π.First j) :
    (do kfree (b.addr + blockHeader); return first : Fat UInt16).Ends writeFaults (st, π)
      (ChainEnd fs v0 data (fs.writesBefore ds.length + j)) := by
  refine ((kfree_yields hl hb).ends_reading (kfree_writeless _) hst).bind ?_
  rintro r ⟨st1, π1⟩ ⟨-, hst1, rfl⟩
  have hst1' : st1.vol fs = _ := hst1
  refine Prog.Ends.pure (Or.inr ⟨?_, ?_, ds, prev, ?_⟩)
  · rw [← h.length]
    exact Nat.le_add_right _ _
  · rw [← h.length, Nat.add_sub_cancel_left]
    exact hj
  · rw [hst1']
    exact ⟨h.length, h.fresh, h.nodup, h.ends, h.fat, h.area, h.data, h.cwd, h.cwdPath⟩

theorem chainWriteLoop_first (hs : fs.Sane ps) (fuel : ℕ) (hst : st.vol fs = v)
    (hl : v.heap = some l) (hb : b ∈ usedOf l) (hsize : fs.clusterBytes ≤ b.size)
    (h : ChainState fs v0 v done ds first prev)
    (hfull : rest ≠ [] → done.length = ds.length * fs.clusterBytes) (hfuel : rest.length < fuel)
    (hj : π.First j) (hroom : fs.clustersFor (done ++ rest).length ≤ (v0.freeSet fs).card ∨
      fs.writesBefore ds.length + j < fs.writesBefore (v0.freeSet fs).card) :
    (chainWriteLoop fs (b.addr + blockHeader) fuel rest first prev).Ends writeFaults (st, π)
      (ChainEnd fs v0 (done ++ rest) (fs.writesBefore ds.length + j)) := by
  induction fuel generalizing v st π j done rest ds first prev with
  | zero => exact absurd hfuel (by omega)
  | succ fuel ih =>
    rw [chainWriteLoop]
    simp only [hs.clusterBytes_eq]
    by_cases hrest : rest = []
    · -- everything is written
      subst hrest
      rw [if_pos rfl, List.append_nil]
      exact h.exit_done hst hl hb hj
    · have hdone := hfull hrest
      have hmore := Fs.lt_clustersFor hs hdone hrest
      rw [if_neg hrest]
      rcases findFree_all (v := v) hs with ⟨c, hc, hfree, hfind⟩ | ⟨hnone, -⟩
      · have hchunk : (rest.take fs.clusterBytes).length ≤ fs.clusterBytes :=
          List.length_take_le ..
        have hcb := hs.clusterBytes_pos
        have hrl := List.length_pos_of_ne_nil hrest
        have hpos : 0 < (rest.take fs.clusterBytes).length := by
          rw [List.length_take]
          omega
        have hstep := h.step hdone hc hfree hpos hchunk
        have hround := fs.writesBefore_succ ds.length
        refine (clusterAlloc_ends hs hst hj hc hfind).bind ?_
        rintro r ⟨st1, π1⟩ (⟨hlt, rfl, hvol, hnever⟩ | ⟨hle, rfl, hvol, hfirst⟩)
        · obtain rfl : π1 = Pattern.never := hnever
          rw [if_pos rfl]
          exact h.exit_alloc hs hc hfree hl hb hmore hlt hvol
        rw [if_neg hc.ne_zero]
        have hl' : (v.linkNew prev r).heap = some l := (v.linkNew_heap prev r).trans hl
        refine (linkNew_ends hs h hvol hfirst).bind ?_
        rintro ok ⟨st2, π2⟩ (⟨hne, hlt, rfl, hnever, hvol2⟩ | ⟨hle2, rfl, hvol2, hfirst2⟩)
        · obtain rfl : π2 = Pattern.never := hnever
          rw [if_pos (by decide)]
          exact h.exit_link hs hc hfree hl hb hmore hne hle hlt hstep rfl hvol2
        rw [if_neg (by decide)]
        refine ((heapStore_yields hl' hb (by omega)).ends_reading ⟨rfl, fun _ => trivial⟩
          hvol2).bind ?_
        rintro - ⟨st3, π3⟩ ⟨-, hvol3, rfl⟩
        by_cases hlt : j - fs.numFats - (if ds.length = 0 then 0 else fs.numFats)
            < fs.sectorsPerCluster
        · -- the chain is complete when the data fails, and freed with the new cluster
          refine (ataWriteFrom_fails hs hc _ hvol3 hfirst2 hlt).bind ?_
          rintro ok ⟨st4, π4⟩ ⟨rfl, ⟨a, hvol4⟩, hnever⟩
          obtain rfl : π4 = Pattern.never := hnever
          rw [if_neg (by decide)]
          refine hstep.exit_freed hs hvol4 rfl hl' hb (by omega) hmore ?_
          have := hs.numFats
          split_ifs at hle2 hlt <;> omega
        · refine (ataWriteFrom_passes hs hc (clusterImage_length hchunk) hvol3 hfirst2
            (not_lt.1 hlt)).bind ?_
          rintro ok ⟨st4, π4⟩ ⟨rfl, hvol4, hfirst4⟩
          rw [if_pos rfl]
          have hcount : fs.writesBefore ds.length + j
              = fs.writesBefore (ds ++ [r]).length + (j - fs.numFats -
                (if ds.length = 0 then 0 else fs.numFats) - fs.sectorsPerCluster) := by
            rw [List.length_append, List.length_singleton, hround]
            omega
          have happ : done ++ rest
              = (done ++ rest.take fs.clusterBytes) ++ rest.drop fs.clusterBytes := by
            rw [List.append_assoc, List.take_append_drop]
          rw [hcount, happ] at hroom ⊢
          exact ih hvol4 hl' hstep (full_step hdone) (by rw [List.length_drop]; omega) hfirst4
            hroom
      · -- a full disk: the clusters before this one were all the free ones
        have hcard := h.card_eq hnone
        rcases hroom with hle | hlt
        · omega
        · rw [hcard] at hlt
          omega

/-- The accesses of the clean-up of `chain_write` succeed: with too few free clusters for `n`, it
    starts where `cluster_alloc` finds none. After a write that failed, `Pattern.after` says so. -/
def Pattern.SparesCleanUp (π : Pattern) (fs : Fs) (v : Vol) (n : ℕ) : Prop :=
  (v.freeSet fs).card < n → ∀ i, fs.writesBefore (v.freeSet fs).card ≤ i → π i = false

/-- `chain_write` on a device whose write `j` is the first to fail. -/
theorem chainWrite_first (hs : fs.Sane ps) (hst : st.vol fs = v) (hl : v.heap = some l)
    (hok : BlockList l) (hbuf : (kmallocBlocks fs.clusterBytes l).1 ≠ 0) {data : Bytes}
    (hdata : data ≠ []) (hlen : data.length < 2 ^ 32) (hj : π.First j)
    (hspare : π.SparesCleanUp fs v (fs.clustersFor data.length)) :
    (chainWrite fs data).Ends writeFaults (st, π) (ChainEnd fs v data j) := by
  obtain ⟨b, hb, hptr, hsize, -, -⟩ := kmallocBlocks_spec hok hbuf
  rw [alignUp_clusterBytes hs] at hsize
  rw [chainWrite, if_neg hdata, hs.clusterBytes_eq]
  refine ((kmalloc_yields hl _).ends_reading (kmalloc_writeless _) hst).bind ?_
  rintro r ⟨st1, π1⟩ ⟨rfl, hst1, rfl⟩
  rw [if_neg hbuf, hptr]
  have hroom : fs.clustersFor ([] ++ data).length ≤ (v.freeSet fs).card ∨
      fs.writesBefore ([] : List UInt16).length + j < fs.writesBefore (v.freeSet fs).card := by
    by_contra hno
    obtain ⟨hcard, hge⟩ := not_or.1 hno
    have hpass := hspare (not_le.1 hcard) j (by simpa [Fs.writesBefore] using hge)
    rw [hj.1] at hpass
    cases hpass
  have h := chainWriteLoop_first hs writeLoopBound hst1 rfl hb hsize (ChainState.init hs)
    (fun _ => by simp) (by unfold writeLoopBound; omega) hj hroom
  rwa [List.length_nil, Fs.writesBefore, Nat.zero_add] at h

/-- Write `j` of `fat_write_file` with data for `n` clusters leaves some allocated when it fails:
    one of those of `chain_write`, or the write of the directory entry. -/
def Fs.WriteLeak (fs : Fs) (n j : ℕ) : Prop :=
  0 < n ∧ ((j < fs.writesBefore n ∧ fs.ChainLeak j) ∨ j = fs.writesBefore n)

/-- The clusters of a chain were free and are not. -/
theorem ChainState.not_stillFree_of_ne (h : ChainState fs v0 v done ds first prev) (hne : ds ≠ [])
    (hw : w.fat = v.fat) : ¬ v0.StillFree fs w := by
  obtain ⟨c, hc⟩ := List.exists_mem_of_ne_nil ds hne
  obtain ⟨hcl, hfree⟩ := h.fresh c hc
  intro hstill
  exact h.fat_ne_free hc (by rw [← hw]; exact hstill c hcl hfree)

theorem Fs.clustersFor_pos (hs : fs.Sane ps) {data : Bytes} (hdata : data ≠ []) :
    0 < fs.clustersFor data.length :=
  @Fs.lt_clustersFor fs ps hs [] data 0 (Nat.zero_mul _).symm hdata

/-- The end of `fat_write_file` for a new entry. -/
theorem writeEntry_first (hs : fs.Sane ps) (hst : st.vol fs = v) (hl : v.heap = some l)
    (hok : BlockList l) {data : Bytes} (hlen : data.length < 2 ^ 32) {s : Slot} (hsl : fs.IsSlot s)
    (e : Dirent) (hj : π.First j) (hspare : π.SparesCleanUp fs v (fs.clustersFor data.length)) :
    (writeEntry fs data e (s.loc fs)).Ends writeFaults (st, π) (GivesBack fs v
      ((kmallocBlocks fs.clusterBytes l).1 ≠ 0 ∧ fs.WriteLeak (fs.clustersFor data.length) j)) := by
  unfold writeEntry
  by_cases hdata : data = []
  · -- an empty file takes no cluster
    subst hdata
    refine Prog.Ends.bind_ok (Prog.run_pure _ _ _) ?_
    rw [if_neg (by simp)]
    refine (locUpdate_ends hs hsl _ (congrArg Vol.fat hst) hj).bind ?_
    rintro ok s ⟨hfat, -⟩
    refine Prog.Ends.pure (iff_of_true (fun _ => Vol.stillFree_of_fat hfat) ?_)
    rintro ⟨-, hpos, -⟩
    rw [List.length_nil, Fs.clustersFor_zero hs] at hpos
    exact absurd hpos (lt_irrefl 0)
  by_cases hbuf : (kmallocBlocks fs.clusterBytes l).1 = 0
  · -- no transfer buffer
    have hnull : (chainWrite fs data).Ends writeFaults (st, π)
        (fun r s => r = 0 ∧ (s.1.vol fs).fat = v.fat) := by
      rw [chainWrite, if_neg hdata, hs.clusterBytes_eq]
      refine ((kmalloc_yields hl _).ends_reading (kmalloc_writeless _) hst).bind ?_
      rintro r s ⟨rfl, hvol, -⟩
      rw [if_pos hbuf]
      exact Prog.Ends.pure ⟨rfl, by rw [hvol]⟩
    refine hnull.bind ?_
    rintro r ⟨st1, π1⟩ ⟨rfl, hfat⟩
    rw [if_pos ⟨hdata, rfl⟩]
    exact givesBack_refused hfat (fun h => h.1 hbuf) _
  have hn := Fs.clustersFor_pos hs hdata
  refine (chainWrite_first hs hst hl hok hbuf hdata hlen hj hspare).bind ?_
  rintro r ⟨st1, π1⟩ (⟨hlt, rfl, hleak⟩ | ⟨hle, hfirst, ds, prev, hchain⟩)
  · rw [if_pos ⟨hdata, rfl⟩]
    refine givesBack_exit ?_ _
    have hkind : fs.WriteLeak (fs.clustersFor data.length) j ↔ fs.ChainLeak j := by
      unfold Fs.WriteLeak
      exact ⟨fun h => h.2.elim And.right (fun heq => by omega), fun h => ⟨hn, Or.inl ⟨hlt, h⟩⟩⟩
    simp only [ne_eq, hbuf, not_false_eq_true, true_and, hkind]
    exact hleak
  · have hne : ds ≠ [] := by
      intro hnil
      have hlength := hchain.length
      rw [hnil, List.length_nil] at hlength
      omega
    have hr : r ≠ 0 := fun hr => hne (hchain.nil_of_first hr)
    rw [if_neg (fun h => hr h.2)]
    refine (locUpdate_ends hs hsl _ rfl hfirst).bind ?_
    rintro ok s ⟨hfat, hiff⟩
    refine Prog.Ends.pure ?_
    have hno := hchain.not_stillFree_of_ne hne hfat
    have hkind : fs.WriteLeak (fs.clustersFor data.length) j
        ↔ j = fs.writesBefore (fs.clustersFor data.length) := by
      unfold Fs.WriteLeak
      exact ⟨fun h => h.2.elim (fun h => absurd h.1 (by omega)) id, fun h => ⟨hn, Or.inr h⟩⟩
    cases ok with
    | true =>
      have := hiff.1 rfl
      exact iff_of_true (fun h => absurd h (by decide)) (fun h => by have := hkind.1 h.2; omega)
    | false =>
      have : ¬ 0 < j - fs.writesBefore (fs.clustersFor data.length) :=
        fun h => absurd (hiff.2 h) (by simp)
      exact iff_of_false (fun h => hno (h rfl)) (fun h => h ⟨hbuf, hkind.2 (by omega)⟩)

end Chain

/-! ## The two calls -/

/-- The path names a new entry in a directory with a free slot. -/
def Vol.Creates (fs : Fs) (v : Vol) (path : Bytes) : Prop :=
  ∃ d name, v.parent fs path = some (d, name) ∧ v.findSlot fs d.clusterLo name = none ∧
    v.freeSlot fs d.clusterLo ≠ none

/-- The path does not name an entry that exists. -/
def Vol.IsNew (fs : Fs) (v : Vol) (path : Bytes) : Prop :=
  ∀ d name, v.parent fs path = some (d, name) → v.findSlot fs d.clusterLo name = none

section Calls

variable {fs : Fs} {ps : ℕ} {v : Vol} {st : FatState} {π : Pattern} {j : ℕ}

theorem Vol.not_creates_of_parent {path : Bytes} (hp : v.parent fs path = none) :
    ¬ v.Creates fs path := by
  rintro ⟨d, name, hd, -⟩
  rw [hp] at hd
  cases hd

theorem Vol.creates_iff {path : Bytes} {d : Dirent} {name : Name83}
    (hp : v.parent fs path = some (d, name)) : v.Creates fs path ↔
      v.findSlot fs d.clusterLo name = none ∧ v.freeSlot fs d.clusterLo ≠ none := by
  constructor
  · rintro ⟨d', name', hp', h⟩
    rw [hp] at hp'
    cases hp'
    exact h
  · exact fun h => ⟨d, name, hp, h⟩

/-- `fat_write_file` on a new name, on a device whose write `j` is the first to fail. -/
theorem fatWriteFile_first (hs : fs.Sane ps) (hr : v.Ready fs) {l : List Blk} (hl : v.heap = some l)
    (hst : st.vol fs = v) {path data : Bytes} (hlen : data.length < 2 ^ 32)
    (hnew : v.IsNew fs path) (hj : π.First j)
    (hspare : π.SparesCleanUp fs v (fs.clustersFor data.length)) :
    (fatWriteFile fs path data).Ends writeFaults (st, π) (GivesBack fs v (v.Creates fs path ∧
      (kmallocBlocks fs.clusterBytes l).1 ≠ 0 ∧ fs.WriteLeak (fs.clustersFor data.length) j)) := by
  have h := hr.consistent
  obtain ⟨l', hl', hok⟩ := hr.heap
  obtain rfl : l' = l := Option.some.inj (hl'.symm.trans hl)
  unfold fatWriteFile
  rw [if_neg (by simp [hs.mounted])]
  refine ((parentOf_yields hs h hr.cwd path).ends_reading (parentOf_writeless _) hst).bind ?_
  rintro r ⟨st1, π1⟩ ⟨rfl, hst1, rfl⟩
  cases hp : v.parent fs path with
  | none =>
    exact givesBack_refused (congrArg Vol.fat hst1) (fun hc => Vol.not_creates_of_parent hp hc.1) _
  | some r =>
    obtain ⟨d, name⟩ := r
    obtain ⟨hlive, hname⟩ := Vol.parent_spec h hr.cwd hp
    have hf := hnew d name hp
    have hfind := dirFind_yields hs (h.dirOk hlive) name
    rw [Vol.lookup_of_ne_dot hname, hf] at hfind
    refine (hfind.ends_reading (dirFind_writeless _ _) hst1).bind ?_
    rintro r ⟨st2, π2⟩ ⟨rfl, hst2, rfl⟩
    refine ((dirFreeSlot_yields hs (h.dirOk hlive)).ends_reading (dirFreeSlot_writeless _)
      hst2).bind ?_
    rintro r ⟨st3, π3⟩ ⟨rfl, hst3, rfl⟩
    cases hfree : v.freeSlot fs d.clusterLo with
    | none =>
      exact givesBack_refused (congrArg Vol.fat hst3)
        (fun hc => ((Vol.creates_iff hp).1 hc.1).2 hfree) _
    | some s =>
      have hcreates : v.Creates fs path := (Vol.creates_iff hp).2 ⟨hf, by simp [hfree]⟩
      have hsl := Vol.isSlot_of_mem_dirSlots (Vol.freeSlot_spec hfree).1
      simp only [hcreates, true_and]
      exact writeEntry_first hs hst3 hl hok hlen hsl _ hj hspare

/-- The end of `fat_mkdir` on a device whose write `j` is the first to fail. -/
theorem makeDir_first (hs : fs.Sane ps) (parent : Dirent) (name : Name83) {s : Slot}
    (hsl : fs.IsSlot s) {c : UInt16} (hc : fs.IsCluster c) (hst : (st.vol fs).fat = v.fat)
    (hj : π.First j) :
    (makeDir fs parent name (s.loc fs) c).Ends writeFaults (st, π) (fun rc s =>
      (s.1.vol fs).fat = v.fat ∧ (rc = -1 ↔ j < 2)) := by
  unfold makeDir
  generalize List.replicate sectorSize (0 : UInt8) = zeros
  refine Prog.Ends.bind_ok (bufStore_run _ _) (Prog.Ends.bind_ok (bufStore_run _ _)
    (Prog.Ends.bind_ok (bufStore_run _ _) ?_))
  rw [clusterLba_eq hs hc]
  rcases Nat.eq_zero_or_pos j with rfl | hpos
  · refine Prog.Ends.bind_ok (ataWrite_fails _ hj.1) ?_
    rw [if_neg (by decide)]
    exact Prog.Ends.pure ⟨hst, by simp⟩
  · refine Prog.Ends.bind_ok (ataWrite_passes _ (hj.2 0 hpos)) ?_
    rw [if_pos rfl]
    have hout : ∀ (x : Sector) lba, (∀ k < fs.areaSectors c, lba ≠ fs.areaLba c + k) →
        Function.update st.disk (fs.areaLba c) x lba = st.disk lba := fun x lba hl =>
      Function.update_of_ne (by simpa using hl 0 (Fs.areaSectors_pos_of_ne hs hc.ne_zero)) _ _
    refine (locUpdate_ends hs hsl _ ((congrArg Vol.fat (FatState.vol_setArea hs (Or.inr hc) st _
      (hout _) _ _)).trans hst) (hj.after hpos)).bind ?_
    rintro ok s ⟨hfat, hiff⟩
    refine Prog.Ends.pure ⟨hfat, ?_⟩
    cases ok with
    | true =>
      have := hiff.1 rfl
      exact iff_of_false (by decide) (by omega)
    | false =>
      have : ¬ 0 < j - 1 := fun h => absurd (hiff.2 h) (by simp)
      exact iff_of_true rfl (by omega)

/-- A taken cluster is not free. -/
theorem Vol.not_stillFree_of_taken {w : Vol} {c : UInt16} (hc : fs.IsCluster c)
    (hfree : v.fat c = clusterFree) (hw : w.fat = (v.setFat c clusterEoc).fat) :
    ¬ v.StillFree fs w := by
  intro hstill
  have hlost := hstill c hc hfree
  rw [hw] at hlost
  simp only [Vol.setFat, Function.update_self] at hlost
  cases hlost

/-- `fat_mkdir` from `cluster_alloc` on. Nothing frees the cluster again. -/
theorem mkdirBody_first (hs : fs.Sane ps) {parent : Dirent} {name : Name83} {s : Slot}
    (hsl : fs.IsSlot s) (hst : st.vol fs = v) (hj : π.First j) {text text' : Bytes} :
    (clusterAlloc fs >>= fun c =>
      if c = 0 then print text >>= fun _ => pure (-1)
      else clusterZero fs c >>= fun ok =>
        if ok = true then makeDir fs parent name (s.loc fs) c
        else print text' >>= fun _ => pure (-1)).Ends writeFaults (st, π) (GivesBack fs v
      (v.freeSet fs ≠ ∅ ∧ 0 < j ∧ j < fs.numFats + fs.sectorsPerCluster + 2)) := by
  have hpos := hs.numFats
  rcases findFree_all (v := v) hs with ⟨c, hc, hfree, hfind⟩ | ⟨hnone, hfind⟩
  · have hsome : v.freeSet fs ≠ ∅ := Finset.ne_empty_of_mem (Vol.mem_freeSet.2 ⟨hc, hfree⟩)
    simp only [hsome, ne_eq, not_false_eq_true, true_and]
    refine (clusterAlloc_ends hs hst hj hc hfind).bind ?_
    rintro r ⟨st1, π1⟩ (⟨hlt, rfl, hvol, -⟩ | ⟨hle, rfl, hvol, hfirst⟩)
    · -- entering it in the FAT fails
      rw [if_pos rfl]
      refine givesBack_exit ?_ _
      by_cases h0 : j = 0
      · rw [if_pos h0] at hvol
        exact iff_of_true (Vol.stillFree_of_fat (congrArg Vol.fat hvol)) (by omega)
      · rw [if_neg h0] at hvol
        exact iff_of_false (Vol.not_stillFree_of_taken hc hfree (congrArg Vol.fat hvol)) (by omega)
    · rw [if_neg hc.ne_zero]
      refine (clusterZero_ends hs hc (congrArg Vol.fat hvol) hfirst).bind ?_
      rintro ok ⟨st2, π2⟩ ⟨hfat, hbad, hgood⟩
      by_cases hlt : j - fs.numFats < fs.sectorsPerCluster
      · -- clearing it fails
        obtain rfl := hbad hlt
        rw [if_neg (by decide)]
        exact givesBack_exit (iff_of_false (Vol.not_stillFree_of_taken hc hfree hfat) (by omega)) _
      · obtain ⟨rfl, hfirst2⟩ := hgood (not_lt.1 hlt)
        rw [if_pos rfl]
        refine (makeDir_first hs parent name hsl hc hfat hfirst2).mono ?_
        rintro rc s ⟨hfat', hiff⟩
        have hno := Vol.not_stillFree_of_taken hc hfree hfat'
        by_cases hrc : rc = -1
        · have := hiff.1 hrc
          exact iff_of_false (fun h => hno (h hrc)) (by omega)
        · have : ¬ _ := fun h => hrc (hiff.2 h)
          exact iff_of_true (fun h => absurd h hrc) (by omega)
  · have hempty : v.freeSet fs = ∅ :=
      Finset.eq_empty_of_forall_notMem (fun c hc => hnone c (Vol.mem_freeSet.1 hc).1
        (Vol.mem_freeSet.1 hc).2)
    rw [clusterAlloc, clusterAllocLoop_eq, Prog.bind_assoc]
    refine (hfind.ends_reading (findFree_writeless _ _) hst).bind ?_
    rintro r ⟨st1, π1⟩ ⟨rfl, hst1, -⟩
    exact givesBack_refused (congrArg Vol.fat hst1) (fun h => h.1 hempty) _

/-- `fat_mkdir` on a device whose write `j` is the first to fail. -/
theorem fatMkdir_first (hs : fs.Sane ps) (hr : v.Ready fs) (hst : st.vol fs = v) {path : Bytes}
    (hj : π.First j) :
    (fatMkdir fs path).Ends writeFaults (st, π) (GivesBack fs v (v.Creates fs path ∧
      v.freeSet fs ≠ ∅ ∧ 0 < j ∧ j < fs.numFats + fs.sectorsPerCluster + 2)) := by
  have h := hr.consistent
  unfold fatMkdir
  rw [if_neg (by simp [hs.mounted])]
  refine ((parentOf_yields hs h hr.cwd path).ends_reading (parentOf_writeless _) hst).bind ?_
  rintro r ⟨st1, π1⟩ ⟨rfl, hst1, rfl⟩
  cases hp : v.parent fs path with
  | none =>
    exact givesBack_refused (congrArg Vol.fat hst1) (fun hc => Vol.not_creates_of_parent hp hc.1) _
  | some r =>
    obtain ⟨d, name⟩ := r
    obtain ⟨hlive, hname⟩ := Vol.parent_spec h hr.cwd hp
    have hfind := dirFind_yields hs (h.dirOk hlive) name
    rw [Vol.lookup_of_ne_dot hname] at hfind
    refine (hfind.ends_reading (dirFind_writeless _ _) hst1).bind ?_
    rintro r ⟨st2, π2⟩ ⟨rfl, hst2, rfl⟩
    cases hf : v.findSlot fs d.clusterLo name with
    | some s =>
      refine givesBack_refused (congrArg Vol.fat hst2) (fun hc => ?_) _
      rw [((Vol.creates_iff hp).1 hc.1).1] at hf
      cases hf
    | none =>
      refine ((dirFreeSlot_yields hs (h.dirOk hlive)).ends_reading (dirFreeSlot_writeless _)
        hst2).bind ?_
      rintro r ⟨st3, π3⟩ ⟨rfl, hst3, rfl⟩
      cases hfree : v.freeSlot fs d.clusterLo with
      | none =>
        exact givesBack_refused (congrArg Vol.fat hst3)
          (fun hc => ((Vol.creates_iff hp).1 hc.1).2 hfree) _
      | some s =>
        have hcreates : v.Creates fs path := (Vol.creates_iff hp).2 ⟨hf, by simp [hfree]⟩
        have hsl := Vol.isSlot_of_mem_dirSlots (Vol.freeSlot_spec hfree).1
        simp only [hcreates, true_and]
        exact mkdirBody_first hs hsl hst3 hj

/-- Without a failing write, `fat_write_file` on a new name that returns -1 leaves the FAT alone. -/
theorem Vol.WriteOutcome.fat_of_neg {path data : Bytes} {rc : Int} {v' : Vol}
    (ho : v.WriteOutcome fs path data rc v') (hnew : v.IsNew fs path) (hrc : rc = -1) :
    v'.fat = v.fat := by
  cases ho with
  | badPath hp => rfl
  | isDirectory hp hf hdir => rfl
  | directoryFull hp hf hfull => rfl
  | overwritten hp hf hfile hfits hw => cases hrc
  | overwriteFailed hp hf hfile hfits hw =>
    rw [hnew _ _ hp] at hf
    cases hf
  | created hp hf hfree hfits hw => cases hrc
  | createFailed hp hf hfree hfits hw => exact hw.fat

theorem Vol.MkdirOutcome.fat_of_neg {path : Bytes} {rc : Int} {v' : Vol}
    (ho : v.MkdirOutcome fs path rc v') (hrc : rc = -1) : v'.fat = v.fat := by
  cases ho with
  | made hp hf hfree hc hz => cases hrc
  | _ => rfl

/-- **The writes whose failure loses a cluster.** `fat_write_file` on a new name and `fat_mkdir`
    that return -1 give every cluster back, except when the first failing write is one of these. -/
theorem lost_clusters_iff (hs : fs.Sane ps) {l : List Blk}
    (hwf : (st.vol fs).WellFormed fs) (hcwd : (st.vol fs).Live fs st.cwdCluster)
    (hl : st.heap.blocks = some l) (path data : Bytes) (hlen : data.length < 2 ^ 32) (π : Pattern) :
    ((st.vol fs).IsNew fs path → π.SparesCleanUp fs (st.vol fs) (fs.clustersFor data.length) →
      (fatWriteFile fs path data).Ends writeFaults (st, π) (fun rc s =>
        (rc = -1 → (st.vol fs).StillFree fs (s.1.vol fs)) ↔
          ¬ ((st.vol fs).Creates fs path ∧ (kmallocBlocks fs.clusterBytes l).1 ≠ 0 ∧
            ∃ j, π.First j ∧ fs.WriteLeak (fs.clustersFor data.length) j))) ∧
    (fatMkdir fs path).Ends writeFaults (st, π) (fun rc s =>
      (rc = -1 → (st.vol fs).StillFree fs (s.1.vol fs)) ↔
        ¬ ((st.vol fs).Creates fs path ∧ (st.vol fs).freeSet fs ≠ ∅ ∧
          ∃ j, π.First j ∧ 0 < j ∧ j < fs.numFats + fs.sectorsPerCluster + 2)) := by
  have hr : (st.vol fs).Ready fs :=
    FatState.Ready.vol ⟨hwf.toConsistent, hcwd, l, hl⟩
  by_cases hfirst : ∃ j, π.First j
  · obtain ⟨j, hj⟩ := hfirst
    have honly : ∀ P : ℕ → Prop, (∃ k, π.First k ∧ P k) ↔ P j := fun P =>
      ⟨fun ⟨k, hk, hP⟩ => by rwa [hj.unique hk], fun hP => ⟨j, hj, hP⟩⟩
    simp only [honly]
    exact ⟨fun hnew hspare => fatWriteFile_first hs hr hl rfl hlen hnew hj hspare,
      fatMkdir_first hs hr rfl hj⟩
  · -- no write fails
    have hnone := not_exists.1 hfirst
    obtain rfl := Pattern.eq_never hnone
    refine ⟨fun hnew _ => ?_, ?_⟩
    · obtain ⟨rc, v', hy, ho⟩ := fatWriteFile_yields hs hr path hlen
      refine (hy.ends_never rfl).mono ?_
      rintro r s ⟨rfl, hvol⟩
      refine iff_of_true (fun hrc => Vol.stillFree_of_fat ?_) (fun ⟨_, _, j, hj, _⟩ => hnone j hj)
      rw [hvol, ho.fat_of_neg hnew hrc]
    · obtain ⟨rc, v', hy, ho⟩ := fatMkdir_yields hs hr path
      refine (hy.ends_never rfl).mono ?_
      rintro r s ⟨rfl, hvol⟩
      refine iff_of_true (fun hrc => Vol.stillFree_of_fat ?_) (fun ⟨_, _, j, hj, _⟩ => hnone j hj)
      rw [hvol, ho.fat_of_neg hrc]

end Calls

/-- The write to the second FAT copy fails. -/
def secondFails : Pattern := fun i => i == 1

theorem emptyState_isNew : (emptyState.vol smallFs).IsNew smallFs (str "B") := by
  intro d name hp
  have hB : (emptyState.vol smallFs).parent smallFs (str "B")
      = some (dirEntry 0, #v[0x42, 0x20, 0x20, 0x20, 0x20, 0x20, 0x20, 0x20, 0x20, 0x20, 0x20]) := by
    decide +kernel
  rw [hB] at hp
  cases hp
  decide +kernel

theorem emptyState_sparesCleanUp : secondFails.SparesCleanUp smallFs (emptyState.vol smallFs)
    (smallFs.clustersFor (str "ABC").length) := fun h => absurd h (by decide +kernel)

/-- Three bytes to a new file of an empty volume, with the second FAT copy failing. -/
theorem lost_clusters_second :
    (fatWriteFile smallFs (str "B") (str "ABC")).Ends writeFaults (emptyState, secondFails)
      (fun rc s => (rc = -1 → (emptyState.vol smallFs).StillFree smallFs (s.1.vol smallFs)) ↔
        ¬ ((emptyState.vol smallFs).Creates smallFs (str "B") ∧
          (kmallocBlocks smallFs.clusterBytes
            [⟨emptyState.heap.head, emptyState.heap.total - blockHeader, false⟩]).1 ≠ 0 ∧
          ∃ j, secondFails.First j ∧ smallFs.WriteLeak (smallFs.clustersFor (str "ABC").length) j)) := by
  exact (lost_clusters_iff smallFs_sane emptyState_wellFormed Vol.Live.root emptyState_blocks (str "B")
    (str "ABC") (by decide) secondFails).1 emptyState_isNew emptyState_sparesCleanUp

/-- Both calls return -1 and leave cluster 2 allocated. -/
theorem second_copy_loses_cluster :
    (emptyState.vol smallFs).WellFormed smallFs ∧ (emptyState.vol smallFs).IsNew smallFs (str "B") ∧
    secondFails.SparesCleanUp smallFs (emptyState.vol smallFs)
      (smallFs.clustersFor (str "ABC").length) ∧
    (emptyState.vol smallFs).fat 2 = clusterFree ∧
    (fatWriteFile smallFs (str "B") (str "ABC")).Ends writeFaults (emptyState, secondFails)
      (fun rc s => rc = -1 ∧ (s.1.vol smallFs).fat 2 = clusterEoc) ∧
    (fatMkdir smallFs (str "B")).Ends writeFaults (emptyState, secondFails)
      (fun rc s => rc = -1 ∧ (s.1.vol smallFs).fat 2 = clusterEoc) :=
  ⟨emptyState_wellFormed, emptyState_isNew, emptyState_sparesCleanUp, by decide +kernel,
    by decide +kernel, by decide +kernel⟩

end OctoOS
