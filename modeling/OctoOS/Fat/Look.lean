import OctoOS.Fat
import OctoOS.Lib.Defined

set_option autoImplicit false

/-! # What the driver reads from the disk

`fat_get` and `dir_next` only look at the disk, and they take the numbers they find as they are:
there is no bound, a cluster that was seen before is read again, and 0 is both the mark of a free
cluster and the number of the root area. So what they answer is a function of the disk, whatever it
holds: `linkOn`, the link of a cluster, and `iterNext`, the next place of an iteration. A device
error can only cut the answers short. -/

namespace OctoOS

open Atomic

/-! ## Steps that look -/

/-- Steps that only look at the disk. -/
def FatOp.Looks : FatOp → Prop
  | .ataRead _ => True
  | .bufLoad => True
  | _ => False

/-- Steps that look at the disk and the working directory. -/
def FatOp.Reads : FatOp → Prop
  | .getCwdCluster => True
  | o => o.Looks

theorem FatOp.Looks.reads {o : FatOp} (h : o.Looks) : o.Reads := by
  cases o <;> first | exact h | trivial

/-- At most `sector_buf` and the number of accesses are different. -/
def FatState.Looked (st st' : FatState) : Prop :=
  ∃ n buf, st' = { st with ataCount := n, sectorBuf := buf }

section Looks

variable {fs : Fs} {fails : Faults}

theorem looked_of_run {α : Type} {p : Fat α} (hp : p.Only FatOp.Reads) {st st' : FatState} {a : α}
    (hrun : p.run (fatHandler fails) st = .ok (a, st')) : st.Looked st' := by
  refine Defined.post (hp.defined (R := FatState.Looked) (fun s => ⟨s.ataCount, s.sectorBuf, rfl⟩) ?_
    (fun o s ho => ?_) st) hrun
  · rintro s _ _ ⟨n, buf, rfl⟩ ⟨n', buf', rfl⟩
    exact ⟨n', buf', rfl⟩
  · cases o with
    | ataRead lba =>
      by_cases hf : fails s.ataCount lba = true
      · exact ⟨_, _, if_pos hf, _, _, rfl⟩
      · exact ⟨_, _, if_neg hf, _, _, rfl⟩
    | bufLoad | getCwdCluster => exact ⟨_, _, rfl, s.ataCount, s.sectorBuf, rfl⟩
    | _ => exact ho.elim

theorem ataRead_looks (lba : ℕ) : (ataRead lba).Only FatOp.Looks := ⟨trivial, fun _ => trivial⟩

theorem bufLoad_looks : bufLoad.Only FatOp.Looks := ⟨trivial, fun _ => trivial⟩

theorem fatGet_looks (c : UInt16) : (fatGet fs c).Only FatOp.Looks := by
  unfold fatGet
  refine (ataRead_looks _).bind (fun b => Prog.Only.ite ?_ ?_)
  · exact bufLoad_looks.bind (fun _ => Prog.Only.pure _)
  · exact Prog.Only.pure _

theorem dirSector_looks (it : DirIter) : (dirSector fs it).Only FatOp.Looks := by
  unfold dirSector
  refine Prog.Only.ite (Prog.Only.ite (Prog.Only.pure _) (Prog.Only.pure _)) (Prog.Only.ite ?_ ?_)
  · exact (fatGet_looks _).bind (fun _ => Prog.Only.ite (Prog.Only.pure _) (Prog.Only.pure _))
  · exact Prog.Only.pure _

theorem dirNext_looks (it : DirIter) : (dirNext fs it).Only FatOp.Looks := by
  unfold dirNext
  refine Prog.Only.ite (Prog.Only.pure _) ?_
  generalize 2 = fuel
  induction fuel generalizing it with
  | zero => rfl
  | succ fuel ih =>
    rw [dirNextLoop]
    refine (dirSector_looks it).bind (fun r => ?_)
    cases r with
    | none => exact Prog.Only.pure _
    | some x =>
      refine (ataRead_looks _).bind (fun b => Prog.Only.ite ?_ (Prog.Only.pure _))
      exact Prog.Only.ite (bufLoad_looks.bind (fun _ => Prog.Only.pure _)) (ih _)

end Looks

/-! ## The answers as functions of the disk -/

/-- The link of any cluster number in the first FAT copy, as `fat_get` finds it. -/
def linkOn (fs : Fs) (disk : Disk) (c : UInt16) : UInt16 :=
  rd16 (disk (w32 (fs.fatLba + c.toNat * 2 / sectorSize))) (c.toNat * 2 % sectorSize)

/-- The number of sectors of an area. -/
def Fs.areaSectors (fs : Fs) (c : UInt16) : ℕ :=
  if c = 0 then fs.rootSectors else fs.sectorsPerCluster

/-- Sector `s` of an area. -/
def iterLba (fs : Fs) (c : UInt16) (s : ℕ) : ℕ :=
  if c = 0 then w32 (fs.rootLba + s) else w32 (clusterLba fs c + s)

/-- What `dir_next` does with an iterator that it left behind itself, when no read fails: the new
    iterator, and where the entry is. A link to 0 is followed to the sector that cluster 0 would have,
    and only then to the root area. -/
def iterNext (fs : Fs) (link : UInt16 → UInt16) (it : DirIter) : Option (DirIter × Loc) :=
  if it.entry < 16 then
    if it.sector < fs.areaSectors it.cluster then
      some ({ it with entry := it.entry + 1 }, ⟨iterLba fs it.cluster it.sector, it.entry * 32⟩)
    else none
  else if it.sector + 1 < fs.areaSectors it.cluster then
    some ({ it with sector := it.sector + 1, entry := 1 }, ⟨iterLba fs it.cluster (it.sector + 1), 0⟩)
  else if it.cluster = 0 ∨ isEoc (link it.cluster) then none
  else some ({ it with cluster := link it.cluster, sector := 0, entry := 1 },
    ⟨w32 (clusterLba fs (link it.cluster) + 0), 0⟩)

/-- The iterators that `dir_begin` and `dir_next` leave behind. -/
structure DirIter.Ok (fs : Fs) (it : DirIter) : Prop where
  done : it.done = false
  entry : it.entry ≤ 16
  sector : it.cluster ≠ 0 → it.sector < fs.sectorsPerCluster

/-- The answer `r` is what `o` says, with the entry that is there, unless a device error cut it
    short. -/
def Answers (fails : Faults) (disk : Disk) (o : Option (DirIter × Loc))
    (r : Option (DirIter × Dirent × Loc)) : Prop :=
  (∀ x, r = some x → o = some (x.1, x.2.2) ∧ ∃ buf : Sector,
    (∀ k < sectorSize, buf k = disk x.2.2.lba k) ∧ x.2.1 = readDirent buf x.2.2.off) ∧
  ((∀ n lba, fails n lba = false) → r = none → o = none)

section Answers

variable {fs : Fs} {fails : Faults} {link : UInt16 → UInt16} {it : DirIter} {lba : ℕ}

theorem iterNext_here (he : it.entry < 16) (hk : it.sector < fs.areaSectors it.cluster) :
    iterNext fs link it = some ({ it with entry := it.entry + 1 },
      ⟨iterLba fs it.cluster it.sector, it.entry * 32⟩) := by
  rw [iterNext, if_pos he, if_pos hk]

theorem iterNext_sector (he : 16 ≤ it.entry) (hk : it.sector + 1 < fs.areaSectors it.cluster) :
    iterNext fs link it = some ({ it with sector := it.sector + 1, entry := 1 },
      ⟨iterLba fs it.cluster (it.sector + 1), 0⟩) := by
  rw [iterNext, if_neg (Nat.not_lt.2 he), if_pos hk]

theorem iterNext_link (he : 16 ≤ it.entry) (hk : fs.areaSectors it.cluster ≤ it.sector + 1) :
    iterNext fs link it = if it.cluster = 0 ∨ isEoc (link it.cluster) then none
      else some ({ it with cluster := link it.cluster, sector := 0, entry := 1 },
        ⟨w32 (clusterLba fs (link it.cluster) + 0), 0⟩) := by
  rw [iterNext, if_neg (Nat.not_lt.2 he), if_neg (Nat.not_lt.2 hk)]

/-- The link of the cluster is all that matters. -/
theorem iterNext_congr {link' : UInt16 → UInt16}
    (h : it.cluster ≠ 0 → link it.cluster = link' it.cluster) :
    iterNext fs link it = iterNext fs link' it := by
  by_cases h0 : it.cluster = 0
  · simp only [iterNext, h0, true_or, if_true]
  · rw [iterNext, iterNext, h h0]

theorem ataRead_ends (lba : ℕ) (st : FatState) :
    (ataRead lba).Ends (fatHandler fails) st (fun b st' => st'.disk = st.disk ∧
      (b = true → ∀ k < sectorSize, st'.sectorBuf k = st.disk lba k) ∧
      ((∀ n l, fails n l = false) → b = true)) := by
  by_cases hf : fails st.ataCount lba = true
  · have hop : fatHandler fails (.ataRead lba) st
        = .ok (false, { st with ataCount := st.ataCount + 1 }) := if_pos hf
    refine Prog.Ends.perform hop ⟨rfl, by simp, fun hno => ?_⟩
    rw [hno] at hf
    cases hf
  · have hop : fatHandler fails (.ataRead lba) st = .ok (true, { st with
        ataCount := st.ataCount + 1, sectorBuf := transfer st.sectorBuf (st.disk lba) }) := if_neg hf
    exact Prog.Ends.perform hop ⟨rfl, fun _ k hk => if_pos hk, fun _ => rfl⟩

theorem bufLoad_ends (st : FatState) :
    bufLoad.Ends (fatHandler fails) st (fun b st' => st' = st ∧ b = st.sectorBuf) :=
  Prog.Ends.perform rfl ⟨rfl, rfl⟩

/-- `fat_get` answers with the link, or with an end-of-chain mark when it cannot be read. -/
theorem fatGet_readsFat (c : UInt16) (st : FatState) :
    (fatGet fs c).Ends (fatHandler fails) st (fun r st' => st'.disk = st.disk ∧
      (r = clusterEoc ∨ r = linkOn fs st.disk c) ∧
      ((∀ n l, fails n l = false) → r = linkOn fs st.disk c)) := by
  unfold fatGet
  refine (ataRead_ends _ st).bind (fun b st1 h1 => ?_)
  obtain ⟨hdisk, hbuf, hideal⟩ := h1
  cases b with
  | false =>
    refine Prog.Ends.pure ⟨hdisk, Or.inl rfl, fun hno => ?_⟩
    cases hideal hno
  | true =>
    refine (bufLoad_ends st1).bind (fun buf st2 h2 => ?_)
    obtain ⟨rfl, rfl⟩ := h2
    have hlink : rd16 st2.sectorBuf (c.toNat * 2 % sectorSize) = linkOn fs st.disk c := by
      unfold linkOn rd16 sectorSize
      rw [hbuf rfl _ (by unfold sectorSize; omega), hbuf rfl _ (by unfold sectorSize; omega)]
      rfl
    exact Prog.Ends.pure ⟨hdisk, Or.inr hlink, fun _ => hlink⟩

/-- One round of `dir_next`: the sector is read, and the next entry is in it or behind it. -/
theorem dirRound_ends {rest : Fat (Option (DirIter × Dirent × Loc))} {o : Option (DirIter × Loc)}
    (st : FatState)
    (hin : it.entry < 16 → o = some ({ it with entry := it.entry + 1 }, ⟨lba, it.entry * 32⟩))
    (hrest : 16 ≤ it.entry → ∀ st', st'.disk = st.disk → rest.Ends (fatHandler fails) st'
      (fun r st'' => st''.disk = st.disk ∧ Answers fails st.disk o r)) :
    (do
      if ← ataRead lba then
        if it.entry < sectorSize / 32 then
          let d := readDirent (← bufLoad) (it.entry * 32)
          return some ({ it with entry := it.entry + 1 }, d, ⟨lba, it.entry * 32⟩)
        else rest
      else return none : Fat (Option (DirIter × Dirent × Loc))).Ends (fatHandler fails) st
      (fun r st' => st'.disk = st.disk ∧ Answers fails st.disk o r) := by
  refine (ataRead_ends lba st).bind (fun b st1 h1 => ?_)
  obtain ⟨hdisk, hbuf, hideal⟩ := h1
  cases b with
  | false =>
    refine Prog.Ends.pure ⟨hdisk, by simp, fun hno => ?_⟩
    cases hideal hno
  | true =>
    by_cases he : it.entry < sectorSize / 32
    · rw [if_pos rfl, if_pos he]
      refine (bufLoad_ends st1).bind (fun buf st2 h2 => ?_)
      obtain ⟨rfl, rfl⟩ := h2
      refine Prog.Ends.pure ⟨hdisk, fun x hx => ?_, by simp⟩
      cases hx
      exact ⟨hin he, _, hbuf rfl, rfl⟩
    · rw [if_pos rfl, if_neg he]
      exact hrest (Nat.not_lt.1 he) st1 hdisk

theorem dirSector_here (hk : it.sector < fs.areaSectors it.cluster) :
    dirSector fs it = pure (some (it, iterLba fs it.cluster it.sector)) := by
  by_cases hc : it.cluster = 0
  · rw [Fs.areaSectors, if_pos hc] at hk
    rw [dirSector, if_pos hc, if_neg (Nat.not_le.2 hk), iterLba, if_pos hc]
  · rw [Fs.areaSectors, if_neg hc] at hk
    rw [dirSector, if_neg hc, if_neg (Nat.not_le.2 hk), iterLba, if_neg hc]

/-- Behind the last sector of a cluster the iterator goes where the link leads. -/
theorem dirSector_behind (hk : fs.areaSectors it.cluster ≤ it.sector) (st : FatState) :
    (dirSector fs it).Ends (fatHandler fails) st (fun r st' => st'.disk = st.disk ∧
      (r = none ∧ ((∀ n lba, fails n lba = false) →
          it.cluster = 0 ∨ isEoc (linkOn fs st.disk it.cluster)) ∨
        r = some ({ it with cluster := linkOn fs st.disk it.cluster, sector := 0 },
          w32 (clusterLba fs (linkOn fs st.disk it.cluster) + 0)) ∧
        ¬ (it.cluster = 0 ∨ isEoc (linkOn fs st.disk it.cluster)))) := by
  by_cases hc : it.cluster = 0
  · rw [Fs.areaSectors, if_pos hc] at hk
    rw [dirSector, if_pos hc, if_pos hk]
    exact Prog.Ends.pure ⟨rfl, Or.inl ⟨rfl, fun _ => Or.inl hc⟩⟩
  · rw [Fs.areaSectors, if_neg hc] at hk
    rw [dirSector, if_neg hc, if_pos hk]
    refine (fatGet_readsFat it.cluster st).bind (fun next st1 h1 => ?_)
    obtain ⟨hdisk, hnext, hideal⟩ := h1
    by_cases heoc : isEoc next
    · rw [if_pos heoc]
      exact Prog.Ends.pure ⟨hdisk, Or.inl ⟨rfl, fun hok => Or.inr (hideal hok ▸ heoc)⟩⟩
    · rw [if_neg heoc]
      obtain rfl := hnext.resolve_left (fun h => heoc (h ▸ (by decide)))
      exact Prog.Ends.pure ⟨hdisk, Or.inr ⟨rfl, fun h => h.elim hc heoc⟩⟩

/-- `dir_next` follows the links, or ends early. -/
theorem dirNext_ends (hi : it.Ok fs) (st : FatState) :
    (dirNext fs it).Ends (fatHandler fails) st (fun r st' => st'.disk = st.disk ∧
      Answers fails st.disk (iterNext fs (linkOn fs st.disk) it) r) := by
  unfold dirNext
  rw [if_neg (by simp [hi.done])]
  by_cases hk : it.sector < fs.areaSectors it.cluster
  · rw [dirNextLoop, dirSector_here hk]
    refine dirRound_ends st (fun he => iterNext_here he hk) (fun he st1 hd => ?_)
    -- the second round starts at entry 0
    by_cases hk' : it.sector + 1 < fs.areaSectors it.cluster
    · rw [dirNextLoop, @dirSector_here fs { it with entry := 0, sector := it.sector + 1 } hk', ← hd]
      exact dirRound_ends st1 (fun _ => iterNext_sector he hk') (fun h => absurd h (by simp))
    · have hnext := @iterNext_link fs (linkOn fs st.disk) it he (Nat.not_lt.1 hk')
      rw [dirNextLoop]
      refine (@dirSector_behind fs fails { it with entry := 0, sector := it.sector + 1 } (Nat.not_lt.1 hk')
        st1).bind (fun r st2 h2 => ?_)
      rw [hd] at h2
      obtain ⟨hd2, ⟨rfl, hideal⟩ | ⟨rfl, hgo⟩⟩ := h2
      · exact Prog.Ends.pure ⟨hd2, by simp, fun hok _ => by rw [hnext, if_pos (hideal hok)]⟩
      · rw [if_neg hgo] at hnext
        rw [hnext, ← hd2]
        exact dirRound_ends st2 (fun _ => rfl) (fun h => absurd h (by simp))
  · -- behind the root area
    have hc : it.cluster = 0 := by
      by_contra hc
      exact hk (by rw [Fs.areaSectors, if_neg hc]; exact hi.sector hc)
    have hnone : iterNext fs (linkOn fs st.disk) it = none := by
      by_cases he : it.entry < 16
      · rw [iterNext, if_pos he, if_neg hk]
      · rw [iterNext_link (Nat.not_lt.1 he) (by omega), if_pos (Or.inl hc)]
    rw [Fs.areaSectors, if_pos hc, Nat.not_lt] at hk
    rw [dirNextLoop, dirSector, if_pos hc, if_pos hk]
    exact Prog.Ends.pure ⟨rfl, by simp, fun _ _ => hnone⟩

end Answers

end OctoOS
