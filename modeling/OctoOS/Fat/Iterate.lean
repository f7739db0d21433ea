import OctoOS.Fat.Check
import OctoOS.Fat.Memory
import Mathlib.Data.Finset.Card

set_option autoImplicit false

/-! # Directory iteration on any disk

`dir_next` follows the links of the FAT without a look at where they lead, so what an iteration does
is decided by the links alone. It ends inside the data area exactly where the links reach an
end-of-chain mark without meeting 0 or 1, the numbers whose sectors lie in front of the data area. -/

namespace OctoOS

open Atomic Linked

/-- `n` calls of `dir_next`: the entries, and whether the last call returned 0. -/
def dirCalls (fs : Fs) : ℕ → DirIter → Fat (List (Dirent × Loc) × Bool)
  | 0, _ => return ([], false)
  | n + 1, it => do
    match ← dirNext fs it with
    | none => return ([], true)
    | some (it, d, l) =>
      let r ← dirCalls fs n it
      return ((d, l) :: r.1, r.2)

/-- A sector of the root area. -/
def Fs.InRoot (fs : Fs) (lba : ℕ) : Prop := fs.rootLba ≤ lba ∧ lba < fs.rootLba + fs.rootSectors

/-- The layout that `fat_mount` sets up: the data area right behind a root area of at least one
    sector, whose size comes from 16 bits. -/
structure Fs.Laid (fs : Fs) : Prop where
  data : fs.dataLba = fs.rootLba + fs.rootSectors
  rootPos : 1 ≤ fs.rootSectors
  rootLe : fs.rootSectors ≤ 4096

/-- A link to a cluster of the data area. -/
def IsLink (c : UInt16) : Prop := 2 ≤ c.toNat ∧ ¬ isEoc c

/-- The links from `c` reach an end-of-chain mark and, `c` included, meet neither 0 nor 1. -/
def EndsInData (link : UInt16 → UInt16) (c : UInt16) : Prop :=
  2 ≤ c.toNat ∧ ∃ l, Links link IsLink isEoc (link c) l

/-- `n` calls: the sectors read, and whether the last one found the end. -/
def iterCalls (fs : Fs) (link : UInt16 → UInt16) : ℕ → DirIter → List ℕ × Bool
  | 0, _ => ([], false)
  | n + 1, it =>
    match iterNext fs link it with
    | none => ([], true)
    | some (it, l) => (l.lba :: (iterCalls fs link n it).1, (iterCalls fs link n it).2)

section Calls

variable {fs : Fs} {ps : ℕ} {fails : Faults} {link : UInt16 → UInt16} {it it' : DirIter} {l : Loc}

theorem iterNext_ok (hs : fs.Sane ps) (hi : it.Ok fs) (h : iterNext fs link it = some (it', l)) :
    it'.Ok fs := by
  unfold iterNext at h
  split_ifs at h with he hk hk' hstop <;> cases h
  · exact ⟨hi.done, he, hi.sector⟩
  · refine ⟨hi.done, by simp, fun hc => ?_⟩
    rwa [Fs.areaSectors, if_neg hc] at hk'
  · exact ⟨hi.done, by simp, fun _ => hs.spcPos⟩

/-- A run of calls reads the sectors of the iterator, or the first few of them. -/
theorem dirCalls_ends (hs : fs.Sane ps) (n : ℕ) (hi : it.Ok fs) (st : FatState) :
    (dirCalls fs n it).Ends (fatHandler fails) st (fun r st' => st'.disk = st.disk ∧
      r.1.map (fun e => e.2.lba) <+: (iterCalls fs (linkOn fs st.disk) n it).1 ∧
      ((iterCalls fs (linkOn fs st.disk) n it).2 = true → r.2 = true) ∧
      ((∀ n lba, fails n lba = false) →
        (r.1.map (fun e => e.2.lba), r.2) = iterCalls fs (linkOn fs st.disk) n it)) := by
  induction n generalizing it st with
  | zero => exact Prog.Ends.pure ⟨rfl, List.nil_prefix, by simp [iterCalls], fun _ => rfl⟩
  | succ n ih =>
    rw [dirCalls, iterCalls]
    refine (dirNext_ends hi st).bind (fun r st1 h1 => ?_)
    obtain ⟨hdisk, hsome, hideal⟩ := h1
    cases r with
    | none =>
      refine Prog.Ends.pure ⟨hdisk, List.nil_prefix, fun _ => rfl, fun hok => ?_⟩
      rw [hideal hok rfl]
      rfl
    | some x =>
      obtain ⟨it', d, loc⟩ := x
      have hnext : iterNext fs (linkOn fs st.disk) it = some (it', loc) := (hsome _ rfl).1
      simp only [hnext]
      refine (ih (iterNext_ok hs hi hnext) st1).bind (fun r st2 h2 => ?_)
      rw [hdisk] at h2
      obtain ⟨hdisk2, hpre, hend, hrun⟩ := h2
      refine Prog.Ends.pure ⟨hdisk2, List.prefix_cons_inj _ |>.2 hpre, hend, fun hok => ?_⟩
      rw [← hrun hok]
      rfl

/-- A loop over the entries ends where the iterator does. -/
theorem dirWhile_ends (hs : fs.Sane ps) {β : Type} {body : Dirent → Loc → Fat (Option β)}
    (hbody : ∀ d l st, (body d l).Ends (fatHandler fails) st (fun _ st' => st'.disk = st.disk))
    {n : ℕ} (hi : it.Ok fs) (st : FatState) (hend : (iterCalls fs (linkOn fs st.disk) n it).2 = true) :
    (dirWhile fs body n it).Ends (fatHandler fails) st (fun _ st' => st'.disk = st.disk) := by
  induction n generalizing it st with
  | zero => cases hend
  | succ n ih =>
    rw [dirWhile]
    refine (dirNext_ends hi st).bind (fun r st1 h1 => ?_)
    obtain ⟨hdisk, hsome, -⟩ := h1
    cases r with
    | none => exact Prog.Ends.pure hdisk
    | some x =>
      obtain ⟨it', d, loc⟩ := x
      have hnext : iterNext fs (linkOn fs st.disk) it = some (it', loc) := (hsome _ rfl).1
      rw [iterCalls, hnext] at hend
      refine (hbody d loc st1).bind (fun b st2 h2 => ?_)
      have hd2 := h2.trans hdisk
      cases b with
      | some r => exact Prog.Ends.pure hd2
      | none =>
        rw [← hd2] at hend
        exact (ih (iterNext_ok hs hi hnext) st2 hend).mono (fun _ _ h => h.trans hd2)

end Calls

/-! ## Where the links lead -/

/-- The entries left in the cluster an iterator stands on. -/
def DirIter.left (fs : Fs) (it : DirIter) : ℕ :=
  16 * (fs.sectorsPerCluster - 1 - it.sector) + (16 - it.entry)

section Links

variable {fs : Fs} {ps : ℕ} {link : UInt16 → UInt16} {it : DirIter} {n : ℕ} {c : UInt16}

/-- The sectors of a cluster of the data area are not in the root area. -/
theorem not_inRoot_of_two_le (hs : fs.Sane ps) (hl : fs.Laid) (hc : 2 ≤ c.toNat) {s : ℕ}
    (hlt : s < fs.sectorsPerCluster) : ¬ fs.InRoot (w32 (clusterLba fs c + s)) := by
  have hsub : sub32 c.toNat 2 = c.toNat - 2 := by
    have := c.toNat_lt
    unfold sub32
    omega
  have hprod : (c.toNat - 2) * fs.sectorsPerCluster ≤ 65535 * 255 :=
    Nat.mul_le_mul (by have := c.toNat_lt; omega) hs.spcLe
  have h1 := hl.data
  have h2 := hl.rootLe
  have h3 := hs.dataLe
  have h4 := hs.noWrap
  have h5 := hs.spcLe
  rw [clusterLba, hsub]
  generalize (c.toNat - 2) * fs.sectorsPerCluster = x at hprod ⊢
  unfold Fs.InRoot w32
  omega

/-- The last sector of cluster 1 is the last one of the root area. -/
theorem inRoot_one (hs : fs.Sane ps) (hl : fs.Laid) :
    fs.InRoot (w32 (clusterLba fs 1 + (fs.sectorsPerCluster - 1))) := by
  have hsub : sub32 (1 : UInt16).toNat 2 = 2 ^ 32 - 1 := by decide
  have h1 := hl.data
  have h2 := hl.rootPos
  have h3 := hs.dataLe
  have h4 := hs.noWrap
  have h5 := hs.spcPos
  have h6 := hs.spcLe
  rw [clusterLba, hsub]
  unfold Fs.InRoot w32
  omega

/-- One call inside a chain: the next entry of the cluster, or the link at its end. -/
theorem iterNext_cases (link : UInt16 → UInt16) (hi : it.Ok fs) (hc : it.cluster ≠ 0) :
    (∃ it' s off, iterNext fs link it = some (it', ⟨w32 (clusterLba fs it.cluster + s), off⟩) ∧
      s < fs.sectorsPerCluster ∧ it'.cluster = it.cluster ∧ it'.sector = s ∧
      it'.left fs + 1 = it.left fs) ∨
    (it.left fs = 0 ∧ iterNext fs link it = if isEoc (link it.cluster) then none
      else some ({ it with cluster := link it.cluster, sector := 0, entry := 1 },
        ⟨w32 (clusterLba fs (link it.cluster) + 0), 0⟩)) := by
  have hlba : ∀ s, iterLba fs it.cluster s = w32 (clusterLba fs it.cluster + s) := fun s => if_neg hc
  have hspc : fs.areaSectors it.cluster = fs.sectorsPerCluster := if_neg hc
  have hlt := hi.sector hc
  have hle := hi.entry
  by_cases he : it.entry < 16
  · refine Or.inl ⟨{ it with entry := it.entry + 1 }, it.sector, it.entry * 32, ?_, hlt, rfl, rfl, ?_⟩
    · rw [iterNext_here he (by rwa [hspc]), hlba]
    · simp only [DirIter.left]
      omega
  · by_cases hs : it.sector + 1 < fs.sectorsPerCluster
    · refine Or.inl ⟨{ it with sector := it.sector + 1, entry := 1 }, it.sector + 1, 0, ?_, hs, rfl, rfl, ?_⟩
      · rw [iterNext_sector (not_lt.1 he) (by rwa [hspc]), hlba]
      · simp only [DirIter.left]
        omega
    · refine Or.inr ⟨?_, ?_⟩
      · unfold DirIter.left
        omega
      · rw [iterNext_link (not_lt.1 he) (by rw [hspc]; exact not_lt.1 hs)]
        simp only [hc, false_or]

theorem left_of_link (hs : fs.Sane ps) (it : DirIter) (c : UInt16) :
    ({ it with cluster := c, sector := 0, entry := 1 } : DirIter).left fs + 1
      = 16 * fs.sectorsPerCluster := by
  have := hs.spcPos
  simp only [DirIter.left]
  omega

theorem ne_zero_of_two_le (hc : 2 ≤ c.toNat) : c ≠ 0 := by
  rintro rfl
  cases hc

/-- In the data area the iterator ends after the clusters of the chain. -/
theorem iterCalls_chain (hs : fs.Sane ps) (hl : fs.Laid) {l : List UInt16} (hi : it.Ok fs)
    (hc : 2 ≤ it.cluster.toNat) (hlinks : Links link IsLink isEoc (link it.cluster) l)
    (hn : l.length * (16 * fs.sectorsPerCluster) + it.left fs < n) :
    (iterCalls fs link n it).2 = true ∧ ∀ lba ∈ (iterCalls fs link n it).1, ¬ fs.InRoot lba := by
  induction n generalizing it l with
  | zero => exact absurd hn (Nat.not_lt_zero _)
  | succ n ih =>
    rw [iterCalls]
    rcases iterNext_cases link hi (ne_zero_of_two_le hc) with
      ⟨it', s, _, hnext, hlt, hcl, -, hleft⟩ | ⟨hleft, hnext⟩
    · -- the next entry of the cluster
      have hrest := ih (iterNext_ok hs hi hnext) (by rwa [hcl]) (by rwa [hcl]) (by omega)
      rw [hnext]
      refine ⟨hrest.1, fun lba hm => ?_⟩
      rcases List.mem_cons.1 hm with rfl | hm'
      · exact not_inRoot_of_two_le hs hl hc hlt
      · exact hrest.2 lba hm'
    · cases l with
      | nil =>
        rw [hnext, if_pos (Links.nil_iff.1 hlinks)]
        exact ⟨rfl, by simp⟩
      | cons x xs =>
        obtain ⟨rfl, ⟨htwo, hgo⟩, hxs⟩ := Links.cons_iff.1 hlinks
        rw [if_neg hgo] at hnext
        have hnew := left_of_link hs it (link it.cluster)
        have hmul := Nat.succ_mul xs.length (16 * fs.sectorsPerCluster)
        rw [List.length_cons, ← Nat.succ_eq_add_one] at hn
        have hrest := ih (iterNext_ok hs hi hnext) htwo hxs (by omega)
        rw [hnext]
        refine ⟨hrest.1, fun lba hm => ?_⟩
        rcases List.mem_cons.1 hm with rfl | hm'
        · exact not_inRoot_of_two_le hs hl htwo hs.spcPos
        · exact hrest.2 lba hm'

/-- In the root area it ends after its sectors. -/
theorem iterCalls_root (hc : it.cluster = 0)
    (hn : 16 * (fs.rootSectors - it.sector) + (16 - it.entry) < n) :
    (iterCalls fs link n it).2 = true := by
  induction n generalizing it with
  | zero => exact absurd hn (Nat.not_lt_zero _)
  | succ n ih =>
    have hroot : fs.areaSectors it.cluster = fs.rootSectors := if_pos hc
    rw [iterCalls, iterNext, hroot]
    split_ifs with he hk hk'
    · exact @ih { it with entry := it.entry + 1 } hc (by simp only; omega)
    · rfl
    · exact @ih { it with sector := it.sector + 1, entry := 1 } hc (by simp only; omega)
    · rfl
    · exact absurd (Or.inl hc) (by assumption)

/-- From cluster 1 it comes to the root area. -/
theorem iterCalls_one (hs : fs.Sane ps) (hl : fs.Laid) (hi : it.Ok fs) (hc : it.cluster = 1)
    (hpos : 0 < it.left fs) (hend : (iterCalls fs link n it).2 = true) :
    ∃ lba ∈ (iterCalls fs link n it).1, fs.InRoot lba := by
  induction n generalizing it with
  | zero => cases hend
  | succ n ih =>
    rw [iterCalls] at hend ⊢
    rcases iterNext_cases link hi (by rw [hc]; decide) with
      ⟨it', s, _, hnext, hlt, hcl, hsec, hleft⟩ | ⟨hleft, -⟩
    · rw [hnext] at hend ⊢
      by_cases hlast : s + 1 < fs.sectorsPerCluster
      · have hpos' : 0 < it'.left fs := by
          unfold DirIter.left
          omega
        obtain ⟨lba, hm, hin⟩ := ih (iterNext_ok hs hi hnext) (hcl.trans hc) hpos' hend
        exact ⟨lba, List.mem_cons_of_mem _ hm, hin⟩
      · refine ⟨_, List.mem_cons_self .., ?_⟩
        rw [hc, show s = fs.sectorsPerCluster - 1 by omega]
        exact inRoot_one hs hl
    · omega

/-- An iteration that ends without a sector of the root area follows a chain. -/
theorem links_of_iterCalls (hs : fs.Sane ps) (hl : fs.Laid) (hi : it.Ok fs) (hc : 2 ≤ it.cluster.toNat)
    (hend : (iterCalls fs link n it).2 = true)
    (hroot : ∀ lba ∈ (iterCalls fs link n it).1, ¬ fs.InRoot lba) :
    ∃ l, Links link IsLink isEoc (link it.cluster) l := by
  induction n generalizing it with
  | zero => cases hend
  | succ n ih =>
    rw [iterCalls] at hend hroot
    rcases iterNext_cases link hi (ne_zero_of_two_le hc) with
      ⟨it', s, _, hnext, hlt, hcl, -, -⟩ | ⟨-, hnext⟩
    · rw [hnext] at hend hroot
      have := ih (iterNext_ok hs hi hnext) (by rwa [hcl]) hend
        (fun lba hm => hroot lba (List.mem_cons_of_mem _ hm))
      rwa [hcl] at this
    · by_cases heoc : isEoc (link it.cluster)
      · exact ⟨[], Links.nil_iff.2 heoc⟩
      · rw [if_neg heoc] at hnext
        have hok := iterNext_ok hs hi hnext
        rw [hnext] at hend hroot
        have hrest := fun lba hm => hroot lba (List.mem_cons_of_mem _ hm)
        simp only at hend hrest
        by_cases htwo : 2 ≤ (link it.cluster).toNat
        · obtain ⟨l, hlinks⟩ := ih hok htwo hend hrest
          exact ⟨_ :: l, Links.cons_iff.2 ⟨rfl, ⟨htwo, heoc⟩, hlinks⟩⟩
        · -- a link to 0 or 1 leads to the root area
          exfalso
          by_cases hone : link it.cluster = 1
          · have hleft := left_of_link hs it (link it.cluster)
            have hspc := hs.spcPos
            obtain ⟨lba, hm, hin⟩ := iterCalls_one hs hl hok hone (by omega) hend
            exact hrest lba hm hin
          · have hzero : link it.cluster = 0 := by
              have h1 : (link it.cluster).toNat ≠ (1 : UInt16).toNat :=
                fun h => hone (UInt16.toNat_inj.1 h)
              refine UInt16.toNat_inj.1 ?_
              change _ = 0
              change _ ≠ 1 at h1
              omega
            cases n with
            | zero => cases hend
            | succ n =>
              have hpos := hl.rootPos
              have hlba : iterLba fs 0 0 = fs.rootLba := by
                have h1 := hs.rootLe
                have h2 := hs.dataLe
                have h3 := hs.noWrap
                rw [iterLba, if_pos rfl, w32]
                omega
              have hroot : 0 < fs.areaSectors 0 := hpos
              rw [iterCalls, iterNext_here (show 1 < 16 by decide) (by rwa [hzero]), hzero] at hrest
              refine hrest _ (List.mem_cons_self ..) ?_
              simp only [hlba]
              exact ⟨le_refl _, by omega⟩

/-- On a cycle of one cluster it never ends. -/
theorem iterCalls_cycle (hs : fs.Sane ps) (n : ℕ) (hi : it.Ok fs) (hc : it.cluster ≠ 0)
    (hcycle : link it.cluster = it.cluster) (hgo : ¬ isEoc it.cluster) :
    (iterCalls fs link n it).2 = false := by
  induction n generalizing it with
  | zero => rfl
  | succ n ih =>
    rw [iterCalls]
    rcases iterNext_cases link hi hc with ⟨it', s, _, hnext, -, hcl, -, -⟩ | ⟨-, hnext⟩
    · rw [hnext]
      exact ih (iterNext_ok hs hi hnext) (by rwa [hcl]) (by rwa [hcl]) (by rwa [hcl])
    · rw [hcycle, if_neg hgo] at hnext
      rw [hnext]
      exact ih (iterNext_ok hs hi hnext) hc hcycle hgo

/-- A chain has at most as many clusters as there are numbers. -/
theorem length_le_of_links {l : List UInt16} (h : Links link IsLink isEoc c l) :
    l.length ≤ 2 ^ 16 :=
  length_le_of_nodup (h.nodup (fun _ hok => hok.2))

/-- Within the rounds the loops of the driver are given. -/
theorem iterCalls_bound (hs : fs.Sane ps) (hl : fs.Laid) (h : c = 0 ∨ EndsInData link c) :
    (iterCalls fs link dirLoopBound (dirBegin c)).2 = true ∧
      (c ≠ 0 → ∀ lba ∈ (iterCalls fs link dirLoopBound (dirBegin c)).1, ¬ fs.InRoot lba) := by
  rcases h with rfl | ⟨hc, l, hlinks⟩
  · refine ⟨iterCalls_root rfl ?_, fun h => absurd rfl h⟩
    have := hl.rootLe
    simp only [dirBegin, dirLoopBound]
    omega
  · have hlen := length_le_of_links hlinks
    have hmul : l.length * (16 * fs.sectorsPerCluster) ≤ 2 ^ 16 * (16 * 255) :=
      Nat.mul_le_mul hlen (Nat.mul_le_mul_left _ hs.spcLe)
    have hle := hs.spcLe
    have hn : l.length * (16 * fs.sectorsPerCluster) + (dirBegin c).left fs < dirLoopBound := by
      simp only [dirBegin, dirLoopBound, DirIter.left]
      omega
    obtain ⟨hend, hroot⟩ := iterCalls_chain hs hl (dirBegin_ok hs c) hc hlinks hn
    exact ⟨hend, fun _ => hroot⟩

end Links

/-! ## The iteration of the driver -/

/-- The calls of `dir_next` from `dir_begin` on come to an end, from a subdirectory without an
    entry of the root area. -/
def DirEnds (fs : Fs) (fails : Faults) (st : FatState) (c : UInt16) : Prop :=
  ∃ n l st', (dirCalls fs n (dirBegin c)).run (fatHandler fails) st = .ok ((l, true), st') ∧
    (c ≠ 0 → ∀ e ∈ l, ¬ fs.InRoot e.2.lba)

/-- The loops of the driver over a directory end. -/
structure LoopsEnd (fs : Fs) (fails : Faults) (st : FatState) (c : UInt16) : Prop where
  find : ∀ name, (dirFind fs c name).Ends (fatHandler fails) st (fun _ _ => True)
  freeSlot : (dirFreeSlot fs c).Ends (fatHandler fails) st (fun _ _ => True)
  ls : ∀ path d o st', (resolve fs false path ⟨0, 0⟩).run (fatHandler fails) st = .ok (some (d, o), st') →
    d.clusterLo = c → (fatLs fs path).Ends (fatHandler fails) st (fun _ _ => True)
  isEmpty : (dirIsEmpty fs c).Ends (fatHandler fails) st (fun _ _ => True)

section Driver

variable {fs : Fs} {ps : ℕ} {fails : Faults} {st : FatState} {c : UInt16}

/-- Looking up a path does not change the disk. -/
theorem resolve_disk {path : Bytes} {r : Option (Dirent × Loc × Name83)} {st' : FatState}
    (hrun : (resolve fs false path ⟨0, 0⟩).run (fatHandler fails) st = .ok (r, st')) :
    st'.disk = st.disk := by
  obtain ⟨n, buf, rfl⟩ := looked_of_run (resolve_reads false path ⟨0, 0⟩) hrun
  rfl

theorem loopsEnd (hs : fs.Sane ps)
    (hend : (iterCalls fs (linkOn fs st.disk) dirLoopBound (dirBegin c)).2 = true) :
    LoopsEnd fs fails st c := by
  have hloop : ∀ {β : Type} (body : Dirent → Loc → Fat (Option β)),
      (∀ d l st, (body d l).Ends (fatHandler fails) st (fun _ st' => st'.disk = st.disk)) →
      (dirWhile fs body dirLoopBound (dirBegin c)).Ends (fatHandler fails) st (fun _ _ => True) :=
    fun body hbody => (dirWhile_ends hs hbody (dirBegin_ok hs c) st hend).mono (fun _ _ _ => trivial)
  have hpure : ∀ {β : Type} (f : Dirent → Loc → Option β), ∀ d l st,
      (pure (f d l) : Fat (Option β)).Ends (fatHandler fails) st (fun _ st' => st'.disk = st.disk) :=
    fun _ _ _ _ => Prog.Ends.pure rfl
  refine ⟨fun name => ?_, hloop _ (hpure _), fun path d o st' hrun hd => ?_, ?_⟩
  · unfold dirFind
    split_ifs
    · exact Prog.Ends.pure trivial
    · exact (hloop _ (hpure _)).bind (fun _ _ _ => Prog.Ends.pure trivial)
  · rw [fatLs, if_neg (by simp [hs.mounted])]
    refine Prog.Ends.bind_ok hrun ?_
    subst hd
    rw [← resolve_disk hrun] at hend
    dsimp only
    split_ifs with hdir
    · refine (dirWhile_ends hs (fun d l st => ?_) (dirBegin_ok hs _) st' hend).bind
        (fun _ _ _ => Prog.Ends.pure trivial)
      split_ifs
      · exact Prog.Ends.pure rfl
      · exact Prog.Ends.pure rfl
      · exact Prog.Ends.step rfl (Prog.Ends.pure rfl)
    all_goals exact Prog.Ends.step rfl (Prog.Ends.pure trivial)
  · exact (hloop _ (hpure _)).bind (fun _ _ _ => Prog.Ends.pure trivial)

theorem dirEnds_of_iterCalls (hs : fs.Sane ps) {n : ℕ}
    (hend : (iterCalls fs (linkOn fs st.disk) n (dirBegin c)).2 = true)
    (hout : c ≠ 0 → ∀ lba ∈ (iterCalls fs (linkOn fs st.disk) n (dirBegin c)).1, ¬ fs.InRoot lba) :
    DirEnds fs fails st c := by
  obtain ⟨⟨l, b⟩, st', hrun, -, hpre, hb, -⟩ := @dirCalls_ends fs ps fails _ hs n (dirBegin_ok hs c) st
  obtain rfl : b = true := hb hend
  refine ⟨n, l, st', hrun, fun hc e he => ?_⟩
  exact hout hc _ (hpre.subset (List.mem_map_of_mem he))

/-- **An iteration ends, and stays out of the root area, exactly when the links do.** -/
theorem dirEnds_iff (hs : fs.Sane ps) (hl : fs.Laid) :
    (∀ fails, DirEnds fs fails st c ∧ LoopsEnd fs fails st c) ↔
      (c = 0 ∨ EndsInData (linkOn fs st.disk) c) := by
  constructor
  · intro h
    by_cases hc : c = 0
    · exact Or.inl hc
    · -- a device without errors follows the links
      obtain ⟨⟨n, l, st', hrun, hroot⟩, -⟩ := h noFaults
      obtain ⟨r, st'', hrun', -, -, -, hexact⟩ := dirCalls_ends hs n (dirBegin_ok hs c) st
      rw [hrun] at hrun'
      cases hrun'
      have hcalls := hexact (fun _ _ => rfl)
      have hend : (iterCalls fs (linkOn fs st.disk) n (dirBegin c)).2 = true := by rw [← hcalls]
      have hout : ∀ lba ∈ (iterCalls fs (linkOn fs st.disk) n (dirBegin c)).1, ¬ fs.InRoot lba := by
        rw [← hcalls]
        intro lba hm
        obtain ⟨e, he, rfl⟩ := List.mem_map.1 hm
        exact hroot hc e he
      have htwo : 2 ≤ c.toNat := by
        by_contra hlt
        have hone : c = 1 := by
          have h0 : c.toNat ≠ (0 : UInt16).toNat := fun h => hc (UInt16.toNat_inj.1 h)
          refine UInt16.toNat_inj.1 ?_
          change _ = 1
          change _ ≠ 0 at h0
          omega
        obtain ⟨lba, hm, hin⟩ := iterCalls_one hs hl (dirBegin_ok hs c) hone
          (by simp only [DirIter.left, dirBegin]; omega) hend
        exact hout lba hm hin
      have hlinks := links_of_iterCalls hs hl (dirBegin_ok hs c) htwo hend hout
      exact Or.inr ⟨htwo, hlinks⟩
  · intro h fails
    have hbound := iterCalls_bound hs hl h
    exact ⟨dirEnds_of_iterCalls hs hbound.1 hbound.2, loopsEnd hs hbound.1⟩

end Driver

theorem smallFs_laid : smallFs.Laid := by
  constructor <;> decide

/-- A directory of one cluster. -/
theorem dirEnds_one_cluster :
    DirEnds smallFs noFaults (smallState [0xFFF8, 0xFFFF, 0xFFFF] [] []) 2 :=
  ((dirEnds_iff smallFs_sane smallFs_laid).2
    (Or.inr ⟨by decide, [], Links.nil_iff.2 (by decide +kernel)⟩) _).1

/-- A link of a cluster to itself: the calls never end. And a link to 0: the second entry behind it
    is one of the root area. -/
theorem dirNext_never_ends :
    (∀ n, ∃ l st', (dirCalls smallFs n (dirBegin 2)).run (fatHandler noFaults)
      (smallState [0xFFF8, 0xFFFF, 2] [] []) = .ok ((l, false), st')) ∧
    ((dirCalls smallFs 18 (dirBegin 2)).run (fatHandler noFaults)
      (smallState [0xFFF8, 0xFFFF, 0] [] [])).map (fun r => (r.1.1.map (fun e => e.2.lba)).getLast?)
      = .ok (some 4) ∧ smallFs.InRoot 4 := by
  refine ⟨fun n => ?_, by decide +kernel, by decide, by decide⟩
  have hcycle : linkOn smallFs (smallState [0xFFF8, 0xFFFF, 2] [] []).disk 2 = 2 := by decide +kernel
  obtain ⟨⟨l, b⟩, st', hrun, -, -, -, hexact⟩ := @dirCalls_ends smallFs 7 noFaults _
    smallFs_sane n (dirBegin_ok smallFs_sane 2) (smallState [0xFFF8, 0xFFFF, 2] [] [])
  have hb : b = false := by
    rw [← iterCalls_cycle smallFs_sane n (dirBegin_ok smallFs_sane 2) (by decide) hcycle (by decide),
      ← hexact (fun _ _ => rfl)]
  rw [hb] at hrun
  exact ⟨l, st', hrun⟩

end OctoOS
