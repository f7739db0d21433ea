import OctoOS.Fat.Check
import OctoOS.Fat.Effect
import OctoOS.Fat.Names
import Mathlib.Algebra.BigOperators.Group.Finset.Basic

set_option autoImplicit false

/-! # When `fat_write_file` succeeds

The outcomes of `fat_write_file` are told apart by what the driver meets on its way. Here the
question is asked the other way round, of the volume: there is a directory to put the file in, a
name for it, a slot, and enough clusters once those of the file it replaces are counted as free. -/

namespace OctoOS

open Atomic Tiling Linked

/-- The clusters of the file that a write to `name` in the directory `p` replaces. -/
def Vol.replaced (fs : Fs) (v : Vol) (p : UInt16) (name : Name83) : ℕ :=
  ∑ s ∈ (v.dirSlots fs p).toFinset with v.Holds s name, (v.ownChain fs s).length

/-- A file of `n` bytes can be written to `name` in the directory `p`. -/
structure Vol.RoomAt (fs : Fs) (v : Vol) (p : UInt16) (name : Name83) (n : ℕ) : Prop where
  notDir : ∀ s ∈ v.dirSlots fs p, v.Holds s name → (v.entry s).isDir = false
  slot : (∃ s ∈ v.dirSlots fs p, v.Holds s name) ∨
    ∃ s ∈ v.dirSlots fs p, (v.entry s).name.first = 0x00 ∨ (v.entry s).name.first = 0xE5
  clusters : fs.clustersFor n ≤ (v.freeSet fs).card + v.replaced fs p name

/-- A file of `n` bytes can be written to `path`. -/
def Vol.CanWrite (fs : Fs) (v : Vol) (path : Bytes) (n : ℕ) : Prop :=
  ∃ d o name, v.resolvePath fs true path = some (d, o, name) ∧ d.isDir = true ∧ ¬ IsDotName name ∧
    v.RoomAt fs d.clusterLo name n

section Success

variable {fs : Fs} {ps : ℕ} {v : Vol} {path : Bytes} {p : UInt16} {name : Name83} {n : ℕ} {s : Slot}

/-- The parent of a path, with the last component other than `.` and `..`. -/
theorem Vol.parent_iff {d : Dirent} : v.parent fs path = some (d, name) ↔
    ∃ o, v.resolvePath fs true path = some (d, o, name) ∧ d.isDir = true ∧ ¬ IsDotName name := by
  unfold Vol.parent
  cases hr : v.resolvePath fs true path with
  | none => simp
  | some r =>
    obtain ⟨d', o, n⟩ := r
    obtain ⟨comp, -, hn⟩ := Vol.walkPath_name hr
    have hdot : n.first = dot ↔ IsDotName n :=
      ⟨fun h => by_contra (fun hno => to83_ne_dot hn hno h), IsDotName.head⟩
    simp only [hdot]
    constructor
    · intro h
      split_ifs at h with hcond
      cases h
      rw [not_or] at hcond
      exact ⟨o, rfl, by simpa using hcond.1, hcond.2⟩
    · rintro ⟨o', heq, hdir, hno⟩
      cases heq
      rw [if_neg]
      rw [not_or]
      exact ⟨by simp [hdir], hno⟩

/-- A path has one parent. -/
theorem Vol.canWrite_iff {d : Dirent} (hp : v.parent fs path = some (d, name)) :
    v.CanWrite fs path n ↔ v.RoomAt fs d.clusterLo name n := by
  obtain ⟨o, hr, hdir, hdot⟩ := Vol.parent_iff.1 hp
  constructor
  · rintro ⟨d', o', name', hr', -, -, hroom⟩
    rw [hr] at hr'
    cases hr'
    exact hroom
  · exact fun hroom => ⟨d, o, name, hr, hdir, hdot, hroom⟩

theorem Vol.not_canWrite (hp : v.parent fs path = none) : ¬ v.CanWrite fs path n := by
  rintro ⟨d, o, name, hr, hdir, hdot, -⟩
  rw [Vol.parent_iff.2 ⟨o, hr, hdir, hdot⟩] at hp
  cases hp

theorem Vol.replaced_of_findSlot (h : v.Consistent fs) (hp : v.Live fs p)
    (hf : v.findSlot fs p name = some s) : v.replaced fs p name = (v.ownChain fs s).length := by
  obtain ⟨hmem, hh⟩ := (h.findSlot_iff hp).1 hf
  have hone : {t ∈ (v.dirSlots fs p).toFinset | v.Holds t name} = {s} := by
    ext t
    rw [Finset.mem_filter, List.mem_toFinset, ← h.findSlot_iff hp, hf, Finset.mem_singleton,
      Option.some.injEq, eq_comm]
  rw [Vol.replaced, hone, Finset.sum_singleton]

theorem Vol.replaced_of_not_found (h : v.Consistent fs) (hp : v.Live fs p)
    (hf : v.findSlot fs p name = none) : v.replaced fs p name = 0 := by
  have hnone : {t ∈ (v.dirSlots fs p).toFinset | v.Holds t name} = ∅ := by
    refine Finset.filter_eq_empty_iff.2 (fun t ht => ?_)
    exact h.not_holds_of_findSlot hp hf (List.mem_toFinset.1 ht)
  rw [Vol.replaced, hnone, Finset.sum_empty]

theorem Vol.ownChain_nodup (hs : fs.Sane ps) (h : v.Consistent fs) (ho : v.Owner fs s) :
    (v.ownChain fs s).Nodup := by
  by_cases h2 : 2 ≤ (v.entry s).clusterLo.toNat
  · exact (h.chains s ho h2).nodup hs
  · rw [Vol.ownChain, Vol.chain_of_not_isCluster (fun hcl => h2 hcl.1)]
    exact List.nodup_nil

/-- Freeing the chain of a file adds its clusters to the free ones. -/
theorem Vol.card_freeSet_free (hs : fs.Sane ps) (h : v.Consistent fs) (ho : v.Owner fs s) :
    ((v.free (v.ownChain fs s)).freeSet fs).card = (v.freeSet fs).card + (v.ownChain fs s).length := by
  have hset : (v.free (v.ownChain fs s)).freeSet fs = v.freeSet fs ∪ (v.ownChain fs s).toFinset := by
    ext c
    rw [Finset.mem_union, List.mem_toFinset, Vol.mem_freeSet, Vol.mem_freeSet]
    by_cases hc : c ∈ v.ownChain fs s
    · have hcl : fs.IsCluster c := ok_of_mem_walk hc
      simp [Vol.free, hc, hcl]
    · simp [Vol.free, hc]
  have hdisj : Disjoint (v.freeSet fs) (v.ownChain fs s).toFinset := by
    rw [Finset.disjoint_left]
    intro c hfree hc
    exact h.not_mem_freeSet ho (List.mem_toFinset.1 hc) hfree
  rw [hset, Finset.card_union_of_disjoint hdisj,
    List.toFinset_card_of_nodup (Vol.ownChain_nodup hs h ho)]

/-- Where a slot holds the name: it has to be a file. -/
theorem Vol.roomAt_of_found (h : v.Consistent fs) (hp : v.Live fs p)
    (hf : v.findSlot fs p name = some s) :
    v.RoomAt fs p name n ↔ (v.entry s).isDir = false ∧
      fs.clustersFor n ≤ (v.freeSet fs).card + (v.ownChain fs s).length := by
  obtain ⟨hmem, hh⟩ := (h.findSlot_iff hp).1 hf
  constructor
  · intro hroom
    exact ⟨hroom.notDir s hmem hh, Vol.replaced_of_findSlot h hp hf ▸ hroom.clusters⟩
  · rintro ⟨hfile, hle⟩
    refine ⟨fun t htm hth => ?_, Or.inl ⟨s, hmem, hh⟩, ?_⟩
    · -- no other slot holds it
      have ht := (h.findSlot_iff hp).2 ⟨htm, hth⟩
      rw [hf] at ht
      cases ht
      exact hfile
    · rw [Vol.replaced_of_findSlot h hp hf]
      exact hle

/-- Where no slot holds the name: there has to be a free one. -/
theorem Vol.roomAt_of_not_found (h : v.Consistent fs) (hp : v.Live fs p)
    (hf : v.findSlot fs p name = none) :
    v.RoomAt fs p name n ↔ v.freeSlot fs p ≠ none ∧ fs.clustersFor n ≤ (v.freeSet fs).card := by
  have hno : ∀ s ∈ v.dirSlots fs p, ¬ v.Holds s name := fun s hs => h.not_holds_of_findSlot hp hf hs
  constructor
  · intro hroom
    obtain ⟨s, hmem, hfree⟩ := hroom.slot.resolve_left (fun ⟨s, hmem, hh⟩ => hno s hmem hh)
    refine ⟨fun hfull => ?_, by simpa [Vol.replaced_of_not_found h hp hf] using hroom.clusters⟩
    have := List.find?_eq_none.1 hfull s hmem
    simp only [Vol.IsFreeSlot, decide_eq_true_eq] at this
    exact this hfree
  · rintro ⟨hfree, hle⟩
    obtain ⟨s, hs⟩ := Option.ne_none_iff_exists'.1 hfree
    refine ⟨fun s hmem hh => absurd hh (hno s hmem), Or.inr ⟨s, Vol.freeSlot_spec hs⟩, ?_⟩
    rw [Vol.replaced_of_not_found h hp hf]
    exact hle

/-- The two conditions of `chain_write` in one. -/
theorem Vol.fits_iff (hs : fs.Sane ps) {data : Bytes} {l : List Blk} (hl : v.heap = some l)
    (hbuf : (kmallocBlocks fs.clusterBytes l).1 ≠ 0) :
    (data = [] ∨ v.Fits fs data.length) ↔ fs.clustersFor data.length ≤ (v.freeSet fs).card := by
  constructor
  · rintro (rfl | hfits)
    · rw [List.length_nil, Fs.clustersFor_zero hs]
      exact Nat.zero_le _
    · exact hfits.2
  · exact fun hle => Or.inr ⟨⟨l, hl, hbuf⟩, hle⟩

/-- The result says whether there was room. -/
theorem Vol.WriteOutcome.zero_iff (hs : fs.Sane ps) (h : v.Consistent fs) (hc : v.Live fs v.cwd)
    {l : List Blk} (hl : v.heap = some l) (hbuf : (kmallocBlocks fs.clusterBytes l).1 ≠ 0)
    {data : Bytes} {r : Int} {v' : Vol} (ho : v.WriteOutcome fs path data r v') :
    r = 0 ↔ v.CanWrite fs path data.length := by
  -- what the driver finds at the name of the path
  have hfound : ∀ {d : Dirent} {name : Name83} {s : Slot}, v.parent fs path = some (d, name) →
      v.findSlot fs d.clusterLo name = some s →
      (v.CanWrite fs path data.length ↔ (v.entry s).isDir = false ∧
        (data = [] ∨ (v.free (v.ownChain fs s)).Fits fs data.length)) := by
    intro d name s hp hf
    obtain ⟨hlive, hdot⟩ := Vol.parent_spec h hc hp
    rw [Vol.canWrite_iff hp, Vol.roomAt_of_found h hlive hf, Vol.fits_iff hs (v := v.free _) hl hbuf,
      Vol.card_freeSet_free hs h (h.owner_of_findSlot hlive hdot hf)]
  have hnew : ∀ {d : Dirent} {name : Name83}, v.parent fs path = some (d, name) →
      v.findSlot fs d.clusterLo name = none →
      (v.CanWrite fs path data.length ↔ v.freeSlot fs d.clusterLo ≠ none ∧
        (data = [] ∨ v.Fits fs data.length)) := by
    intro d name hp hf
    obtain ⟨hlive, -⟩ := Vol.parent_spec h hc hp
    rw [Vol.canWrite_iff hp, Vol.roomAt_of_not_found h hlive hf, Vol.fits_iff hs hl hbuf]
  cases ho with
  | badPath hp => exact iff_of_false (by decide) (Vol.not_canWrite hp)
  | isDirectory hp hf hdir => simp [hfound hp hf, hdir]
  | directoryFull hp hf hfull => simp [hnew hp hf, hfull]
  | overwritten hp hf hfile hfits hw => simp [hfound hp hf, hfile, hfits]
  | overwriteFailed hp hf hfile hfits hw => simp [hfound hp hf, hfits]
  | created hp hf hfree hfits hw => simp [hnew hp hf, hfree, hfits]
  | createFailed hp hf hfree hfits hw => simp [hnew hp hf, hfits]

/-- **`fat_write_file` succeeds exactly when there is room.** -/
theorem fatWriteFile_succeeds_iff (hs : fs.Sane ps) {fault : Faults} {st : FatState}
    (hwf : (st.vol fs).WellFormed fs) (hcwd : (st.vol fs).Live fs st.cwdCluster) {l : List Blk}
    (hl : st.heap.blocks = some l) (hbuf : (kmallocBlocks fs.clusterBytes l).1 ≠ 0)
    (path data : Bytes) (hlen : data.length < 2 ^ 32)
    (hclean : NoAtaError fault (fatWriteFile fs path data) st) :
    ∃ rc st', (fatWriteFile fs path data).run (ataHandler fault) st = .ok (rc, st') ∧
      (rc = 0 ↔ (st.vol fs).CanWrite fs path data.length) := by
  have hready : st.Ready fs := ⟨hwf.toConsistent, hcwd, l, hl⟩
  obtain ⟨rc, v', hy, ho⟩ := FatCall.yields hs hready.vol (.writeFile path data) hlen
  obtain ⟨st', hrun, -⟩ := hy.run_ok hclean
  exact ⟨rc, st', hrun, Vol.WriteOutcome.zero_iff hs hwf.toConsistent hcwd hl hbuf ho⟩

end Success

/-- An empty volume with three clusters, and a heap of 4 KiB. -/
def emptyState : FatState := { smallState [] [] [] with heap := heapInit smallMap (fun _ => 0) }

theorem emptyState_wellFormed : (emptyState.vol smallFs).WellFormed smallFs := by
  have hc : (emptyState.vol smallFs).Check smallFs [0] := by decide +kernel
  exact hc.wellFormed_root

theorem emptyState_blocks : emptyState.heap.blocks
    = some [⟨emptyState.heap.head, emptyState.heap.total - blockHeader, false⟩] :=
  (@heapInit_inv smallMap (fun _ => 0) _ rfl (by decide) (by decide) (by decide)).blocks_eq

/-- In an empty volume `ABC` is written, and 1537 bytes, one more than three clusters hold, are not. -/
theorem fatWriteFile_succeeds_abc :
    (∃ st', (fatWriteFile smallFs (str "B") (str "ABC")).run (ataHandler noFaults)
      emptyState = .ok (0, st') ∧ (emptyState.vol smallFs).CanWrite smallFs (str "B") 3) ∧
    ∃ st', (fatWriteFile smallFs (str "B") (List.replicate 1537 0x41)).run
        (ataHandler noFaults) emptyState = .ok (-1, st') ∧
      ¬ (emptyState.vol smallFs).CanWrite smallFs (str "B") 1537 := by
  have hiff := fun data => @fatWriteFile_succeeds_iff _ _ smallFs_sane noFaults _
    emptyState_wellFormed Vol.Live.root _ emptyState_blocks (by decide +kernel) (str "B") data
  obtain ⟨_, st, hrun, rfl⟩ : (fatWriteFile smallFs (str "B") (str "ABC")).Ends
      (ataHandler noFaults) emptyState (fun rc _ => rc = 0) := by decide +kernel
  obtain ⟨_, st', hrun', rfl⟩ : (fatWriteFile smallFs (str "B") (List.replicate 1537 0x41)).Ends
      (ataHandler noFaults) emptyState (fun rc _ => rc = -1) := by decide +kernel
  refine ⟨⟨st, hrun, ?_⟩, st', hrun', ?_⟩
  · obtain ⟨rc, _, hrun1, hzero⟩ := hiff (str "ABC") (by decide) (by decide +kernel)
    rw [hrun] at hrun1
    cases hrun1
    exact hzero.1 rfl
  · obtain ⟨rc, _, hrun1, hzero⟩ := hiff (List.replicate 1537 0x41)
      (by rw [List.length_replicate]; decide) (by decide +kernel)
    rw [hrun'] at hrun1
    cases hrun1
    rw [List.length_replicate] at hzero
    exact fun hcan => absurd (hzero.2 hcan) (by decide)

end OctoOS
