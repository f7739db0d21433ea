import OctoOS.Fat.Dir
import Mathlib.Data.Finset.Image
import Mathlib.Data.Finset.Card

set_option autoImplicit false

/-! # Allocating, freeing, writing and reading chains

What `cluster_alloc`, `chain_free`, `chain_write` and `file_stream` compute on a volume. A write
takes clusters that were free and links them behind each other; it fails exactly when the transfer
buffer cannot be allocated or too few clusters are free, and then the FAT is as it was before. -/

namespace OctoOS

open Atomic Tiling Linked

/-- The free clusters. -/
def Vol.freeSet (fs : Fs) (v : Vol) : Finset UInt16 :=
  ((Finset.range (fs.maxCluster + 1)).image UInt16.ofNat).filter
    (fun c => fs.IsCluster c ∧ v.fat c = clusterFree)

/-- `chain_free` of a chain with the clusters `l`. -/
def Vol.free (v : Vol) (l : List UInt16) : Vol :=
  { v with fat := fun c => if c ∈ l then clusterFree else v.fat c }

/-- The clusters a file of `n` bytes takes. -/
def Fs.clustersFor (fs : Fs) (n : ℕ) : ℕ := (n + fs.clusterBytes - 1) / fs.clusterBytes

/-- The bytes in the clusters `l`, one after another. -/
def Vol.chainData (fs : Fs) (v : Vol) (l : List UInt16) : Bytes := l.flatMap (v.clusterData fs)

section Alloc

variable {fs : Fs} {ps : ℕ} {v v' : Vol} {l : List UInt16} {c : UInt16}

theorem Vol.mem_freeSet : c ∈ v.freeSet fs ↔ fs.IsCluster c ∧ v.fat c = clusterFree := by
  simp only [Vol.freeSet, Finset.mem_filter, Finset.mem_image, Finset.mem_range,
    and_iff_right_iff_imp]
  intro h
  exact ⟨c.toNat, Nat.lt_succ_of_le h.1.2, UInt16.ofNat_toNat⟩

theorem UInt16.two_le_iff : 2 ≤ c ↔ 2 ≤ c.toNat := UInt16.le_iff_toNat_le

/-! ## `cluster_alloc` -/

/-- The search of `cluster_alloc` by itself. -/
def findFree (fs : Fs) : ℕ → UInt16 → Fat (Option UInt16)
  | 0, _ => .stop .diverges
  | fuel + 1, c =>
    if c.toNat ≤ fs.maxCluster then do
      if (← fatGet fs c) = clusterFree then return some c else findFree fs fuel (c + 1)
    else return none

/-- What `cluster_alloc` does with what it found. -/
def takeFree (fs : Fs) : Option UInt16 → Fat UInt16
  | none => return 0
  | some c => do if ← fatSet fs c clusterEoc then return c else return 0

theorem clusterAllocLoop_eq (fuel : ℕ) (c : UInt16) :
    clusterAllocLoop fs fuel c = findFree fs fuel c >>= takeFree fs := by
  induction fuel generalizing c with
  | zero => rfl
  | succ fuel ih =>
    rw [clusterAllocLoop, findFree]
    by_cases hm : c.toNat ≤ fs.maxCluster
    · rw [if_pos hm, if_pos hm, Prog.bind_assoc]
      refine congrArg (Bind.bind (fatGet fs c)) (funext (fun x => ?_))
      by_cases hx : x = clusterFree
      · rw [if_pos hx, if_pos hx]
        rfl
      · rw [if_neg hx, if_neg hx, ih]
    · rw [if_neg hm, if_neg hm]
      rfl

/-- The search ends at the first free cluster, or finds that there is none. -/
theorem findFree_yields (hs : fs.Sane ps) (fuel : ℕ) (hc : 2 ≤ c.toNat)
    (hle : c.toNat ≤ fs.maxCluster + 1) (hfuel : fs.maxCluster + 1 - c.toNat < fuel) :
    (∃ x, fs.IsCluster x ∧ v.fat x = clusterFree ∧
      fs.Yields (findFree fs fuel c) v (some x) v) ∨
    ((∀ x, c.toNat ≤ x.toNat → fs.IsCluster x → v.fat x ≠ clusterFree) ∧
      fs.Yields (findFree fs fuel c) v none v) := by
  induction fuel generalizing c with
  | zero => exact absurd hfuel (by omega)
  | succ fuel ih =>
    rw [findFree]
    by_cases hm : c.toNat ≤ fs.maxCluster
    · rw [if_pos hm]
      by_cases hfree : v.fat c = clusterFree
      · refine Or.inl ⟨c, ⟨hc, hm⟩, hfree, (fatGet_yields hs hm).bind ?_⟩
        rw [if_pos hfree]
        exact Fs.Yields.pure _
      · have hmax := hs.maxReserved
        have hsucc : (c + 1).toNat = c.toNat + 1 := by
          rw [UInt16.toNat_add, UInt16.toNat_one]
          exact Nat.mod_eq_of_lt (by omega)
        have hget : ∀ {r : Option UInt16}, fs.Yields (findFree fs fuel (c + 1)) v r v →
            fs.Yields (do
              if (← fatGet fs c) = clusterFree then return some c
              else findFree fs fuel (c + 1)) v r v := by
          intro r h
          refine (fatGet_yields hs hm).bind ?_
          rw [if_neg hfree]
          exact h
        rcases ih (c := c + 1) (by omega) (by omega) (by omega) with ⟨x, hx, hxf, hy⟩ | ⟨hall, hy⟩
        · exact Or.inl ⟨x, hx, hxf, hget hy⟩
        · refine Or.inr ⟨fun x hcx hx => ?_, hget hy⟩
          rcases Nat.eq_or_lt_of_le hcx with heq | hlt
          · rwa [← UInt16.toNat_inj.1 heq]
          · exact hall x (by omega) hx
    · rw [if_neg hm]
      refine Or.inr ⟨fun x hcx hx => ?_, Fs.Yields.pure _⟩
      have := hx.2
      omega

/-- The search of `cluster_alloc` over all clusters. -/
theorem findFree_all (hs : fs.Sane ps) :
    (∃ x, fs.IsCluster x ∧ v.fat x = clusterFree ∧
      fs.Yields (findFree fs clusterLoopBound 2) v (some x) v) ∨
    ((∀ x, fs.IsCluster x → v.fat x ≠ clusterFree) ∧
      fs.Yields (findFree fs clusterLoopBound 2) v none v) := by
  have hmax := hs.maxReserved
  have h2 : (2 : UInt16).toNat = 2 := rfl
  by_cases hm : 1 ≤ fs.maxCluster
  · rcases findFree_yields (v := v) (c := 2) hs clusterLoopBound (by omega) (by omega)
      (by unfold clusterLoopBound; omega) with h | ⟨hall, hy⟩
    · exact Or.inl h
    · exact Or.inr ⟨fun x hx => hall x hx.1 hx, hy⟩
  · -- an empty data area
    refine Or.inr ⟨fun x hx => by have := hx.1; have := hx.2; omega, ?_⟩
    have hstop : findFree fs clusterLoopBound 2 = pure none := by
      rw [show clusterLoopBound = 131071 + 1 from rfl, findFree, if_neg (by omega)]
    rw [hstop]
    exact Fs.Yields.pure _

/-- `cluster_alloc` marks some free cluster as the end of a chain, or finds none. -/
theorem clusterAlloc_yields (hs : fs.Sane ps) :
    (∃ x, fs.IsCluster x ∧ v.fat x = clusterFree ∧
      fs.Yields (clusterAlloc fs) v x (v.setFat x clusterEoc)) ∨
    ((∀ x, fs.IsCluster x → v.fat x ≠ clusterFree) ∧ fs.Yields (clusterAlloc fs) v 0 v) := by
  rw [clusterAlloc, clusterAllocLoop_eq]
  rcases findFree_all (v := v) hs with ⟨x, hx, hfree, hy⟩ | ⟨hnone, hy⟩
  · refine Or.inl ⟨x, hx, hfree, hy.bind ((fatSet_yields hs hx.2 clusterEoc).bind ?_)⟩
    rw [if_pos rfl]
    exact Fs.Yields.pure _
  · exact Or.inr ⟨hnone, hy.bind (Fs.Yields.pure _)⟩

/-! ## `chain_free` -/

theorem Vol.free_cons_of_setFat : (v.setFat c clusterFree).free l = v.free (c :: l) := by
  unfold Vol.free Vol.setFat
  congr 1
  funext x
  by_cases hx : x = c
  · simp [hx]
  · simp [hx]

theorem chainFreeLoop_yields (hs : fs.Sane ps) {fuel : ℕ} (hl : Links v.fat fs.IsCluster isEoc c l)
    (hfuel : l.length < fuel) : fs.Yields (chainFreeLoop fs fuel c) v () (v.free l) := by
  induction l generalizing v c fuel with
  | nil =>
    obtain ⟨fuel, rfl⟩ : ∃ n, fuel = n + 1 := ⟨fuel - 1, by omega⟩
    have hstop := Links.nil_iff.1 hl
    rw [chainFreeLoop, if_neg (fun h => h.2 hstop)]
    have hfree : v.free [] = v := by simp [Vol.free]
    rw [hfree]
    exact Fs.Yields.pure _
  | cons x xs ih =>
    obtain ⟨fuel, rfl⟩ : ∃ n, fuel = n + 1 := ⟨fuel - 1, by omega⟩
    have hnd := hl.nodup hs.not_isEoc
    obtain ⟨rfl, hx, hrest⟩ := Links.cons_iff.1 hl
    rw [chainFreeLoop, if_pos ⟨UInt16.two_le_iff.2 hx.1, hs.not_isEoc x hx⟩]
    refine (fatGet_yields hs hx.2).bind ((fatSet_yields hs hx.2 clusterFree).bind ?_)
    rw [← Vol.free_cons_of_setFat]
    refine ih (hrest.congr (fun y hy => ?_)) (Nat.lt_of_succ_lt_succ hfuel)
    exact Function.update_of_ne (fun h => (List.nodup_cons.1 hnd).1 (by rw [← h]; exact hy)) _ _

/-- `chain_free` frees every cluster of the chain. -/
theorem chainFree_yields (hs : fs.Sane ps) (hl : Links v.fat fs.IsCluster isEoc c l) :
    fs.Yields (chainFree fs c) v () (v.free l) := by
  have hlen := Vol.chain_length_le fs v c
  rw [Vol.chain_eq_of_links hs hl] at hlen
  exact chainFreeLoop_yields hs hl (lt_of_le_of_lt hlen (by decide))

end Alloc

/-! ## `chain_write` -/

/-- `v'` is `v` with `data` in the fresh chain `cs`. -/
structure Vol.Wrote (fs : Fs) (v v' : Vol) (data : Bytes) (cs : List UInt16) : Prop where
  length : cs.length = fs.clustersFor data.length
  fresh : ∀ c ∈ cs, fs.IsCluster c ∧ v.fat c = clusterFree
  links : cs ≠ [] → Links v'.fat fs.IsCluster isEoc (cs.headD 0) cs
  fat : ∀ c ∉ cs, v'.fat c = v.fat c
  area : ∀ c ∉ cs, v'.area c = v.area c
  data : (v'.chainData fs cs).take data.length = data
  cwd : v'.cwd = v.cwd
  cwdPath : v'.cwdPath = v.cwdPath
  heap : v'.heap = v.heap

/-- `v'` differs from `v` in the bytes of free clusters only. -/
structure Vol.SameUsed (fs : Fs) (v v' : Vol) : Prop where
  fat : v'.fat = v.fat
  area : ∀ c, c ∉ v.freeSet fs → v'.area c = v.area c
  cwd : v'.cwd = v.cwd
  cwdPath : v'.cwdPath = v.cwdPath
  heap : v'.heap = v.heap

/-- Where the FAT of `v'` differs from that of `v`, it holds an end mark or a cluster. -/
def Vol.Marked (fs : Fs) (v v' : Vol) : Prop :=
  ∀ c, v'.fat c = v.fat c ∨ v'.fat c = clusterEoc ∨ fs.IsCluster (v'.fat c)

/-- What `chain_write` needs for `n > 0` bytes: its transfer buffer and enough free clusters. -/
def Vol.Fits (fs : Fs) (v : Vol) (n : ℕ) : Prop :=
  (∃ l, v.heap = some l ∧ (kmallocBlocks fs.clusterBytes l).1 ≠ 0) ∧
    fs.clustersFor n ≤ (v.freeSet fs).card

/-- The loop of `chain_write`, started on `v0`, has written `done` to the clusters `ds`. -/
structure ChainState (fs : Fs) (v0 v : Vol) (done : Bytes) (ds : List UInt16)
    (first prev : UInt16) : Prop where
  length : ds.length = fs.clustersFor done.length
  fresh : ∀ c ∈ ds, fs.IsCluster c ∧ v0.fat c = clusterFree
  nodup : ds.Nodup
  ends : (ds = [] ∧ first = 0 ∧ prev = 0) ∨
    ∃ es, ds = es ++ [prev] ∧ Path v.fat fs.IsCluster first es prev ∧ isEoc (v.fat prev)
  fat : ∀ c ∉ ds, v.fat c = v0.fat c
  area : ∀ c ∉ ds, v.area c = v0.area c
  data : (v.chainData fs ds).take done.length = done
  cwd : v.cwd = v0.cwd
  cwdPath : v.cwdPath = v0.cwdPath

section Write

variable {fs : Fs} {ps : ℕ} {v v0 v' : Vol} {b : Blk} {done rest : Bytes} {l : List Blk}
  {ds : List UInt16} {c prev : UInt16}

@[simp] theorem Vol.clusterData_length (v : Vol) (c : UInt16) :
    (v.clusterData fs c).length = fs.clusterBytes := by
  simp [Vol.clusterData]

theorem Vol.chainData_append (v : Vol) (l l' : List UInt16) :
    v.chainData fs (l ++ l') = v.chainData fs l ++ v.chainData fs l' := List.flatMap_append

theorem Vol.chainData_length (v : Vol) (l : List UInt16) :
    (v.chainData fs l).length = l.length * fs.clusterBytes := by
  simp [Vol.chainData, List.length_flatMap]

/-- The bytes of a chain depend on its clusters only. -/
theorem Vol.chainData_congr {l : List UInt16} (h : ∀ c ∈ l, v'.area c = v.area c) :
    v'.chainData fs l = v.chainData fs l := by
  unfold Vol.chainData Vol.clusterData
  refine List.flatMap_congr (fun c hc => ?_)
  rw [h c hc]

theorem Fs.clustersFor_zero (hs : fs.Sane ps) : fs.clustersFor 0 = 0 := by
  have := hs.clusterBytes_pos
  rw [Fs.clustersFor, Nat.zero_add]
  exact Nat.div_eq_of_lt (by omega)

/-- `n` full clusters and a started one. -/
theorem Fs.clustersFor_add {n k : ℕ} (hk : 0 < k) (hle : k ≤ fs.clusterBytes) :
    fs.clustersFor (n * fs.clusterBytes + k) = n + 1 := by
  have hpos : 0 < fs.clusterBytes := by omega
  rw [Fs.clustersFor]
  have heq : n * fs.clusterBytes + k + fs.clusterBytes - 1
      = k - 1 + (n + 1) * fs.clusterBytes := by
    rw [Nat.add_mul, Nat.one_mul]
    omega
  rw [heq, Nat.add_mul_div_right _ _ hpos, Nat.div_eq_of_lt (by omega), Nat.zero_add]

theorem Fs.clustersFor_le_iff (hs : fs.Sane ps) {n k : ℕ} :
    fs.clustersFor n ≤ k ↔ n ≤ k * fs.clusterBytes := by
  have hpos := hs.clusterBytes_pos
  rw [Fs.clustersFor, Nat.div_le_iff_le_mul_add_pred hpos]
  rw [Nat.mul_comm]
  omega

/-- After `n` full clusters, bytes that are left need another one. -/
theorem Fs.lt_clustersFor (hs : fs.Sane ps) {done rest : Bytes} {n : ℕ}
    (hfull : done.length = n * fs.clusterBytes) (hrest : rest ≠ []) :
    n < fs.clustersFor (done ++ rest).length := by
  by_contra hle
  have hle' := (Fs.clustersFor_le_iff hs).1 (not_lt.1 hle)
  have := List.length_pos_of_ne_nil hrest
  rw [List.length_append, hfull] at hle'
  omega

namespace ChainState

variable {done : Bytes} {ds : List UInt16} {first prev : UInt16}

section

variable (h : ChainState fs v0 v done ds first prev)

include h

theorem links (hne : ds ≠ []) : Links v.fat fs.IsCluster isEoc first ds := by
  rcases h.ends with ⟨hnil, -⟩ | ⟨es, rfl, hp, he⟩
  · exact absurd hnil hne
  · exact ⟨v.fat prev, he, hp.append ⟨rfl, (h.fresh prev (by simp)).1, rfl⟩⟩

theorem first_eq : ds.headD 0 = first := by
  by_cases hne : ds = []
  · rcases h.ends with ⟨-, h0, -⟩ | ⟨es, rfl, -⟩
    · rw [hne, h0]
      rfl
    · exact absurd hne (by simp)
  · obtain ⟨x, xs, rfl⟩ := List.exists_cons_of_ne_nil hne
    exact (Links.cons_iff.1 (h.links hne)).1

/-- The clusters written so far are no longer free. -/
theorem fat_ne_free {c : UInt16} (hc : c ∈ ds) : v.fat c ≠ clusterFree := by
  intro hz
  have hl := h.links (List.ne_nil_of_mem hc)
  rcases hl.next_mem hc with hm | he
  · rw [hz] at hm
    exact absurd rfl (h.fresh _ hm).1.ne_zero
  · rw [hz] at he
    cases he

theorem card_le : ds.length ≤ (v0.freeSet fs).card := by
  rw [← List.toFinset_card_of_nodup h.nodup]
  refine Finset.card_le_card (fun c hc => ?_)
  exact Vol.mem_freeSet.2 (h.fresh c (List.mem_toFinset.1 hc))

/-- When nothing is free any more, every cluster that was free has been taken. -/
theorem card_eq (hfull : ∀ x, fs.IsCluster x → v.fat x ≠ clusterFree) : ds.length = (v0.freeSet fs).card := by
  refine le_antisymm h.card_le ?_
  rw [← List.toFinset_card_of_nodup h.nodup]
  refine Finset.card_le_card (fun c hc => ?_)
  obtain ⟨hcl, hz⟩ := Vol.mem_freeSet.1 hc
  by_contra hno
  have hnd : c ∉ ds := fun hm => hno (List.mem_toFinset.2 hm)
  exact hfull c hcl (by rw [h.fat c hnd, hz])

/-- Freeing what was written gives back the FAT of the start. -/
theorem free_fat : (v.free ds).fat = v0.fat := by
  funext x
  unfold Vol.free
  simp only
  split_ifs with hx
  · rw [(h.fresh x hx).2]
  · exact h.fat x hx

theorem links_of_first (hfirst : first ≠ 0) : Links v.fat fs.IsCluster isEoc first ds := by
  refine h.links (fun hnil => hfirst ?_)
  rw [← h.first_eq, hnil]
  rfl

theorem nil_of_first (hfirst : first = 0) : ds = [] := by
  by_contra hne
  exact (h.fresh first ((h.links hne).mem_self hne)).1.ne_zero hfirst

end

end ChainState

/-- The volume after `cluster_alloc` gave `c` and the cluster before it was linked to it. -/
def Vol.linkNew (v : Vol) (prev c : UInt16) : Vol :=
  if prev ≠ 0 then (v.setFat c clusterEoc).setFat prev c else v.setFat c clusterEoc

theorem Vol.linkNew_heap (v : Vol) (prev c : UInt16) : (v.linkNew prev c).heap = v.heap := by
  unfold Vol.linkNew
  split_ifs <;> rfl

theorem Vol.linkNew_area (v : Vol) (prev c : UInt16) : (v.linkNew prev c).area = v.area := by
  unfold Vol.linkNew
  split_ifs <;> rfl

theorem Vol.linkNew_fat_of_ne (v : Vol) {x : UInt16} (hp : x ≠ prev) (hc : x ≠ c) :
    (v.linkNew prev c).fat x = v.fat x := by
  unfold Vol.linkNew
  split_ifs <;> simp [Function.update_of_ne hp, Function.update_of_ne hc]

theorem Vol.linkNew_fat_new (v : Vol) (hne : prev ≠ c) : (v.linkNew prev c).fat c = clusterEoc := by
  unfold Vol.linkNew
  split_ifs <;> simp [Function.update_of_ne hne.symm]

/-- The cluster image `chain_write` fills: the bytes of the chunk, then zeros. -/
def clusterImage (fs : Fs) (chunk : Bytes) : Bytes :=
  chunk ++ List.replicate (fs.clusterBytes - chunk.length) 0

theorem clusterImage_length {chunk : Bytes} (h : chunk.length ≤ fs.clusterBytes) :
    (clusterImage fs chunk).length = fs.clusterBytes := by
  rw [clusterImage, List.length_append, List.length_replicate]
  omega

theorem Vol.clusterData_setArea {data : Bytes} (h : data.length = fs.clusterBytes) :
    (v.setArea c (toSector data)).clusterData fs c = data := by
  unfold Vol.clusterData
  refine List.ext_getElem (by simp [h]) (fun i h1 h2 => ?_)
  simp [toSector, List.getD_eq_getElem?_getD, List.getElem?_eq_getElem h2]

/-- One round of the loop of `chain_write`. -/
theorem ChainState.step {chunk : Bytes} {first : UInt16} (h : ChainState fs v0 v done ds first prev)
    (hfull : done.length = ds.length * fs.clusterBytes) (hc : fs.IsCluster c)
    (hfree : v.fat c = clusterFree) (hpos : 0 < chunk.length)
    (hle : chunk.length ≤ fs.clusterBytes) :
    ChainState fs v0 ((v.linkNew prev c).setArea c (toSector (clusterImage fs chunk)))
      (done ++ chunk) (ds ++ [c]) (if first = 0 then c else first) c := by
  have hcds : c ∉ ds := fun hm => h.fat_ne_free hm hfree
  have hlast : ∀ x ∈ ds, x ≠ c := fun x hx hxc => hcds (by rw [← hxc]; exact hx)
  have hprev : prev ≠ c := by
    rcases h.ends with ⟨-, -, rfl⟩ | ⟨es, rfl, -⟩
    · exact hc.ne_zero.symm
    · exact hlast prev (by simp)
  refine ⟨?_, ?_, ?_, ?_, ?_, ?_, ?_, ?_, ?_⟩
  · rw [List.length_append, List.length_append, hfull, Fs.clustersFor_add hpos hle]
    rfl
  · intro x hx
    rcases List.mem_append.1 hx with hx | hx
    · exact h.fresh x hx
    · obtain rfl := List.mem_singleton.1 hx
      exact ⟨hc, by rw [← h.fat x hcds, hfree]⟩
  · exact List.nodup_append.2 ⟨h.nodup, List.nodup_singleton c, fun x hx y hy => by
      rw [List.mem_singleton.1 hy]
      exact hlast x hx⟩
  · refine Or.inr ⟨ds, rfl, ?_, ?_⟩
    · rcases h.ends with ⟨rfl, rfl, -⟩ | ⟨es, rfl, hp, -⟩
      · rfl
      · -- the chain so far is longer by its last cluster, which now points to `c`
        have hpc : fs.IsCluster prev := (h.fresh prev (by simp)).1
        have hfirst : first ≠ 0 := by
          have := (h.links (by simp)).mem_self (by simp)
          exact (h.fresh first this).1.ne_zero
        have hpes : prev ∉ es := by
          intro hm
          exact (List.nodup_append.1 h.nodup).2.2 prev hm prev (by simp) rfl
        rw [if_neg hfirst]
        refine (hp.congr (fun x hx => ?_)).append ⟨rfl, hpc, ?_⟩
        · exact Vol.linkNew_fat_of_ne v (fun hxp => hpes (by rw [← hxp]; exact hx))
            (hlast x (by simp [hx]))
        · simp [Linked.Path, Vol.linkNew, hpc.ne_zero]
    · rw [Vol.setArea_fat, Vol.linkNew_fat_new v hprev]
      decide
  · intro x hx
    simp only [List.mem_append, List.mem_singleton, not_or] at hx
    rw [Vol.setArea_fat, ← h.fat x hx.1]
    rcases h.ends with ⟨-, -, rfl⟩ | ⟨es, rfl, -⟩
    · simp [Vol.linkNew, Function.update_of_ne hx.2]
    · exact Vol.linkNew_fat_of_ne v (fun hxp => hx.1 (by simp [hxp])) hx.2
  · intro x hx
    simp only [List.mem_append, List.mem_singleton, not_or] at hx
    rw [Vol.setArea_area_of_ne _ _ hx.2, Vol.linkNew_area, h.area x hx.1]
  · have hsame : ((v.linkNew prev c).setArea c (toSector (clusterImage fs chunk))).chainData fs ds
        = v.chainData fs ds := by
      refine Vol.chainData_congr (fun x hx => ?_)
      rw [Vol.setArea_area_of_ne _ _ (hlast x hx), Vol.linkNew_area]
    have hdone : v.chainData fs ds = done := by
      have hd := h.data
      rwa [List.take_of_length_le (by rw [Vol.chainData_length, hfull])] at hd
    rw [Vol.chainData_append, hsame, hdone, List.length_append, List.take_append,
      List.take_of_length_le (Nat.le_add_right _ _), Nat.add_sub_cancel_left]
    congr 1
    rw [Vol.chainData, List.flatMap_singleton,
      Vol.clusterData_setArea (clusterImage_length hle), clusterImage, List.take_left']
    rfl
  · have : (v.linkNew prev c).cwd = v.cwd := by unfold Vol.linkNew; split_ifs <;> rfl
    exact this.trans h.cwd
  · have : (v.linkNew prev c).cwdPath = v.cwdPath := by unfold Vol.linkNew; split_ifs <;> rfl
    exact this.trans h.cwdPath

/-- While bytes are left, the clusters written so far are full. -/
theorem full_step (hdone : done.length = ds.length * fs.clusterBytes)
    (hne : rest.drop fs.clusterBytes ≠ []) :
    (done ++ rest.take fs.clusterBytes).length = (ds ++ [c]).length * fs.clusterBytes := by
  have hlt : fs.clusterBytes < rest.length := by
    by_contra hge
    exact hne (List.drop_eq_nil_of_le (not_lt.1 hge))
  rw [List.length_append, List.length_append, hdone, List.length_take,
    Nat.min_eq_left (le_of_lt hlt), List.length_singleton, Nat.add_mul, Nat.one_mul]

/-- The result of the loop of `chain_write` from a state in which it has written `done`. -/
def ChainResult (fs : Fs) (v0 v' : Vol) (data : Bytes) (first : UInt16) : Prop :=
  (fs.clustersFor data.length ≤ (v0.freeSet fs).card ∧
    ∃ ds prev, ChainState fs v0 v' data ds first prev) ∨
  ((v0.freeSet fs).card < fs.clustersFor data.length ∧ first = 0 ∧ v'.fat = v0.fat ∧
    (∀ c, c ∉ v0.freeSet fs → v'.area c = v0.area c) ∧ v'.cwd = v0.cwd ∧ v'.cwdPath = v0.cwdPath)

/-- The exit of `chain_write`: the chain from `first` on is freed. -/
theorem chainWriteFail_free (hs : fs.Sane ps) {es : List UInt16} {first : UInt16}
    (hl : v.heap = some l) (hb : b ∈ usedOf l)
    (hlinks : first ≠ 0 → Links v.fat fs.IsCluster isEoc first es) (hnil : first = 0 → es = []) :
    fs.Yields (chainWriteFail fs (b.addr + blockHeader) first) v 0
      { v.free es with heap := some (coalesce blockHeader (release b.addr l)) } := by
  have hl' : (v.free es).heap = some l := hl
  unfold chainWriteFail
  refine Fs.Yields.when (v.free es) (fun hfirst => chainFree_yields hs (hlinks hfirst))
    (fun hfirst => ?_) ((kfree_yields hl' hb).bind (Fs.Yields.pure _))
  rw [hnil (not_not.1 hfirst)]
  simp [Vol.free]

/-- The exit of `chain_write` when no cluster is free: what was written is freed again. -/
theorem chainWriteFail_yields (hs : fs.Sane ps) {first : UInt16} (hl : v.heap = some l)
    (hb : b ∈ usedOf l) (h : ChainState fs v0 v done ds first prev)
    (hfull : done.length = ds.length * fs.clusterBytes) (hrest : rest ≠ [])
    (hnone : ∀ x, fs.IsCluster x → v.fat x ≠ clusterFree) :
    ∃ v', fs.Yields (chainWriteFail fs (b.addr + blockHeader) first) v 0 v' ∧
      v'.heap = some (coalesce blockHeader (release b.addr l)) ∧
      ChainResult fs v0 v' (done ++ rest) 0 ∧ v'.fat = v0.fat := by
  have hcard : (v0.freeSet fs).card < fs.clustersFor (done ++ rest).length := by
    rw [← h.card_eq hnone]
    exact Fs.lt_clustersFor hs hfull hrest
  have harea : ∀ c, c ∉ v0.freeSet fs → v.area c = v0.area c := by
    intro c hc
    exact h.area c (fun hm => hc (Vol.mem_freeSet.2 (h.fresh c hm)))
  exact ⟨_, chainWriteFail_free hs hl hb h.links_of_first h.nil_of_first, rfl,
    Or.inr ⟨hcard, rfl, h.free_fat, harea, h.cwd, h.cwdPath⟩, h.free_fat⟩

theorem Vol.Marked.setFat (hm : v0.Marked fs v) (c : UInt16) {x : UInt16}
    (hx : x = clusterEoc ∨ fs.IsCluster x) : v0.Marked fs (v.setFat c x) := by
  intro y
  by_cases hyc : y = c
  · subst hyc
    right
    simpa using hx
  · have hsame : (v.setFat c x).fat y = v.fat y := Function.update_of_ne hyc ..
    rw [hsame]
    exact hm y

theorem Vol.Marked.linkNew (hm : v0.Marked fs v) (prev : UInt16) (hc : fs.IsCluster c) :
    v0.Marked fs (v.linkNew prev c) := by
  have hnew := hm.setFat c (Or.inl rfl)
  unfold Vol.linkNew
  split_ifs with hp
  · exact hnew.setFat prev (Or.inr hc)
  · exact hnew

theorem chainWriteLoop_yields (hs : fs.Sane ps) (fuel : ℕ) {first : UInt16} (hl : v.heap = some l)
    (hb : b ∈ usedOf l) (hsize : fs.clusterBytes ≤ b.size)
    (h : ChainState fs v0 v done ds first prev) (hm : v0.Marked fs v)
    (hfull : rest ≠ [] → done.length = ds.length * fs.clusterBytes) (hfuel : rest.length < fuel) :
    ∃ first' v', fs.Yields (chainWriteLoop fs (b.addr + blockHeader) fuel rest first prev) v
        first' v' ∧ v'.heap = some (coalesce blockHeader (release b.addr l)) ∧
      ChainResult fs v0 v' (done ++ rest) first' ∧ v0.Marked fs v' := by
  induction fuel generalizing v done rest ds first prev with
  | zero => exact absurd hfuel (by omega)
  | succ fuel ih =>
    rw [chainWriteLoop]
    simp only [hs.clusterBytes_eq]
    by_cases hrest : rest = []
    · subst hrest
      rw [if_pos rfl, List.append_nil]
      refine ⟨first, _, (kfree_yields hl hb).bind (Fs.Yields.pure _), rfl,
        Or.inl ⟨?_, ds, prev, ?_⟩, hm⟩
      · rw [← h.length]
        exact h.card_le
      · exact ⟨h.length, h.fresh, h.nodup, h.ends, h.fat, h.area, h.data, h.cwd, h.cwdPath⟩
    · have hdone := hfull hrest
      rw [if_neg hrest]
      rcases clusterAlloc_yields (v := v) hs with ⟨c, hc, hfree, halloc⟩ | ⟨hnone, halloc⟩
      · -- a cluster was found: link it, fill it, go on
        have hcb := hs.clusterBytes_pos
        have hrl := List.length_pos_of_ne_nil hrest
        have hpos : 0 < (rest.take fs.clusterBytes).length := by
          rw [List.length_take]
          omega
        have hchunk : (rest.take fs.clusterBytes).length ≤ fs.clusterBytes :=
          List.length_take_le ..
        have hstep := h.step hdone hc hfree hpos hchunk
        have hl' : (v.linkNew prev c).heap = some l := (v.linkNew_heap prev c).trans hl
        have hl'' : ((v.linkNew prev c).setArea c
            (toSector (clusterImage fs (rest.take fs.clusterBytes)))).heap = some l := hl'
        obtain ⟨first', v', hy, hheap, hres, hm'⟩ := ih hl'' hstep (hm.linkNew prev hc)
          (full_step hdone) (by rw [List.length_drop]; omega)
        rw [List.append_assoc, List.take_append_drop] at hres
        refine ⟨first', v', halloc.bind ?_, hheap, hres, hm'⟩
        have hlink : fs.Yields (if prev ≠ 0 then fatSet fs prev c else pure true)
            (v.setFat c clusterEoc) true (v.linkNew prev c) := by
          unfold Vol.linkNew
          rcases h.ends with ⟨-, -, rfl⟩ | ⟨es, rfl, -⟩
          · rw [if_neg (by simp), if_neg (by simp)]
            exact Fs.Yields.pure _
          · have hpc : fs.IsCluster prev := (h.fresh prev (by simp)).1
            rw [if_pos hpc.ne_zero, if_pos hpc.ne_zero]
            exact fatSet_yields hs hpc.2 c
        rw [if_neg hc.ne_zero]
        refine hlink.bind ?_
        rw [if_neg (by simp)]
        refine (heapStore_yields hl' hb (by omega)).bind ?_
        refine (ataWriteFrom_yields hs hc (clusterImage_length hchunk)).bind ?_
        rw [if_pos rfl]
        exact hy
      · obtain ⟨v', hy, hheap, hres, hfat⟩ := chainWriteFail_yields hs hl hb h hdone hrest hnone
        refine ⟨0, v', halloc.bind ?_, hheap, hres, fun c => Or.inl (by rw [hfat])⟩
        rw [if_pos rfl]
        exact hy

theorem alignUp_clusterBytes (hs : fs.Sane ps) : alignUp fs.clusterBytes = fs.clusterBytes := by
  have := hs.spcLe
  unfold alignUp Fs.clusterBytes sectorSize
  rw [w32_eq (by omega)]
  omega

theorem ChainState.init (hs : fs.Sane ps) {heap : Option (List Blk)} :
    ChainState fs v { v with heap := heap } [] [] 0 0 :=
  ⟨(Fs.clustersFor_zero hs).symm, fun _ hc => absurd hc (by simp), List.nodup_nil,
    Or.inl ⟨rfl, rfl, rfl⟩, fun _ _ => rfl, fun _ _ => rfl, rfl, rfl, rfl⟩

/-- `chain_write` writes the data to a fresh chain, or changes nothing that is in use. -/
theorem chainWrite_yields (hs : fs.Sane ps) (hl : v.heap = some l) (hok : BlockList l)
    {data : Bytes} (hlen : data.length < 2 ^ 32) :
    ((data = [] ∨ v.Fits fs data.length) ∧
      ∃ cs v', fs.Yields (chainWrite fs data) v (cs.headD 0) v' ∧ v.Wrote fs v' data cs ∧
        v.Marked fs v') ∨
    (¬ (data = [] ∨ v.Fits fs data.length) ∧
      ∃ v', fs.Yields (chainWrite fs data) v 0 v' ∧ v.SameUsed fs v') := by
  unfold chainWrite
  by_cases hdata : data = []
  · subst hdata
    refine Or.inl ⟨Or.inl rfl, [], v, ?_, ?_, fun _ => Or.inl rfl⟩
    · rw [if_pos rfl]
      exact Fs.Yields.pure _
    · exact ⟨(Fs.clustersFor_zero hs).symm, fun _ hc => absurd hc (by simp), fun h => absurd rfl h,
        fun _ _ => rfl, fun _ _ => rfl, rfl, rfl, rfl, rfl⟩
  rw [if_neg hdata, hs.clusterBytes_eq]
  by_cases hbuf : (kmallocBlocks fs.clusterBytes l).1 = 0
  · -- no transfer buffer
    refine Or.inr ⟨?_, ?_⟩
    · rintro (h | ⟨⟨l', hl', hne⟩, -⟩)
      · exact hdata h
      · rw [hl] at hl'
        obtain rfl := Option.some.inj hl'
        exact hne hbuf
    · refine ⟨v, (kmalloc_yields hl _).bind ?_, ⟨rfl, fun _ _ => rfl, rfl, rfl, rfl⟩⟩
      rw [if_pos hbuf, kmallocBlocks_null hbuf, ← hl]
      exact Fs.Yields.pure _
  · obtain ⟨b, hb, hptr, hsize, -, hback⟩ := kmallocBlocks_spec hok hbuf
    rw [alignUp_clusterBytes hs] at hsize
    have hinit : ChainState fs v { v with heap := some (kmallocBlocks fs.clusterBytes l).2 }
        [] [] 0 0 := ChainState.init hs
    have hfuel : data.length < writeLoopBound := by
      unfold writeLoopBound
      omega
    obtain ⟨first, v', hy, hheap, hres, hm⟩ := chainWriteLoop_yields hs writeLoopBound rfl hb hsize
      hinit (fun _ => Or.inl rfl) (fun _ => by simp) hfuel
    rw [hback] at hheap
    have hrun : fs.Yields (kmalloc fs.clusterBytes >>= fun buf =>
        if buf = 0 then pure 0 else chainWriteLoop fs buf writeLoopBound data 0 0) v first v' := by
      refine (kmalloc_yields hl _).bind ?_
      rw [if_neg hbuf, hptr]
      exact hy
    rcases hres with ⟨hcard, ds, prev, hst⟩ | ⟨hcard, rfl, hfat, harea, hcwd, hpath⟩
    · refine Or.inl ⟨Or.inr ⟨⟨l, hl, hbuf⟩, hcard⟩, ds, v', ?_, ?_, hm⟩
      · rw [hst.first_eq]
        exact hrun
      · exact ⟨hst.length, hst.fresh, fun hne => by rw [hst.first_eq]; exact hst.links hne, hst.fat,
          hst.area, hst.data, hst.cwd, hst.cwdPath, by rw [hheap, hl]⟩
    · refine Or.inr ⟨?_, v', hrun, hfat, harea, hcwd, hpath, by rw [hheap, hl]⟩
      rintro (h | ⟨-, hle⟩)
      · exact hdata h
      · exact absurd hcard (not_lt.2 hle)

end Write

end OctoOS
