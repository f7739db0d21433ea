import OctoOS.Fat.Preserve
import OctoOS.Fat.Read

set_option autoImplicit false

/-! # Calls that fail

A call that answers -1 without a device error has changed nothing but the bytes of free clusters,
with one exception: `fat_write_file` frees the chain of the file it replaces before it knows
whether the new data fits. -/

namespace OctoOS

open Atomic Tiling Linked

/-- `v'` holds the file system of `v`: every path resolves to the same entry, every file has the
    same bytes, and no entry in use refers to a free cluster. -/
structure Vol.Intact (fs : Fs) (v v' : Vol) : Prop where
  paths : ∀ path, v'.resolvePath fs false path = v.resolvePath fs false path
  files : ∀ s, v.Owner fs s → (v.entry s).isDir = false →
    v'.Owner fs s ∧ v'.entry s = v.entry s ∧
      v'.fileBytes fs (v'.entry s) = v.fileBytes fs (v.entry s)
  clusters : ∀ s, v'.InTree fs s → entryInUse (v'.entry s) = true →
    fs.IsCluster (v'.entry s).clusterLo → v'.fat (v'.entry s).clusterLo ≠ clusterFree

/-- The call replaces a file that has clusters by data that does not fit, counting the clusters of
    the file itself as free. -/
def FatCall.LosesFile (fs : Fs) (v : Vol) : FatCall → Prop
  | .writeFile path data => ∃ d name s, v.parent fs path = some (d, name) ∧
      v.findSlot fs d.clusterLo name = some s ∧ (v.entry s).isDir = false ∧
      2 ≤ (v.entry s).clusterLo ∧ data ≠ [] ∧ ¬ (v.free (v.ownChain fs s)).Fits fs data.length
  | _ => False

section Intact

variable {fs : Fs} {ps : ℕ} {v v' : Vol} {s0 : Slot} {s : Slot} {p : UInt16}

theorem Vol.findSlot_spec {name : Name83} (hf : v.findSlot fs p name = some s) :
    s ∈ v.dirSlots fs p ∧ (v.entry s).name = name := by
  obtain ⟨x, hx, hprobe⟩ := List.exists_of_findSome?_eq_some (Option.join_eq_some_iff.1 hf)
  unfold Vol.probe at hprobe
  split_ifs at hprobe with h0 hin hname
  · cases hprobe
  · obtain rfl := Option.some.inj (Option.some.inj hprobe)
    exact ⟨hx, hname⟩

/-- Lookups depend on the entries of the directory only. -/
theorem Vol.lookup_congr (hslots : v'.dirSlots fs p = v.dirSlots fs p)
    (hentry : ∀ s ∈ v.dirSlots fs p, v'.entry s = v.entry s) (name : Name83) :
    v'.lookup fs p name = v.lookup fs p name := by
  have hfind : v'.findSlot fs p name = v.findSlot fs p name := by
    unfold Vol.findSlot
    rw [hslots]
    congr 1
    generalize v.dirSlots fs p = l at hentry
    induction l with
    | nil => rfl
    | cons s l ih =>
      have hs : v'.probe name s = v.probe name s := by
        unfold Vol.probe
        rw [hentry s (List.mem_cons_self ..)]
      rw [List.findSome?_cons, List.findSome?_cons, hs,
        ih (fun t ht => hentry t (List.mem_cons_of_mem _ ht))]
  unfold Vol.lookup
  rw [hfind]
  split_ifs
  · rfl
  · cases hf : v.findSlot fs p name with
    | none => rfl
    | some s =>
      have hmem : s ∈ v.dirSlots fs p := (Vol.findSlot_spec hf).1
      simp only [Option.map_some, hentry s hmem]

/-- Walks depend on the lookups in live directories only. -/
theorem Vol.walkPath_congr (h : v.Consistent fs)
    (hlook : ∀ p, v.Live fs p → ∀ name, v'.lookup fs p name = v.lookup fs p name)
    {parentOf : Bool} {comps : List Bytes} {d : Dirent} {o : Option Slot} (hm : v.Met fs d o) :
    v'.walkPath fs parentOf comps d o = v.walkPath fs parentOf comps d o := by
  induction comps generalizing d o with
  | nil => rfl
  | cons comp rest ih =>
    rw [Vol.walkPath, Vol.walkPath]
    cases to83 comp with
    | none => rfl
    | some n =>
      simp only
      split_ifs with hlast hdir
      · rfl
      · rfl
      · have hdir' : d.isDir = true := by simpa using hdir
        rw [hlook _ (hm.live h hdir') n]
        cases hl : v.lookup fs d.clusterLo n with
        | none => rfl
        | some r => exact ih (hm.lookup h hdir' hl)

theorem Vol.resolvePath_congr (h : v.Consistent fs) (hc : v.Live fs v.cwd) (hcwd : v'.cwd = v.cwd)
    (hlook : ∀ p, v.Live fs p → ∀ name, v'.lookup fs p name = v.lookup fs p name)
    (parentOf : Bool) (path : Bytes) :
    v'.resolvePath fs parentOf path = v.resolvePath fs parentOf path := by
  unfold Vol.resolvePath
  rw [hcwd]
  exact Vol.walkPath_congr h hlook (Vol.met_start hc path rfl)

/-- On a consistent volume no entry in use refers to a free cluster. -/
theorem Vol.Consistent.cluster_ne_free (h : v.Consistent fs) (ht : v.InTree fs s)
    (hin : entryInUse (v.entry s) = true) (hcl : fs.IsCluster (v.entry s).clusterLo) :
    v.fat (v.entry s).clusterLo ≠ clusterFree := by
  cases hdir : (v.entry s).isDir with
  | false =>
    have hc := h.chains s (h.owner_of_file ht hin hdir) hcl.1
    exact hc.fat_ne_free hc.mem_self
  | true =>
    -- also for `.` and `..`: the directory they lead to is live
    obtain ⟨p, hp, hsp⟩ := ht
    rcases h.dirOk (h.live_of_isDir hp hsp hin hdir) with h0 | hc
    · exact absurd h0 hcl.ne_zero
    · exact hc.fat_ne_free hc.mem_self

/-- The other files keep their bytes. -/
theorem Vol.Edit.fileBytes_eq (he : v.Edit fs v' s0) (hs : fs.Sane ps) (h : v.Consistent fs)
    (ho : v.Owner fs s) (hne : s ≠ s0) (hfile : (v.entry s).isDir = false) :
    v'.fileBytes fs (v.entry s) = v.fileBytes fs (v.entry s) := by
  unfold Vol.fileBytes
  rw [(he.chain_eq hs h ho hne).1]
  congr 1
  exact Vol.chainData_congr (he.area s ho hne hfile)

theorem Vol.SameUsed.refl (v : Vol) : v.SameUsed fs v := ⟨rfl, fun _ _ => rfl, rfl, rfl, rfl⟩

/-- The bytes of free clusters are no part of the file system. -/
theorem Vol.SameUsed.intact (hu : v.SameUsed fs v') (hs : fs.Sane ps) (h : v.Consistent fs)
    (hc : v.Live fs v.cwd) : v.Intact fs v' := by
  have hv := hu.vacated h
  have hne : ∀ {s}, v.InTree fs s → s ≠ noSlot := by
    rintro s ht rfl
    exact Vol.noSlot_not_inTree ht
  have hslots : ∀ p, v'.dirSlots fs p = v.dirSlots fs p := by
    intro p
    refine Vol.dirSlots_congr ?_
    unfold Vol.chain
    rw [hu.fat]
  constructor
  · refine Vol.resolvePath_congr h hc hu.cwd (fun p hp name => ?_) false
    refine Vol.lookup_congr (hslots p) (fun s hsp => ?_) name
    exact hv.edit.entry s ⟨p, hp, hsp⟩ (hne ⟨p, hp, hsp⟩)
  · intro s ho hfile
    have ho' := hv.owner_of_owner hs h (fun ht => absurd ht Vol.noSlot_not_inTree) ho (hne ho.1)
    have hentry := hv.edit.entry s ho.1 (hne ho.1)
    refine ⟨ho', hentry, ?_⟩
    rw [hentry]
    exact hv.edit.fileBytes_eq hs h ho (hne ho.1) hfile
  · intro s ht hin hcl
    exact (hv.consistent hs h).cluster_ne_free ht hin hcl

/-- The directories stay when the entry that changes is no directory, before and after. -/
theorem Vol.Edit.live_of_live (he : v.Edit fs v' s0) (hs : fs.Sane ps) (h : v.Consistent fs)
    (hfile : ¬ v.IsSubDir s0) (hp : v.Live fs p) : v'.Live fs p := by
  induction hp with
  | root => exact Live.root
  | @sub q s hq hsq hsub ih =>
    have hne : s ≠ s0 := by
      rintro rfl
      exact hfile hsub
    have hentry := he.entry s ⟨q, hq, hsq⟩ hne
    rw [← hentry]
    refine Live.sub ih ?_ ?_
    · rw [he.dirSlots_eq hs h hq (fun hd => hfile hd.2.1)]
      exact hsq
    · unfold Vol.IsSubDir at hsub ⊢
      rwa [hentry]

section

variable (hs : fs.Sane ps) (h : v.Consistent fs) (hc : v.Live fs v.cwd)

include hs h hc

theorem Vol.RmOutcome.intact {path : Bytes} (ho : v.RmOutcome fs path (-1) v') : v.Intact fs v' := by
  cases ho <;> exact (Vol.SameUsed.refl v).intact hs h hc

theorem Vol.MkdirOutcome.intact {path : Bytes} (ho : v.MkdirOutcome fs path (-1) v') : v.Intact fs v' := by
  cases ho <;> exact (Vol.SameUsed.refl v).intact hs h hc

end

end Intact

/-- A volume with the file `A` of one byte in cluster 2, two free clusters and a heap of 4 KiB. -/
def oneCluster : FatState :=
  { smallState [0xFFF8, 0xFFFF, 0xFFFF]
      [{ Dirent.zero with name := name83 [0x41] [], clusterLo := 2, size := 1 }] [] with
    heap := heapInit smallMap (fun _ => 0) }

theorem oneCluster_wellFormed : (oneCluster.vol smallFs).WellFormed smallFs := by
  have hc : (oneCluster.vol smallFs).Check smallFs [0] := by decide +kernel
  exact hc.wellFormed_root

end OctoOS
