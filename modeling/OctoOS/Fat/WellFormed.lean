import OctoOS.Fat.Alloc

set_option autoImplicit false

/-! # Well-formed volumes

The invariant of the file system. A directory is live when it is reachable from the root through
entries other than `.` and `..`; an owner is such an entry, of a file or a directory, in a live
directory. `Consistent` says that the owners' chains are proper and disjoint, that sizes, names,
end marks and dot entries are right; `WellFormed` adds that no cluster is lost. Everything is
stated through slots, so that an operation that changes one slot and one chain keeps most of it by
the frame lemmas at the end. -/

namespace OctoOS

open Atomic Tiling Linked

def dotName : Name83 := name83 [dot] []
def dotdotName : Name83 := name83 [dot, dot] []

/-- The names `.` and `..`. -/
def IsDotName (n : Name83) : Prop := n = dotName ∨ n = dotdotName
  deriving Decidable

namespace Vol

variable (fs : Fs) (v : Vol)

/-- An in-use entry for a subdirectory. -/
def IsSubDir (s : Slot) : Prop :=
  entryInUse (v.entry s) = true ∧ (v.entry s).isDir = true ∧ ¬ IsDotName (v.entry s).name
  deriving Decidable

/-- The directories reachable from the root. -/
inductive Live : UInt16 → Prop where
  | root : Live 0
  | sub {p : UInt16} {s : Slot} : Live p → s ∈ v.dirSlots fs p → v.IsSubDir s →
      Live (v.entry s).clusterLo

/-- A slot of a live directory. -/
def InTree (s : Slot) : Prop := ∃ p, v.Live fs p ∧ s ∈ v.dirSlots fs p

/-- An in-use entry other than `.` and `..`: it owns its chain. -/
def Owner (s : Slot) : Prop :=
  v.InTree fs s ∧ entryInUse (v.entry s) = true ∧ ¬ IsDotName (v.entry s).name

/-- The chain of the entry in a slot. -/
def ownChain (s : Slot) : List UInt16 := v.chain fs (v.entry s).clusterLo

/-- The directory at `c` has an entry for the directory `target` under the name `name`. -/
def HasDot (c : UInt16) (name : Name83) (target : UInt16) : Prop :=
  ∃ t ∈ v.dirSlots fs c, v.Holds t name ∧ (v.entry t).isDir = true ∧ (v.entry t).clusterLo = target
  deriving Decidable

/-- The part of well-formedness that says nothing about clusters without an owner. -/
structure Consistent : Prop where
  /-- The chains of the owners end. -/
  chains : ∀ s, v.Owner fs s → 2 ≤ (v.entry s).clusterLo.toNat →
    v.HasChain fs (v.entry s).clusterLo
  /-- No cluster lies on two of them. -/
  disjoint : ∀ s t, v.Owner fs s → v.Owner fs t → s ≠ t →
    List.Disjoint (v.ownChain fs s) (v.ownChain fs t)
  /-- An in-use directory entry other than `..` has a chain. -/
  dirCluster : ∀ s, v.InTree fs s → entryInUse (v.entry s) = true → (v.entry s).isDir = true →
    (v.entry s).name ≠ dotdotName → 2 ≤ (v.entry s).clusterLo.toNat
  /-- A file has as many clusters as its size needs. -/
  files : ∀ s, v.Owner fs s → (v.entry s).isDir = false →
    (v.ownChain fs s).length = fs.clustersFor (v.entry s).size.toNat ∧
      ((v.entry s).size = 0 → (v.entry s).clusterLo = 0)
  /-- Names are unique within a directory. -/
  names : ∀ p, v.Live fs p → ∀ s ∈ v.dirSlots fs p, ∀ t ∈ v.dirSlots fs p, ∀ name,
    v.Holds s name → v.Holds t name → s = t
  /-- Behind the first 0x00 entry there are only such entries. -/
  ended : ∀ p, v.Live fs p → v.Ended (v.dirSlots fs p)
  /-- The root has neither `.` nor `..`. -/
  rootDots : ∀ s ∈ v.dirSlots fs 0, entryInUse (v.entry s) = true → ¬ IsDotName (v.entry s).name
  /-- In a subdirectory `.` is the directory itself and `..` its parent. -/
  dots : ∀ p, v.Live fs p → ∀ s ∈ v.dirSlots fs p, v.IsSubDir s →
    v.HasDot fs (v.entry s).clusterLo dotName (v.entry s).clusterLo ∧
      v.HasDot fs (v.entry s).clusterLo dotdotName p

/-- `CLUSTER_BAD`, the mark of an unusable cluster. -/
def clusterBad : UInt16 := 0xFFF7

/-- A well-formed volume. -/
structure WellFormed : Prop extends Consistent fs v where
  /-- A cluster on no chain is free or bad. -/
  unowned : ∀ c, fs.IsCluster c → (∀ s, v.Owner fs s → c ∉ v.ownChain fs s) →
    v.fat c = clusterFree ∨ v.fat c = clusterBad

/-- No name but `.` and `..` starts with a dot. -/
def NoDotNames : Prop :=
  ∀ s, v.InTree fs s → entryInUse (v.entry s) = true → (v.entry s).name.first = dot →
    IsDotName (v.entry s).name

end Vol

section Basic

variable {fs : Fs} {ps : ℕ} {v : Vol}

theorem dotName_ne_dotdotName : dotName ≠ dotdotName := by decide

theorem IsDotName.head {n : Name83} (h : IsDotName n) : n.first = dot := by
  rcases h with rfl | rfl <;> decide

theorem Vol.IsSubDir.owner {s : Slot} (h : v.IsSubDir s) (hin : v.InTree fs s) : v.Owner fs s :=
  ⟨hin, h.1, h.2.2⟩

namespace Vol.Consistent

theorem hasChain (h : v.Consistent fs) {s : Slot} (hin : v.InTree fs s) (hs : v.IsSubDir s) :
    v.HasChain fs (v.entry s).clusterLo :=
  h.chains s (hs.owner hin) (h.dirCluster s hin hs.1 hs.2.1 (fun hn => hs.2.2 (Or.inr hn)))

/-- The entry through which a live directory is reached. -/
theorem exists_owner {p : UInt16} (hp : v.Live fs p) (hne : p ≠ 0) :
    ∃ q s, v.Live fs q ∧ s ∈ v.dirSlots fs q ∧ v.IsSubDir s ∧ (v.entry s).clusterLo = p := by
  cases hp with
  | root => exact absurd rfl hne
  | sub hq hs hsub => exact ⟨_, _, hq, hs, hsub, rfl⟩

section

variable (h : v.Consistent fs) {s : Slot} {p : UInt16}

include h

theorem dirOk (hp : v.Live fs p) : v.DirOk fs p := by
  cases hp with
  | root => exact Or.inl rfl
  | sub hq hs hsub => exact Or.inr (h.hasChain ⟨_, hq, hs⟩ hsub)

/-- Owners with a common cluster are the same. -/
theorem owner_unique {t : Slot} (hs : v.Owner fs s) (ht : v.Owner fs t) {c : UInt16}
    (hcs : c ∈ v.ownChain fs s) (hct : c ∈ v.ownChain fs t) : s = t := by
  by_contra hne
  exact h.disjoint s t hs ht hne hcs hct

/-- A live directory other than the root has one owner. -/
theorem sub_unique {t : Slot} (hs : v.InTree fs s) (ht : v.InTree fs t) (hss : v.IsSubDir s)
    (hst : v.IsSubDir t) (heq : (v.entry s).clusterLo = (v.entry t).clusterLo) : s = t := by
  refine h.owner_unique (hss.owner hs) (hst.owner ht) (h.hasChain hs hss).mem_self ?_
  rw [heq]
  exact (h.hasChain ht hst).mem_self

/-- A slot lies in one live directory only. -/
theorem dir_unique {q : UInt16} (hp : v.Live fs p) (hq : v.Live fs q) (hsp : s ∈ v.dirSlots fs p)
    (hsq : s ∈ v.dirSlots fs q) : p = q := by
  obtain ⟨-, ⟨rfl, ha⟩ | ⟨hp0, hcp⟩⟩ := Vol.mem_dirSlots.1 hsp
  · obtain ⟨-, ⟨rfl, -⟩ | ⟨-, hcq⟩⟩ := Vol.mem_dirSlots.1 hsq
    · rfl
    · rw [ha] at hcq
      exact absurd rfl (Vol.isCluster_of_mem_chain hcq).ne_zero
  · obtain ⟨-, ⟨-, ha⟩ | ⟨hq0, hcq⟩⟩ := Vol.mem_dirSlots.1 hsq
    · rw [ha] at hcp
      exact absurd rfl (Vol.isCluster_of_mem_chain hcp).ne_zero
    · obtain ⟨p', t, hp', ht, hts, rfl⟩ := exists_owner hp hp0
      obtain ⟨q', u, hq', hu, hus, rfl⟩ := exists_owner hq hq0
      rw [h.owner_unique (hts.owner ⟨p', hp', ht⟩) (hus.owner ⟨q', hq', hu⟩) hcp hcq]

theorem findSlot_iff (hp : v.Live fs p) {name : Name83} :
    v.findSlot fs p name = some s ↔ s ∈ v.dirSlots fs p ∧ v.Holds s name :=
  Vol.findSlot_eq_some_iff (h.ended p hp) (fun s hs t ht => h.names p hp s hs t ht name)

/-- A name that is not found is held by no slot. -/
theorem not_holds_of_findSlot {p : UInt16} (hp : v.Live fs p) {name : Name83}
    (hnone : v.findSlot fs p name = none) {s : Slot} (hs : s ∈ v.dirSlots fs p) :
    ¬ v.Holds s name := by
  intro hh
  have := (h.findSlot_iff hp).2 ⟨hs, hh⟩
  rw [hnone] at this
  cases this

/-- Every directory entry in a live directory leads to a live directory. -/
theorem live_of_isDir (hp : v.Live fs p) (hs : s ∈ v.dirSlots fs p)
    (hin : entryInUse (v.entry s) = true) (hdir : (v.entry s).isDir = true) :
    v.Live fs (v.entry s).clusterLo := by
  by_cases hdot : IsDotName (v.entry s).name
  · by_cases hp0 : p = 0
    · subst hp0
      exact absurd hdot (h.rootDots s hs hin)
    · obtain ⟨q, t, hq, ht, hsub, rfl⟩ := exists_owner hp hp0
      obtain ⟨⟨d, hd, hdh, -, hdc⟩, ⟨e, he, heh, -, hec⟩⟩ := h.dots q hq t ht hsub
      rcases hdot with hn | hn
      · rw [h.names _ hp s hs d hd dotName ⟨hin, hn⟩ hdh, hdc]
        exact hp
      · rw [h.names _ hp s hs e he dotdotName ⟨hin, hn⟩ heh, hec]
        exact hq
  · exact Live.sub hp hs ⟨hin, hdir, hdot⟩

/-- A lookup in a live directory that answers with a directory answers with a live one. -/
theorem live_of_lookup (hp : v.Live fs p) {name : Name83} {d : Dirent} {o : Option Slot}
    (hl : v.lookup fs p name = some (d, o)) (hdir : d.isDir = true) : v.Live fs d.clusterLo := by
  unfold Vol.lookup at hl
  split_ifs at hl with h0
  · cases hl
    exact Live.root
  · obtain ⟨s, hs, heq⟩ := Option.map_eq_some_iff.1 hl
    cases heq
    obtain ⟨hmem, hin, -⟩ := (h.findSlot_iff hp).1 hs
    exact h.live_of_isDir hp hmem hin hdir

/-- The clusters of an owner are not free. -/
theorem ownChain_ne_free (hs : v.Owner fs s) {c : UInt16} (hc : c ∈ v.ownChain fs s) :
    v.fat c ≠ clusterFree := by
  by_cases h2 : 2 ≤ (v.entry s).clusterLo.toNat
  · exact (h.chains s hs h2).fat_ne_free hc
  · have hnil : v.ownChain fs s = [] := Vol.chain_of_not_isCluster (fun hcl => h2 hcl.1)
    rw [hnil] at hc
    cases hc

end

end Vol.Consistent

end Basic

end OctoOS
