import OctoOS.Fat.Calls
import Mathlib.Tactic.MkIffOfInductiveProp

set_option autoImplicit false

/-! # Checking a volume by evaluation

Liveness quantifies over paths from the root. On a volume whose live directories lie in a known
list everything else is a question about the used slots of these directories, which can be
evaluated; `Vol.wellFormed_of_check` turns the answers into well-formedness. -/

namespace OctoOS

open Atomic Tiling Linked

/-- The used slots of a directory. -/
def Vol.usedSlots (fs : Fs) (v : Vol) (p : UInt16) : List Slot :=
  (v.dirSlots fs p).filter (fun s => entryInUse (v.entry s))

/-- The entries of the given directories that own a chain. -/
def Vol.owners (fs : Fs) (v : Vol) (dirs : List UInt16) : List Slot :=
  (dirs.flatMap (v.usedSlots fs)).filter (fun s => ¬ IsDotName (v.entry s).name)

/-- The subdirectories of the given directories are among them. -/
def Vol.Closed (fs : Fs) (v : Vol) (dirs : List UInt16) : Prop :=
  0 ∈ dirs ∧ ∀ s ∈ v.owners fs dirs, (v.entry s).isDir = true → (v.entry s).clusterLo ∈ dirs
  deriving Decidable

/-- Well-formedness of a volume with the directories `dirs`, as questions about lists. -/
@[mk_iff]
structure Vol.Check (fs : Fs) (v : Vol) (dirs : List UInt16) : Prop where
  closed : v.Closed fs dirs
  chains : ∀ s ∈ v.owners fs dirs, 2 ≤ (v.entry s).clusterLo.toNat →
    v.HasChain fs (v.entry s).clusterLo
  disjoint : ∀ s ∈ v.owners fs dirs, ∀ t ∈ v.owners fs dirs, s ≠ t →
    ∀ c ∈ v.ownChain fs s, c ∉ v.ownChain fs t
  dirCluster : ∀ s ∈ dirs.flatMap (v.usedSlots fs), (v.entry s).isDir = true →
    (v.entry s).name ≠ dotdotName → 2 ≤ (v.entry s).clusterLo.toNat
  files : ∀ s ∈ v.owners fs dirs, (v.entry s).isDir = false →
    (v.ownChain fs s).length = fs.clustersFor (v.entry s).size.toNat ∧
      ((v.entry s).size = 0 → (v.entry s).clusterLo = 0)
  names : ∀ p ∈ dirs, ∀ s ∈ v.usedSlots fs p, ∀ t ∈ v.usedSlots fs p,
    (v.entry s).name = (v.entry t).name → s = t
  ended : ∀ p ∈ dirs, v.Ended (v.dirSlots fs p)
  rootDots : ∀ s ∈ v.usedSlots fs 0, ¬ IsDotName (v.entry s).name
  dots : ∀ p ∈ dirs, ∀ s ∈ v.usedSlots fs p, v.IsSubDir s →
    v.HasDot fs (v.entry s).clusterLo dotName (v.entry s).clusterLo ∧
      v.HasDot fs (v.entry s).clusterLo dotdotName p
  unowned : ∀ n ∈ List.range (fs.maxCluster + 1), fs.IsCluster (UInt16.ofNat n) →
    (∀ s ∈ v.owners fs dirs, UInt16.ofNat n ∉ v.ownChain fs s) →
    v.fat (UInt16.ofNat n) = clusterFree ∨ v.fat (UInt16.ofNat n) = Vol.clusterBad

-- one question, so that the entries are read once
set_option synthInstance.maxSize 512 in
instance (fs : Fs) (v : Vol) (dirs : List UInt16) : Decidable (v.Check fs dirs) :=
  decidable_of_iff' _ (Vol.check_iff fs v dirs)

section Check

variable {fs : Fs} {v : Vol} {dirs : List UInt16} {s : Slot} {p : UInt16}

theorem Vol.mem_usedSlots :
    s ∈ v.usedSlots fs p ↔ s ∈ v.dirSlots fs p ∧ entryInUse (v.entry s) = true := by
  simp [Vol.usedSlots]

theorem Vol.mem_owners :
    s ∈ v.owners fs dirs ↔
    (∃ p ∈ dirs, s ∈ v.dirSlots fs p) ∧ entryInUse (v.entry s) = true ∧
      ¬ IsDotName (v.entry s).name := by
  simp only [Vol.owners, List.mem_filter, List.mem_flatMap, Vol.mem_usedSlots, decide_eq_true_eq]
  constructor
  · rintro ⟨⟨p, hp, hmem, hin⟩, hdot⟩
    exact ⟨⟨p, hp, hmem⟩, hin, hdot⟩
  · rintro ⟨⟨p, hp, hmem⟩, hin, hdot⟩
    exact ⟨⟨p, hp, hmem, hin⟩, hdot⟩

theorem Vol.Closed.mem_of_live (h : v.Closed fs dirs) (hp : v.Live fs p) : p ∈ dirs := by
  induction hp with
  | root => exact h.1
  | @sub q s _ hsq hsub ih =>
    exact h.2 s (Vol.mem_owners.2 ⟨⟨q, ih, hsq⟩, hsub.1, hsub.2.2⟩) hsub.2.1

theorem Vol.Closed.mem_owners_of_owner (h : v.Closed fs dirs) (ho : v.Owner fs s) :
    s ∈ v.owners fs dirs := by
  obtain ⟨⟨p, hp, hsp⟩, hin, hdot⟩ := ho
  exact Vol.mem_owners.2 ⟨⟨p, h.mem_of_live hp, hsp⟩, hin, hdot⟩

theorem Vol.Check.consistent (h : v.Check fs dirs) : v.Consistent fs where
  chains s ho := h.chains s (h.closed.mem_owners_of_owner ho)
  disjoint s t ho hot hne c hc hct :=
    h.disjoint s (h.closed.mem_owners_of_owner ho) t (h.closed.mem_owners_of_owner hot) hne c hc hct
  dirCluster s ht hin := by
    obtain ⟨p, hp, hsp⟩ := ht
    exact h.dirCluster s (List.mem_flatMap.2 ⟨p, h.closed.mem_of_live hp,
      Vol.mem_usedSlots.2 ⟨hsp, hin⟩⟩)
  files s ho := h.files s (h.closed.mem_owners_of_owner ho)
  names p hp s hsp t htp name hhs hht :=
    h.names p (h.closed.mem_of_live hp) s (Vol.mem_usedSlots.2 ⟨hsp, hhs.1⟩) t
      (Vol.mem_usedSlots.2 ⟨htp, hht.1⟩) (hhs.2.trans hht.2.symm)
  ended p hp := h.ended p (h.closed.mem_of_live hp)
  rootDots s hsr hin := h.rootDots s (Vol.mem_usedSlots.2 ⟨hsr, hin⟩)
  dots p hp s hsp hsub :=
    h.dots p (h.closed.mem_of_live hp) s (Vol.mem_usedSlots.2 ⟨hsp, hsub.1⟩) hsub

theorem Vol.Closed.noDotNames (h : v.Closed fs dirs)
    (hn : ∀ p ∈ dirs, ∀ s ∈ v.usedSlots fs p, (v.entry s).name.first = dot → IsDotName (v.entry s).name) :
    v.NoDotNames fs := by
  rintro s ⟨p, hp, hsp⟩ hin
  exact hn p (h.mem_of_live hp) s (Vol.mem_usedSlots.2 ⟨hsp, hin⟩)

/-- The answers decide well-formedness when every listed directory is live. -/
theorem Vol.Check.wellFormed (h : v.Check fs dirs) (hlive : ∀ p ∈ dirs, v.Live fs p) :
    v.WellFormed fs where
  toConsistent := h.consistent
  unowned c hc hno := by
    have hcn : UInt16.ofNat c.toNat = c := UInt16.ofNat_toNat
    have hu := h.unowned c.toNat (List.mem_range.2 (by have := hc.2; omega))
    rw [hcn] at hu
    refine hu hc (fun s hs => hno s ?_)
    obtain ⟨⟨p, hp, hsp⟩, hin, hdot⟩ := Vol.mem_owners.1 hs
    exact ⟨⟨p, hlive p hp, hsp⟩, hin, hdot⟩

theorem Vol.Check.wellFormed_root (h : v.Check fs [0]) : v.WellFormed fs := by
  refine h.wellFormed (fun p hp => ?_)
  obtain rfl := List.mem_singleton.1 hp
  exact Vol.Live.root

theorem Vol.Check.wellFormed_sub (h : v.Check fs [0, p]) (hlive : v.Live fs p) :
    v.WellFormed fs := by
  refine h.wellFormed (fun q hq => ?_)
  rcases List.mem_cons.1 hq with rfl | hq
  · exact Vol.Live.root
  · obtain rfl := List.mem_singleton.1 hq
    exact hlive

end Check

/-! ## A small volume

Two copies of a FAT of one sector, a root directory of one sector and three clusters of one
sector. -/

/-- The geometry of the small volume. -/
def smallFs : Fs where
  mounted := true
  partLba := 1
  fatLba := 2
  fatSectors := 1
  numFats := 2
  rootLba := 4
  rootSectors := 1
  dataLba := 5
  rootEntries := 16
  sectorsPerCluster := 1
  maxCluster := 4

theorem smallFs_sane : smallFs.Sane 7 := by
  constructor <;> decide

/-- A sector of directory entries. -/
def entrySector (ds : List Dirent) : Sector := fun i => (ds.getD (i / 32) Dirent.zero).byte (i % 32)

/-- A sector of FAT entries. -/
def fatSector (l : List UInt16) : Sector := fun i => leByte (l.getD (i / 2) 0).toNat (i % 2)

/-- A partition table with one FAT16 partition: seven sectors from sector 1 on. -/
def smallMbr : Sector := fun i =>
  if i = 450 then 0x06 else if i = 454 then 1 else if i = 458 then 7
  else if i = 510 then 0x55 else if i = 511 then 0xAA else 0

/-- The boot sector of the small volume. -/
def smallBpb : Sector := fun i =>
  if i = 12 then 2 else if i = 13 then 1 else if i = 14 then 1 else if i = 16 then 2
  else if i = 17 then 16 else if i = 22 then 1 else 0

/-- The small volume with the given FAT, root directory and clusters, and no heap. -/
def smallState (fat : List UInt16) (root : List Dirent) (clusters : List Sector) : FatState where
  disk := fun lba =>
    if lba = 0 then smallMbr
    else if lba = 1 then smallBpb
    else if lba = 2 ∨ lba = 3 then fatSector fat
    else if lba = 4 then entrySector root
    else clusters.getD (lba - 5) (fun _ => 0)
  sectorBuf := fun _ => 0
  cwdCluster := 0
  cwdPath := [slash]
  heap := ⟨0, 0, fun _ => 0⟩
  console := []
  ataCount := 0

theorem smallState_heap (fat : List UInt16) (root : List Dirent) (clusters : List Sector) :
    ∃ l, (smallState fat root clusters).heap.blocks = some l :=
  ⟨[], if_pos rfl⟩

end OctoOS
