import OctoOS.Fat.WellFormed

set_option autoImplicit false

/-! # Paths on volumes

`resolve` as a function of the volume: a walk through the directories by `Vol.lookup`. On a
consistent volume a walk that starts in a live directory only meets live ones, so the loops of the
driver end and compute this function. What a walk ends with is the entry of a slot that is in use,
or one of the synthetic entries that stand for the start of the path and for the root; the location
kept next to it may then be left over from an earlier component. -/

namespace OctoOS

open Atomic Tiling Linked

/-- The loop of `resolve` on a volume. -/
def Vol.walkPath (fs : Fs) (v : Vol) (parentOf : Bool) :
    List Bytes → Dirent → Option Slot → Option (Dirent × Option Slot × Name83)
  | [], out, o => if parentOf then none else some (out, o, Dirent.zero.name)
  | comp :: rest, out, o =>
    match to83 comp with
    | none => none
    | some name =>
      if parentOf ∧ rest = [] then some (out, o, name)
      else if !out.isDir then none
      else
        match v.lookup fs out.clusterLo name with
        | none => none
        | some (d, o') => v.walkPath fs parentOf rest d (o'.or o)

/-- `resolve` on a volume. -/
def Vol.resolvePath (fs : Fs) (v : Vol) (parentOf : Bool) (path : Bytes) :
    Option (Dirent × Option Slot × Name83) :=
  v.walkPath fs parentOf (components (pathStart v.cwd path).2) (dirEntry (pathStart v.cwd path).1) none

/-- The parent directory and the last name of a path that can name a new entry. -/
def Vol.parent (fs : Fs) (v : Vol) (path : Bytes) : Option (Dirent × Name83) :=
  match v.resolvePath fs true path with
  | none => none
  | some (d, _, name) => if !d.isDir ∨ name.first = dot then none else some (d, name)

/-- The location that goes with a slot. -/
def slotLoc (fs : Fs) (o : Option Slot) : Loc := (o.map (Slot.loc fs)).getD ⟨0, 0⟩

/-- What a walk can end with. -/
inductive Vol.Met (fs : Fs) (v : Vol) : Dirent → Option Slot → Prop where
  /-- the entry of a slot that is in use -/
  | entry {s : Slot} : v.InTree fs s → entryInUse (v.entry s) = true →
      Vol.Met fs v (v.entry s) (some s)
  /-- the start of the path -/
  | start {c : UInt16} : v.Live fs c → Vol.Met fs v (dirEntry c) none
  /-- the root, after an entry that was in use -/
  | root {s : Slot} : v.InTree fs s → entryInUse (v.entry s) = true →
      Vol.Met fs v (dirEntry 0) (some s)

section Resolve

variable {fs : Fs} {ps : ℕ} {v : Vol} {d : Dirent} {name : Name83} {o : Option Slot}

@[simp] theorem dirEntry_isDir (c : UInt16) : (dirEntry c).isDir = true := by
  simp [Dirent.isDir, dirEntry, attrDir]

@[simp] theorem dirEntry_clusterLo (c : UInt16) : (dirEntry c).clusterLo = c := rfl

theorem Vol.Met.live (h : v.Consistent fs) (hm : v.Met fs d o) (hdir : d.isDir = true) :
    v.Live fs d.clusterLo := by
  cases hm with
  | entry ht hin =>
    obtain ⟨p, hp, hsp⟩ := ht
    exact h.live_of_isDir hp hsp hin hdir
  | start hc => exact hc
  | root => exact Vol.Live.root

/-- One component of a walk. -/
theorem Vol.Met.lookup (h : v.Consistent fs) {d' : Dirent} {o' : Option Slot} (hm : v.Met fs d o)
    (hdir : d.isDir = true) (hl : v.lookup fs d.clusterLo name = some (d', o')) :
    v.Met fs d' (o'.or o) := by
  have hlive := hm.live h hdir
  unfold Vol.lookup at hl
  split_ifs at hl with h0
  · -- the root itself: the location is that of an earlier component, if any
    cases hl
    cases hm with
    | entry ht hin | root ht hin => exact Vol.Met.root ht hin
    | start hc => exact Vol.Met.start Vol.Live.root
  · obtain ⟨s, hs, heq⟩ := Option.map_eq_some_iff.1 hl
    cases heq
    obtain ⟨hmem, hin, -⟩ := (h.findSlot_iff hlive).1 hs
    exact Vol.Met.entry ⟨_, hlive, hmem⟩ hin

/-- A walk ends at its last name, if the parent is wanted, or goes on from the entry of its first. -/
theorem Vol.walkPath_cons_inv {parentOf : Bool} {comp : Bytes} {rest : List Bytes}
    {r : Dirent × Option Slot × Name83} (hw : v.walkPath fs parentOf (comp :: rest) d o = some r) :
    ∃ name, to83 comp = some name ∧ ((parentOf = true ∧ r = (d, o, name)) ∨
      d.isDir = true ∧ ∃ d' u, v.lookup fs d.clusterLo name = some (d', u) ∧
        v.walkPath fs parentOf rest d' (u.or o) = some r) := by
  rw [Vol.walkPath] at hw
  cases hc : to83 comp with
  | none => simp [hc] at hw
  | some name =>
    simp only [hc] at hw
    refine ⟨name, rfl, ?_⟩
    split_ifs at hw with hlast hdir
    · exact Or.inl ⟨hlast.1, (Option.some.inj hw).symm⟩
    · cases hl : v.lookup fs d.clusterLo name with
      | none => simp [hl] at hw
      | some e =>
        simp only [hl] at hw
        exact Or.inr ⟨by simpa using hdir, e.1, e.2, rfl, hw⟩

/-- A walk to the last name looks up the first one and goes on from there. -/
theorem Vol.walkPath_false_cons {comp : Bytes} {rest : List Bytes}
    {r : Dirent × Option Slot × Name83} :
    v.walkPath fs false (comp :: rest) d o = some r ↔
      ∃ name, to83 comp = some name ∧ d.isDir = true ∧ ∃ d' u,
        v.lookup fs d.clusterLo name = some (d', u) ∧
          v.walkPath fs false rest d' (u.or o) = some r := by
  constructor
  · intro hw
    obtain ⟨name, hc, ⟨hparent, -⟩ | hstep⟩ := Vol.walkPath_cons_inv hw
    · cases hparent
    · exact ⟨name, hc, hstep⟩
  · rintro ⟨name, hc, hdir, d', u, hl, hw⟩
    simp [Vol.walkPath, hc, hdir, hl, hw]

theorem Vol.walkPath_met (h : v.Consistent fs) {parentOf : Bool} {comps : List Bytes} {d' : Dirent}
    {o' : Option Slot} (hm : v.Met fs d o)
    (hw : v.walkPath fs parentOf comps d o = some (d', o', name)) : v.Met fs d' o' := by
  induction comps generalizing d o with
  | nil =>
    rw [Vol.walkPath] at hw
    split_ifs at hw
    cases hw
    exact hm
  | cons comp rest ih =>
    obtain ⟨n, -, ⟨-, heq⟩ | ⟨hdir, d1, u, hl, hw⟩⟩ := Vol.walkPath_cons_inv hw
    · cases heq
      exact hm
    · exact ih (hm.lookup h hdir hl) hw

theorem resolveLoop_yields (hs : fs.Sane ps) (h : v.Consistent fs) {parentOf : Bool}
    {comps : List Bytes} (hm : v.Met fs d o) :
    fs.Yields (resolveLoop fs parentOf comps d (slotLoc fs o)) v
      ((v.walkPath fs parentOf comps d o).map (fun r => (r.1, slotLoc fs r.2.1, r.2.2))) v := by
  induction comps generalizing d o with
  | nil =>
    rw [resolveLoop, Vol.walkPath]
    split_ifs <;> exact Fs.Yields.pure _
  | cons comp rest ih =>
    rw [resolveLoop, Vol.walkPath]
    cases hc : to83 comp with
    | none => exact Fs.Yields.pure _
    | some n =>
      simp only
      split_ifs with hlast hdir
      · exact Fs.Yields.pure _
      · exact Fs.Yields.pure _
      · have hdir' : d.isDir = true := by simpa using hdir
        refine (dirFind_yields hs (h.dirOk (hm.live h hdir')) n).bind ?_
        cases hl : v.lookup fs d.clusterLo n with
        | none => exact Fs.Yields.pure _
        | some r =>
          obtain ⟨d', o'⟩ := r
          have hloc : (o'.map (Slot.loc fs)).getD (slotLoc fs o) = slotLoc fs (o'.or o) := by
            cases o' <;> rfl
          simp only [Option.map_some, hloc]
          exact ih (hm.lookup h hdir' hl)

theorem Vol.met_start {c : UInt16} (hc : v.Live fs v.cwd) (path : Bytes)
    (heq : (pathStart v.cwd path).1 = c) : v.Met fs (dirEntry c) none := by
  refine Vol.Met.start ?_
  rw [← heq]
  unfold pathStart
  cases path with
  | nil => exact hc
  | cons x xs =>
    simp only
    split_ifs
    · exact Vol.Live.root
    · exact hc

theorem resolve_yields (hs : fs.Sane ps) (h : v.Consistent fs) (hc : v.Live fs v.cwd)
    (parentOf : Bool) (path : Bytes) :
    fs.Yields (resolve fs parentOf path ⟨0, 0⟩) v
      ((v.resolvePath fs parentOf path).map (fun r => (r.1, slotLoc fs r.2.1, r.2.2))) v := by
  unfold resolve
  refine getCwdCluster_yields.bind ?_
  exact resolveLoop_yields hs h (o := none) (Vol.met_start hc path rfl)

theorem Vol.resolvePath_met (h : v.Consistent fs) (hc : v.Live fs v.cwd) {parentOf : Bool}
    {path : Bytes} (hr : v.resolvePath fs parentOf path = some (d, o, name)) : v.Met fs d o :=
  Vol.walkPath_met h (Vol.met_start hc path rfl) hr

theorem parentOf_yields (hs : fs.Sane ps) (h : v.Consistent fs) (hc : v.Live fs v.cwd)
    (path : Bytes) : fs.Yields (parentOf fs path) v (v.parent fs path) v := by
  unfold parentOf Vol.parent
  refine (resolve_yields hs h hc true path).bind ?_
  cases hr : v.resolvePath fs true path with
  | none => exact Fs.Yields.pure _
  | some r =>
    simp only [Option.map_some]
    split_ifs <;> exact Fs.Yields.pure _

theorem Vol.parent_inv {path : Bytes} (hp : v.parent fs path = some (d, name)) :
    (∃ o, v.resolvePath fs true path = some (d, o, name)) ∧ d.isDir = true ∧ name.first ≠ dot := by
  unfold Vol.parent at hp
  cases hr : v.resolvePath fs true path with
  | none => simp [hr] at hp
  | some r =>
    obtain ⟨d', o, n⟩ := r
    simp only [hr] at hp
    split_ifs at hp with hcond
    cases hp
    simp only [Bool.not_eq_true', not_or, Bool.not_eq_false] at hcond
    exact ⟨⟨o, rfl⟩, hcond⟩

theorem Vol.parent_spec (h : v.Consistent fs) (hc : v.Live fs v.cwd) {path : Bytes}
    (hp : v.parent fs path = some (d, name)) : v.Live fs d.clusterLo ∧ name.first ≠ dot := by
  obtain ⟨⟨o, hr⟩, hdir, hdot⟩ := Vol.parent_inv hp
  exact ⟨(Vol.resolvePath_met h hc hr).live h hdir, hdot⟩

/-- A slot has a location other than the initial one. -/
theorem slotLoc_lba_eq_zero (hs : fs.Sane ps) (ho : ∀ s, o = some s → fs.IsSlot s) :
    (slotLoc fs o).lba = 0 ↔ o = none := by
  cases o with
  | none => exact ⟨fun _ => rfl, fun _ => rfl⟩
  | some s =>
    have hsl := ho s rfl
    have hb := (Fs.area_bounds hs hsl.1 hsl.sector_lt).1
    have h1 := hs.fatsLe
    have h2 := hs.maxFat
    have h3 : fs.fatSectors ≤ fs.numFats * fs.fatSectors := Nat.le_mul_of_pos_left _ hs.numFats
    constructor
    · intro hz
      have hz' : fs.areaLba s.area + s.idx / 16 = 0 := hz
      omega
    · intro hn
      cases hn

end Resolve

end OctoOS
