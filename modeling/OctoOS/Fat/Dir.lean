import OctoOS.Fat.View
import OctoOS.Lib.Links
import Mathlib.Algebra.Order.BigOperators.Group.List
import Mathlib.Data.List.Perm.Subperm

set_option autoImplicit false

/-! # Directories on volumes

A directory is the list of its slots: those of the root area, or of the clusters of its chain. The
iterator of the driver walks this list, so every loop over a directory computes a function of the
list (`dirWhile_yields`), whatever the sectors, clusters and `sector_buf` do meanwhile. -/

namespace OctoOS

open Atomic Tiling Linked

variable {α β : Type}

/-! ## Chains and slots -/

/-- The clusters met from `c`. -/
def Vol.chain (fs : Fs) (v : Vol) (c : UInt16) : List UInt16 := walk v.fat fs.IsCluster (2 ^ 16) c

/-- Cluster `c` starts a chain that ends in an EOC value. -/
def Vol.HasChain (fs : Fs) (v : Vol) (c : UInt16) : Prop :=
  fs.IsCluster c ∧ Links v.fat fs.IsCluster isEoc c (v.chain fs c)
  deriving Decidable

/-- The slots of an area. -/
def Fs.areaSlots (fs : Fs) (c : UInt16) : List Slot := (List.range (fs.slotCount c)).map (Slot.mk c)

/-- The slots of the directory at cluster `c`. -/
def Vol.dirSlots (fs : Fs) (v : Vol) (c : UInt16) : List Slot :=
  if c = 0 then fs.areaSlots 0 else (v.chain fs c).flatMap fs.areaSlots

/-- A cluster number the iterator can start from. -/
def Vol.DirOk (fs : Fs) (v : Vol) (c : UInt16) : Prop := c = 0 ∨ v.HasChain fs c

section Slots

variable {fs : Fs} {ps : ℕ} {v v' : Vol} {s : Slot} {c : UInt16}

/-- No cluster number is an EOC value. -/
theorem Fs.Sane.not_isEoc (hs : fs.Sane ps) (c : UInt16) (h : fs.IsCluster c) : ¬ isEoc c := by
  intro he
  have h1 : (0xFFF8 : UInt16).toNat ≤ c.toNat := UInt16.le_iff_toNat_le.1 he
  have h2 : (0xFFF8 : UInt16).toNat = 0xFFF8 := rfl
  have h3 := hs.maxReserved
  have h4 := h.2
  omega

theorem Vol.chain_length_le (fs : Fs) (v : Vol) (c : UInt16) : (v.chain fs c).length ≤ 2 ^ 16 :=
  walk_length_le ..

theorem Vol.chain_of_not_isCluster (h : ¬ fs.IsCluster c) : v.chain fs c = [] := by
  rw [Vol.chain, walk_of_pos (by decide), if_neg h]

theorem Vol.HasChain.ne_nil (h : v.HasChain fs c) : v.chain fs c ≠ [] := by
  rw [Vol.chain, walk_of_pos (by decide), if_pos h.1]
  simp

theorem Vol.HasChain.mem_self (h : v.HasChain fs c) : c ∈ v.chain fs c :=
  h.2.mem_self h.ne_nil

theorem Vol.HasChain.nodup (hs : fs.Sane ps) (h : v.HasChain fs c) : (v.chain fs c).Nodup := h.2.nodup hs.not_isEoc

theorem Vol.isCluster_of_mem_chain {x : UInt16} (hx : x ∈ v.chain fs c) : fs.IsCluster x :=
  ok_of_mem_walk hx

/-- No cluster of a chain is free: its entry names a cluster or is an EOC value. -/
theorem Vol.HasChain.fat_ne_free {x : UInt16} (h : v.HasChain fs c) (hx : x ∈ v.chain fs c) :
    v.fat x ≠ clusterFree := by
  intro hz
  rcases h.2.next_mem hx with hm | he
  · rw [hz] at hm
    exact absurd rfl (Vol.isCluster_of_mem_chain hm).ne_zero
  · rw [hz] at he
    cases he

theorem length_le_of_nodup {l : List UInt16} (h : l.Nodup) : l.length ≤ 2 ^ 16 := by
  have hnodup : (l.map UInt16.toNat).Nodup := h.map (fun a b hab => UInt16.toNat_inj.1 hab)
  have hsub : l.map UInt16.toNat ⊆ List.range (2 ^ 16) := by
    intro x hx
    obtain ⟨y, -, rfl⟩ := List.mem_map.1 hx
    exact List.mem_range.2 y.toNat_lt
  have hle := (hnodup.subperm hsub).length_le
  rwa [List.length_map, List.length_range] at hle

/-- A chain known to be linked is the one the volume has. -/
theorem Vol.chain_eq_of_links (hs : fs.Sane ps) {l : List UInt16}
    (h : Links v.fat fs.IsCluster isEoc c l) : v.chain fs c = l :=
  h.walk_eq hs.not_isEoc (length_le_of_nodup (h.nodup hs.not_isEoc))

/-- A chain survives in a volume whose FAT agrees on it. -/
theorem Vol.HasChain.congr (hs : fs.Sane ps) (h : v.HasChain fs c)
    (hf : ∀ x ∈ v.chain fs c, v'.fat x = v.fat x) :
    v'.HasChain fs c ∧ v'.chain fs c = v.chain fs c := by
  have hl := h.2.congr hf
  have heq := Vol.chain_eq_of_links hs hl
  exact ⟨⟨h.1, by rw [heq]; exact hl⟩, heq⟩

theorem Fs.mem_areaSlots : s ∈ fs.areaSlots c ↔ s.area = c ∧ s.idx < fs.slotCount c := by
  simp only [Fs.areaSlots, List.mem_map, List.mem_range]
  constructor
  · rintro ⟨i, hi, rfl⟩
    exact ⟨rfl, hi⟩
  · rintro ⟨rfl, hi⟩
    exact ⟨s.idx, hi, rfl⟩

/-- The slots of a directory lie in its own area or in the clusters of its chain. -/
theorem Vol.mem_dirSlots :
    s ∈ v.dirSlots fs c ↔ s.idx < fs.slotCount s.area ∧
      ((c = 0 ∧ s.area = 0) ∨ (c ≠ 0 ∧ s.area ∈ v.chain fs c)) := by
  unfold Vol.dirSlots
  split_ifs with hc
  · rw [Fs.mem_areaSlots]
    constructor
    · rintro ⟨ha, hi⟩
      exact ⟨by rwa [ha], Or.inl ⟨hc, ha⟩⟩
    · rintro ⟨hi, ⟨-, ha⟩ | ⟨hne, -⟩⟩
      · exact ⟨ha, by rwa [ha] at hi⟩
      · exact absurd hc hne
  · simp only [List.mem_flatMap, Fs.mem_areaSlots]
    constructor
    · rintro ⟨x, hx, rfl, hi⟩
      exact ⟨hi, Or.inr ⟨hc, hx⟩⟩
    · rintro ⟨hi, ⟨h0, -⟩ | ⟨-, hx⟩⟩
      · exact absurd h0 hc
      · exact ⟨s.area, hx, rfl, hi⟩

theorem Vol.isSlot_of_mem_dirSlots (h : s ∈ v.dirSlots fs c) : fs.IsSlot s := by
  obtain ⟨hi, ⟨-, ha⟩ | ⟨-, hx⟩⟩ := Vol.mem_dirSlots.1 h
  · exact ⟨Or.inl ha, hi⟩
  · exact ⟨(Vol.isCluster_of_mem_chain hx).isArea, hi⟩

theorem Vol.dirSlots_congr (h : v'.chain fs c = v.chain fs c) :
    v'.dirSlots fs c = v.dirSlots fs c := by
  rw [Vol.dirSlots, Vol.dirSlots, h]

theorem Vol.dirSlots_length_lt (hs : fs.Sane ps) (c : UInt16) :
    (v.dirSlots fs c).length < dirLoopBound := by
  have hroot : fs.rootSectors ≤ 2 ^ 32 := by
    have h1 := hs.rootLe
    have h2 := hs.dataLe
    have h3 := hs.noWrap
    omega
  have hspc := hs.spcLe
  unfold Vol.dirSlots
  split_ifs with hc
  · simp only [Fs.areaSlots, Fs.slotCount, Fs.areaSectors, List.length_map, List.length_range,
      if_true, dirLoopBound]
    omega
  · have hlen : ∀ x ∈ v.chain fs c, (fs.areaSlots x).length ≤ 4080 := by
      intro x hx
      have hx0 := (Vol.isCluster_of_mem_chain hx).ne_zero
      simp only [Fs.areaSlots, Fs.slotCount, Fs.areaSectors, List.length_map, List.length_range,
        if_neg hx0]
      omega
    have hsum : ((v.chain fs c).flatMap fs.areaSlots).length ≤ (v.chain fs c).length * 4080 := by
      rw [List.length_flatMap]
      have := List.sum_le_card_nsmul ((v.chain fs c).map (fun x => (fs.areaSlots x).length)) 4080
        (by
          intro y hy
          obtain ⟨x, hx, rfl⟩ := List.mem_map.1 hy
          exact hlen x hx)
      simpa using this
    have := Vol.chain_length_le fs v c
    unfold dirLoopBound
    omega

end Slots

/-! ## The iterator -/

/-- The iterator that `dir_next` leaves behind a slot. -/
def DirIter.behind (s : Slot) : DirIter := ⟨s.area, s.idx / 16, s.idx % 16 + 1, false⟩

def Fs.firstSlot (fs : Fs) (c : UInt16) : Option Slot :=
  if 0 < fs.slotCount c then some ⟨c, 0⟩ else none

/-- The slot behind `s`: in its area, or in the cluster that is linked to it. -/
def Vol.nextSlot (fs : Fs) (v : Vol) (s : Slot) : Option Slot :=
  if s.idx + 1 < fs.slotCount s.area then some ⟨s.area, s.idx + 1⟩
  else if s.area = 0 ∨ isEoc (v.fat s.area) then none
  else some ⟨v.fat s.area, 0⟩

/-- The iterator comes to the slot `o` next, or to the end of the directory. -/
structure DirIter.Before (fs : Fs) (v : Vol) (it : DirIter) (o : Option Slot) : Prop where
  ok : it.Ok fs
  area : fs.IsArea it.cluster
  slot : ∀ s ∈ o, fs.IsSlot s
  next : iterNext fs v.fat it = o.map (fun s => (DirIter.behind s, s.loc fs))

/-- The iterator still has the slots of the list to visit. -/
inductive DirIter.At (fs : Fs) (v : Vol) : DirIter → List Slot → Prop where
  | nil {it : DirIter} : it.Before fs v none → At fs v it []
  | cons {it : DirIter} {s : Slot} {rest : List Slot} : it.Before fs v (some s) →
      At fs v (.behind s) rest → At fs v it (s :: rest)

section Iterator

variable {fs : Fs} {ps : ℕ} {v : Vol} {it : DirIter} {o : Option Slot} {rest : List Slot} {s : Slot}
  {c : UInt16} {i : ℕ}

theorem dirBegin_ok (hs : fs.Sane ps) (c : UInt16) : (dirBegin c).Ok fs :=
  ⟨rfl, by simp [dirBegin], fun _ => hs.spcPos⟩

theorem iterLba_eq (hs : fs.Sane ps) (hc : fs.IsArea c) (hi : i < fs.areaSectors c) :
    iterLba fs c i = fs.areaLba c + i := by
  by_cases h0 : c = 0
  · have hb := (Fs.area_bounds hs hc hi).2
    have hnw := hs.noWrap
    rw [Fs.areaLba, if_pos h0] at hb ⊢
    rw [iterLba, if_pos h0, w32_eq (by omega)]
  · have hcl := hc.resolve_left h0
    rw [Fs.areaSectors, if_neg h0] at hi
    rw [iterLba, if_neg h0, Fs.clusterLba_add hs hcl hi]

theorem dirBegin_before (hs : fs.Sane ps) (hc : fs.IsArea c) :
    (dirBegin c).Before fs v (fs.firstSlot c) := by
  unfold Fs.firstSlot
  split_ifs with hslot
  · have hpos : 0 < fs.areaSectors c := Nat.pos_of_mul_pos_right hslot
    refine ⟨dirBegin_ok hs c, hc, fun s hs => Option.some.inj hs ▸ ⟨hc, hslot⟩, ?_⟩
    simp [iterNext, dirBegin, DirIter.behind, Slot.loc, hpos, iterLba_eq hs hc hpos]
  · have hpos : ¬ 0 < fs.areaSectors c := fun h => hslot (Nat.mul_pos h (by decide))
    exact ⟨dirBegin_ok hs c, hc, by simp, by simp [iterNext, dirBegin, hpos]⟩

theorem behind_before (hs : fs.Sane ps) (hsl : fs.IsSlot s)
    (hnext : fs.slotCount s.area ≤ s.idx + 1 → s.area ≠ 0 → ¬ isEoc (v.fat s.area) →
      fs.IsCluster (v.fat s.area)) :
    (DirIter.behind s).Before fs v (v.nextSlot fs s) := by
  have hsec := hsl.sector_lt
  have hlt : s.idx < fs.areaSectors s.area * 16 := hsl.2
  have hok : (DirIter.behind s).Ok fs := by
    refine ⟨rfl, Nat.mod_lt s.idx (by decide : 0 < 16), fun hc => ?_⟩
    have hspc : fs.areaSectors s.area = fs.sectorsPerCluster := if_neg hc
    rwa [hspc] at hsec
  unfold Vol.nextSlot Fs.slotCount
  by_cases hend : s.idx + 1 < fs.areaSectors s.area * 16
  · rw [if_pos hend]
    refine ⟨hok, hsl.1, fun t ht => Option.some.inj ht ▸ ⟨hsl.1, hend⟩, ?_⟩
    -- the next entry of the sector, or the first one of the next sector
    have hinj : ∀ {e k l o}, e = (s.idx + 1) % 16 + 1 → k = (s.idx + 1) / 16 →
        l = fs.areaLba s.area + k → o = (s.idx + 1) % 16 * 32 →
        some (DirIter.mk s.area k e false, Loc.mk l o) = (some (Slot.mk s.area (s.idx + 1))).map
          (fun s => (DirIter.behind s, s.loc fs)) := by
      rintro e k l o rfl rfl rfl rfl
      rfl
    by_cases he : s.idx % 16 + 1 < 16
    · exact (iterNext_here he hsec).trans
        (hinj (by simp only [DirIter.behind]; omega) (by simp only [DirIter.behind]; omega)
          (iterLba_eq hs hsl.1 hsec) (by simp only [DirIter.behind]; omega))
    · have hk : s.idx / 16 + 1 < fs.areaSectors s.area := by omega
      exact (iterNext_sector (not_lt.1 he) hk).trans
        (hinj (by omega) (by simp only [DirIter.behind]; omega) (iterLba_eq hs hsl.1 hk) (by omega))
  · have hlast := @iterNext_link fs v.fat (DirIter.behind s)
      (by simp only [DirIter.behind]; omega) (by simp only [DirIter.behind]; omega)
    rw [if_neg hend]
    split_ifs with hstop
    · exact ⟨hok, hsl.1, nofun, hlast.trans (if_pos hstop)⟩
    · obtain ⟨h0, hgo⟩ := not_or.1 hstop
      have hcl := hnext (not_lt.1 hend) h0 hgo
      refine ⟨hok, hsl.1, fun t ht => Option.some.inj ht ▸ ⟨hcl.isArea,
        Nat.mul_pos (Fs.areaSectors_pos_of_ne hs hcl.ne_zero) (by decide)⟩,
        hlast.trans ((if_neg hstop).trans ?_)⟩
      change some (_, Loc.mk (w32 (clusterLba fs (v.fat s.area) + 0)) 0) = _
      rw [Fs.clusterLba_add hs hcl hs.spcPos]
      simp [DirIter.behind, Slot.loc]

/-- The entry that is read from a slot. -/
theorem readEntry_eq (st : FatState) (hsl : fs.IsSlot s) {buf : Sector}
    (hbuf : ∀ k < sectorSize, buf k = st.disk (s.loc fs).lba k) :
    readDirent buf (s.loc fs).off = (st.vol fs).entry s := by
  refine readDirent_congr (fun i hi => ?_)
  have hlt : s.idx * 32 + i < fs.areaSectors s.area * sectorSize := by
    have := hsl.2
    unfold Fs.slotCount at this
    unfold sectorSize
    omega
  have harea : (st.vol fs).area s.area (s.idx * 32 + i)
      = st.disk (fs.areaLba s.area + (s.idx * 32 + i) / sectorSize) ((s.idx * 32 + i) % sectorSize) :=
    if_pos ⟨hsl.1, hlt⟩
  have hdiv : (s.idx * 32 + i) / sectorSize = s.idx / 16 := by unfold sectorSize; omega
  have hmod : (s.idx * 32 + i) % sectorSize = s.idx % 16 * 32 + i := by unfold sectorSize; omega
  rw [harea, hdiv, hmod]
  exact hbuf _ (show s.idx % 16 * 32 + i < 512 by omega)

/-- The answers of `dir_next` are slots of the volume. -/
theorem DirIter.Before.answers (h : it.Before fs v o) (hs : fs.Sane ps) {fails : Faults} {st : FatState}
    (hst : st.vol fs = v) {r : Option (DirIter × Dirent × Loc)}
    (hr : Answers fails st.disk (iterNext fs (linkOn fs st.disk) it) r) :
    (∀ x ∈ r, ∃ s ∈ o, x = (DirIter.behind s, v.entry s, s.loc fs)) ∧
      ((∀ n lba, fails n lba = false) → r = none → o = none) := by
  have hlink : it.cluster ≠ 0 → linkOn fs st.disk it.cluster = v.fat it.cluster := fun h0 => by
    rw [linkOn_eq_fatOf hs (h.area.resolve_left h0).2, ← hst]
    rfl
  rw [iterNext_congr hlink, h.next] at hr
  refine ⟨fun x hx => ?_, fun hok hnone => Option.map_eq_none_iff.1 (hr.2 hok hnone)⟩
  obtain ⟨hslot, buf, hbuf, hentry⟩ := hr.1 x hx
  obtain ⟨s, hs, heq⟩ := Option.map_eq_some_iff.1 hslot
  obtain ⟨hit, hloc⟩ := Prod.mk.inj heq
  rw [← hloc] at hbuf hentry
  refine ⟨s, hs, Prod.ext hit.symm (Prod.ext ?_ hloc.symm)⟩
  rw [hentry, readEntry_eq st (h.slot s hs) hbuf, hst]

theorem DirIter.Before.yields (h : it.Before fs v o) (hs : fs.Sane ps) : fs.Yields (dirNext fs it) v
    (o.map (fun s => (DirIter.behind s, v.entry s, s.loc fs))) v := by
  refine Fs.Yields.of_looks (dirNext_looks it) (fun st hst => (dirNext_ends h.ok st).mono ?_)
  rintro r st' ⟨-, hr⟩
  obtain ⟨hsome, hnone⟩ := h.answers hs hst hr
  cases r with
  | none => rw [hnone (fun _ _ => rfl) rfl, Option.map_none]
  | some x =>
    obtain ⟨s, rfl, rfl⟩ := hsome x rfl
    rfl

theorem Fs.areaSlots_drop (hi : i < fs.slotCount c) :
    (fs.areaSlots c).drop i = ⟨c, i⟩ :: (fs.areaSlots c).drop (i + 1) := by
  rw [List.drop_eq_getElem_cons (by simpa [Fs.areaSlots] using hi)]
  simp [Fs.areaSlots]

theorem Fs.areaSlots_drop_of_le (hi : fs.slotCount c ≤ i) : (fs.areaSlots c).drop i = [] := by
  rw [List.drop_eq_nil_iff, Fs.areaSlots, List.length_map, List.length_range]
  exact hi

/-- Behind a slot the iterator visits the rest of its area and the clusters that follow. -/
theorem behind_at (hs : fs.Sane ps) {cs : List UInt16} {s : Slot} (hsl : fs.IsSlot s)
    (hcs : s.area = 0 ∧ cs = [] ∨ Links v.fat fs.IsCluster isEoc s.area (s.area :: cs)) :
    (DirIter.behind s).At fs v
      ((fs.areaSlots s.area).drop (s.idx + 1) ++ cs.flatMap fs.areaSlots) := by
  have hlinks : s.area ≠ 0 → Links v.fat fs.IsCluster isEoc (v.fat s.area) cs := fun h0 =>
    (Links.cons_iff.1 (hcs.resolve_left (fun h => h0 h.1))).2.2
  have hbefore := behind_before hs hsl (fun _ h0 hgo => by
    have hl := hlinks h0
    cases cs with
    | nil => exact absurd (Links.nil_iff.1 hl) hgo
    | cons c' cs => exact (Links.cons_iff.1 hl).2.1)
  unfold Vol.nextSlot at hbefore
  by_cases hend : s.idx + 1 < fs.slotCount s.area
  · rw [if_pos hend] at hbefore
    rw [Fs.areaSlots_drop hend]
    exact .cons hbefore (behind_at hs ⟨hsl.1, hend⟩ hcs)
  · rw [if_neg hend] at hbefore
    rw [Fs.areaSlots_drop_of_le (not_lt.1 hend), List.nil_append]
    by_cases h0 : s.area = 0
    · obtain rfl : cs = [] := hcs.elim And.right
        (fun hl => absurd h0 (Links.cons_iff.1 hl).2.1.ne_zero)
      rw [if_pos (Or.inl h0)] at hbefore
      exact .nil hbefore
    · have hl := hlinks h0
      cases cs with
      | nil =>
        rw [if_pos (Or.inr (Links.nil_iff.1 hl))] at hbefore
        exact .nil hbefore
      | cons c' cs =>
        obtain ⟨rfl, hcl, -⟩ := Links.cons_iff.1 hl
        have hpos : 0 < fs.slotCount (v.fat s.area) :=
          Nat.mul_pos (Fs.areaSectors_pos_of_ne hs hcl.ne_zero) (by decide)
        rw [if_neg (not_or.2 ⟨h0, hs.not_isEoc _ hcl⟩)] at hbefore
        rw [List.flatMap_cons, ← List.drop_zero (l := fs.areaSlots (v.fat s.area)), Fs.areaSlots_drop hpos]
        exact .cons hbefore (behind_at hs ⟨hcl.isArea, hpos⟩ (Or.inr hl))
termination_by (cs.length, fs.slotCount s.area - s.idx)

theorem dirBegin_at (hs : fs.Sane ps) (hc : v.DirOk fs c) : (dirBegin c).At fs v (v.dirSlots fs c) := by
  obtain ⟨cs, hcs, hslots⟩ : ∃ cs, (c = 0 ∧ cs = [] ∨ Links v.fat fs.IsCluster isEoc c (c :: cs)) ∧
      v.dirSlots fs c = (fs.areaSlots c).drop 0 ++ cs.flatMap fs.areaSlots := by
    rcases hc with rfl | hc
    · exact ⟨[], Or.inl ⟨rfl, rfl⟩, by simp [Vol.dirSlots]⟩
    · obtain ⟨x, xs, hx⟩ := List.exists_cons_of_ne_nil hc.ne_nil
      have hl := hc.2
      rw [hx] at hl
      obtain ⟨rfl, -, -⟩ := Links.cons_iff.1 hl
      exact ⟨xs, Or.inr hl, by rw [Vol.dirSlots, if_neg hc.1.ne_zero, hx, List.flatMap_cons, List.drop_zero]⟩
  have harea : fs.IsArea c := hc.imp_right And.left
  have hbefore := dirBegin_before (v := v) hs harea
  unfold Fs.firstSlot at hbefore
  rw [hslots]
  by_cases hpos : 0 < fs.slotCount c
  · rw [if_pos hpos] at hbefore
    rw [Fs.areaSlots_drop hpos]
    exact .cons hbefore (behind_at hs ⟨harea, hpos⟩ hcs)
  · -- a root area without sectors
    have h0 : c = 0 := by
      by_contra h0
      exact hpos (Nat.mul_pos (Fs.areaSectors_pos_of_ne hs h0) (by decide))
    obtain rfl : cs = [] := hcs.elim And.right (fun hl => absurd h0 (Links.cons_iff.1 hl).2.1.ne_zero)
    rw [if_neg hpos] at hbefore
    rw [Fs.areaSlots_drop_of_le (not_lt.1 hpos)]
    exact .nil hbefore

/-- A loop over a directory whose body leaves the volume alone searches the slots. -/
theorem dirWhile_yields (hs : fs.Sane ps) (body : Dirent → Loc → Fat (Option β))
    (f : Slot → Option β) (hbody : ∀ s ∈ rest, fs.Yields (body (v.entry s) (s.loc fs)) v (f s) v)
    {fuel : ℕ} (hat : it.At fs v rest) (hfuel : rest.length < fuel) :
    fs.Yields (dirWhile fs body fuel it) v (rest.findSome? f) v := by
  induction hat generalizing fuel with
  | nil hnext =>
    obtain ⟨fuel, rfl⟩ : ∃ n, fuel = n + 1 := ⟨fuel - 1, by omega⟩
    rw [dirWhile]
    exact (hnext.yields hs).bind (Fs.Yields.pure _)
  | @cons it s rest hnext _ ih =>
    obtain ⟨fuel, rfl⟩ : ∃ n, fuel = n + 1 := ⟨fuel - 1, by omega⟩
    rw [dirWhile]
    refine (hnext.yields hs).bind ((hbody s (List.mem_cons_self ..)).bind ?_)
    rw [List.findSome?_cons]
    cases hf : f s with
    | some r => exact Fs.Yields.pure _
    | none => exact ih (fun t ht => hbody t (List.mem_cons_of_mem _ ht)) (Nat.lt_of_succ_lt_succ hfuel)

end Iterator

/-! ## Searches -/

/-- What the entry in slot `s` means for a search for `name`: end of the directory, go on, or the
    slot itself. -/
def Vol.probe (v : Vol) (name : Name83) (s : Slot) : Option (Option Slot) :=
  if (v.entry s).name.first = 0x00 then some none
  else if !entryInUse (v.entry s) then none
  else if (v.entry s).name = name then some (some s)
  else none

/-- The slot of `name` in the directory at cluster `c`. -/
def Vol.findSlot (fs : Fs) (v : Vol) (c : UInt16) (name : Name83) : Option Slot :=
  ((v.dirSlots fs c).findSome? (v.probe name)).join

/-- The entry of `name` in the directory at cluster `c`; in the root a name with a leading dot
    stands for the root itself and has no slot. -/
def Vol.lookup (fs : Fs) (v : Vol) (c : UInt16) (name : Name83) : Option (Dirent × Option Slot) :=
  if c = 0 ∧ name.first = dot then some (dirEntry 0, none)
  else (v.findSlot fs c name).map (fun s => (v.entry s, some s))

/-- A slot that can take a new entry. -/
def Vol.IsFreeSlot (v : Vol) (s : Slot) : Bool :=
  (v.entry s).name.first = 0x00 ∨ (v.entry s).name.first = 0xE5

/-- The first slot that can take a new entry. -/
def Vol.freeSlot (fs : Fs) (v : Vol) (c : UInt16) : Option Slot :=
  (v.dirSlots fs c).find? v.IsFreeSlot

/-- The entry in slot `s` is in use under the given name. -/
def Vol.Holds (v : Vol) (s : Slot) (name : Name83) : Prop :=
  entryInUse (v.entry s) = true ∧ (v.entry s).name = name
  deriving Decidable

/-- Behind the first 0x00 entry of the list there are only such entries. -/
def Vol.Ended (v : Vol) (l : List Slot) : Prop :=
  l.Pairwise (fun s t => (v.entry s).name.first = 0x00 → (v.entry t).name.first = 0x00)
  deriving Decidable

/-- An entry that keeps `fat_rm` from removing its directory. -/
def Vol.Visible (v : Vol) (s : Slot) : Prop :=
  entryInUse (v.entry s) = true ∧ (v.entry s).name.first ≠ dot

section Searches

variable {fs : Fs} {ps : ℕ} {v v' : Vol} {c : UInt16}

theorem name_ne_zero_of_inUse {d : Dirent} (h : entryInUse d = true) : d.name.first ≠ 0x00 := by
  simp only [entryInUse, Bool.and_eq_true, decide_eq_true_eq] at h
  exact h.1.1.1

theorem dirFind_yields (hs : fs.Sane ps) (hc : v.DirOk fs c) (name : Name83) :
    fs.Yields (dirFind fs c name) v
      ((v.lookup fs c name).map (fun r => (r.1, r.2.map (Slot.loc fs)))) v := by
  unfold dirFind Vol.lookup
  split_ifs with h0
  · exact Fs.Yields.pure _
  · have hloop := dirWhile_yields hs
      (fun d l => Pure.pure (findEntry name d l))
      (fun s => findEntry name (v.entry s) (s.loc fs))
      (fun s _ => Fs.Yields.pure _) (dirBegin_at hs hc) (Vol.dirSlots_length_lt hs c)
    refine hloop.bind ?_
    have hprobe : (fun s => findEntry name (v.entry s) (s.loc fs))
        = Option.map (Option.map (fun s => (v.entry s, s.loc fs))) ∘ v.probe name := by
      funext s
      simp only [findEntry, Vol.probe, Function.comp_apply]
      split_ifs <;> rfl
    rw [hprobe, ← List.map_findSome?]
    have hres : ((((v.dirSlots fs c).findSome? (v.probe name)).map
          (Option.map (fun s => (v.entry s, s.loc fs)))).join.map (fun p => (p.1, some p.2)))
        = ((v.findSlot fs c name).map (fun s => (v.entry s, some s))).map
          (fun r => (r.1, r.2.map (Slot.loc fs))) := by
      unfold Vol.findSlot
      cases (v.dirSlots fs c).findSome? (v.probe name) with
      | none => rfl
      | some r => cases r <;> rfl
    rw [hres]
    exact Fs.Yields.pure _

/-- The search finds the slot that holds the name, when at most one does. -/
theorem Vol.findSlot_eq_some_iff {name : Name83} {s : Slot} (hend : v.Ended (v.dirSlots fs c))
    (huniq : ∀ s ∈ v.dirSlots fs c, ∀ t ∈ v.dirSlots fs c, v.Holds s name → v.Holds t name → s = t) :
    v.findSlot fs c name = some s ↔ s ∈ v.dirSlots fs c ∧ v.Holds s name := by
  unfold Vol.findSlot
  generalize v.dirSlots fs c = l at hend huniq
  induction l with
  | nil => simp
  | cons x xs ih =>
    have hxs := ih hend.of_cons (fun a ha b hb =>
      huniq a (List.mem_cons_of_mem _ ha) b (List.mem_cons_of_mem _ hb))
    have hfirst := (List.pairwise_cons.1 hend).1
    rw [List.findSome?_cons]
    by_cases hz : (v.entry x).name.first = 0x00
    · -- everything from the first 0x00 entry on is unused
      have hprobe : v.probe name x = some none := by rw [Vol.probe, if_pos hz]
      rw [hprobe]
      constructor
      · intro h
        cases h
      · rintro ⟨hmem, hin, -⟩
        rcases List.mem_cons.1 hmem with rfl | hmem'
        · exact absurd hz (name_ne_zero_of_inUse hin)
        · exact absurd (hfirst s hmem' hz) (name_ne_zero_of_inUse hin)
    by_cases hx : v.Holds x name
    · have hprobe : v.probe name x = some (some x) := by
        rw [Vol.probe, if_neg hz, if_neg (by simp [hx.1]), if_pos hx.2]
      rw [hprobe]
      constructor
      · intro h
        obtain rfl : x = s := by simpa using h
        exact ⟨List.mem_cons_self .., hx⟩
      · rintro ⟨hmem, hh⟩
        rw [huniq s hmem x (List.mem_cons_self ..) hh hx]
        rfl
    · have hprobe : v.probe name x = none := by
        rw [Vol.probe, if_neg hz]
        split_ifs with hin hname
        · rfl
        · exact absurd ⟨by simpa using hin, hname⟩ hx
        · rfl
      rw [hprobe, hxs, List.mem_cons]
      constructor
      · rintro ⟨hmem, hh⟩
        exact ⟨Or.inr hmem, hh⟩
      · rintro ⟨rfl | hmem, hh⟩
        · exact absurd hh hx
        · exact ⟨hmem, hh⟩

theorem dirFreeSlot_yields (hs : fs.Sane ps) (hc : v.DirOk fs c) :
    fs.Yields (dirFreeSlot fs c) v ((v.freeSlot fs c).map (Slot.loc fs)) v := by
  have hloop := dirWhile_yields hs
    (fun d l => Pure.pure (if d.name.first = 0x00 ∨ d.name.first = 0xE5 then some l else none))
    (fun s => if (v.entry s).name.first = 0x00 ∨ (v.entry s).name.first = 0xE5 then
      some (s.loc fs) else none)
    (fun s _ => Fs.Yields.pure _) (dirBegin_at hs hc) (Vol.dirSlots_length_lt hs c)
  have hguard : (fun s => if (v.entry s).name.first = 0x00 ∨ (v.entry s).name.first = 0xE5 then
      some (Slot.loc fs s) else none) = Option.map (Slot.loc fs) ∘ Option.guard v.IsFreeSlot := by
    funext s
    simp only [Function.comp_apply, Option.guard, Vol.IsFreeSlot, decide_eq_true_eq]
    split_ifs <;> rfl
  rw [hguard, ← List.map_findSome?, ← List.find?_eq_findSome?_guard] at hloop
  exact hloop

theorem Vol.freeSlot_spec {s : Slot} (h : v.freeSlot fs c = some s) :
    s ∈ v.dirSlots fs c ∧ ((v.entry s).name.first = 0x00 ∨ (v.entry s).name.first = 0xE5) := by
  refine ⟨List.mem_of_find?_eq_some h, ?_⟩
  simpa [Vol.IsFreeSlot] using List.find?_some h

/-- The scan of `fat_rm` reports a directory as empty when it has no visible entry. -/
theorem dirIsEmpty_yields (hs : fs.Sane ps) (hc : v.DirOk fs c) (hend : v.Ended (v.dirSlots fs c)) :
    ∃ b, fs.Yields (dirIsEmpty fs c) v b v ∧ (b = true ↔ ∀ s ∈ v.dirSlots fs c, ¬ v.Visible s) := by
  have hloop := dirWhile_yields hs (fun e _ => Pure.pure (scanEntry e))
    (fun s => scanEntry (v.entry s)) (fun s _ => Fs.Yields.pure _) (dirBegin_at hs hc)
    (Vol.dirSlots_length_lt hs c)
  refine ⟨_, hloop.bind (Fs.Yields.pure _), ?_⟩
  generalize v.dirSlots fs c = l at hend
  induction l with
  | nil => simp
  | cons x xs ih =>
    have hfirst := (List.pairwise_cons.1 hend).1
    rw [List.findSome?_cons]
    by_cases hz : (v.entry x).name.first = 0x00
    · have hscan : scanEntry (v.entry x) = some true := by rw [scanEntry, if_pos hz]
      rw [hscan]
      simp only [Option.getD_some, true_iff]
      intro s hmem hvis
      rcases List.mem_cons.1 hmem with rfl | hmem'
      · exact name_ne_zero_of_inUse hvis.1 hz
      · exact name_ne_zero_of_inUse hvis.1 (hfirst s hmem' hz)
    by_cases hvis : entryInUse (v.entry x) = true ∧ (v.entry x).name.first ≠ dot
    · have hscan : scanEntry (v.entry x) = some false := by
        rw [scanEntry, if_neg hz, if_pos hvis]
      rw [hscan]
      simp only [Option.getD_some, Bool.false_eq_true, false_iff]
      intro hall
      exact hall x (List.mem_cons_self ..) hvis
    · have hscan : scanEntry (v.entry x) = none := by
        rw [scanEntry, if_neg hz, if_neg hvis]
      rw [hscan]
      simp only [List.forall_mem_cons]
      rw [ih hend.of_cons]
      exact ⟨fun h => ⟨hvis, h⟩, fun h => h.2⟩

end Searches

end OctoOS
