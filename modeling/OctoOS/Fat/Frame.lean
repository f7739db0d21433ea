import OctoOS.Fat.WellFormed

set_option autoImplicit false

/-! # Changing one slot

Every operation of the driver changes one directory slot and the chain behind it. `Edit v v' s0`
says that `v'` keeps what every other owner of `v` has. `vacate` and `insert` are the two ways the
invariant survives such a change: the slot is unused afterwards, or it was unused before and now
owns a chain of clusters that were free. -/

namespace OctoOS

open Atomic Tiling Linked

/-- Apart from slot `s0`, everything in use in `v` is the same in `v'`. -/
structure Vol.Edit (fs : Fs) (v v' : Vol) (s0 : Slot) : Prop where
  fat : ∀ s, v.Owner fs s → s ≠ s0 → ∀ c ∈ v.ownChain fs s, v'.fat c = v.fat c
  entry : ∀ s, v.InTree fs s → s ≠ s0 → v'.entry s = v.entry s
  area : ∀ s, v.Owner fs s → s ≠ s0 → (v.entry s).isDir = false →
    ∀ c ∈ v.ownChain fs s, v'.area c = v.area c

/-- No entry in front of `s0` marks the end of the directory. -/
def Vol.BeforeUsed (v : Vol) (l : List Slot) (s0 : Slot) : Prop :=
  l.Pairwise (fun a b => b = s0 → (v.entry a).name.first ≠ 0x00)

/-- `p` is the directory of the entry in `s0`. -/
def Vol.DirOf (fs : Fs) (v : Vol) (s0 : Slot) (p : UInt16) : Prop :=
  v.InTree fs s0 ∧ v.IsSubDir s0 ∧ (v.entry s0).clusterLo = p

section Frame

variable {fs : Fs} {ps : ℕ} {v v' : Vol} {s0 : Slot}

theorem Fs.areaSlots_nodup (c : UInt16) : (fs.areaSlots c).Nodup :=
  List.nodup_range.map (fun _ _ h => (Slot.mk.inj h).2)

theorem Vol.dirSlots_nodup (hs : fs.Sane ps) {c : UInt16} (hc : v.DirOk fs c) :
    (v.dirSlots fs c).Nodup := by
  rcases hc with rfl | hc
  · rw [Vol.dirSlots, if_pos rfl]
    exact Fs.areaSlots_nodup 0
  · rw [Vol.dirSlots, if_neg hc.1.ne_zero, List.nodup_flatMap]
    refine ⟨fun x _ => Fs.areaSlots_nodup x, (hc.nodup hs).imp (fun {a b} hne => ?_)⟩
    intro s ha hb
    exact hne ((Fs.mem_areaSlots.1 ha).1.symm.trans (Fs.mem_areaSlots.1 hb).1)

/-- The end marks lie behind an entry that is none. -/
theorem Vol.Ended.beforeUsed {l : List Slot} (h : v.Ended l) (hne : (v.entry s0).name.first ≠ 0x00) :
    v.BeforeUsed l s0 := by
  refine List.Pairwise.imp (fun {a b} hab => ?_) h
  rintro rfl hz
  exact hne (hab hz)

/-- The end marks lie behind the slot `dir_free_slot` finds, or start with it. -/
theorem Vol.freeSlot_beforeUsed (hs : fs.Sane ps) {c : UInt16} (hc : v.DirOk fs c)
    (hf : v.freeSlot fs c = some s0) : v.BeforeUsed (v.dirSlots fs c) s0 := by
  obtain ⟨hfree, as, bs, heq, has⟩ := List.find?_eq_some_iff_append.1 hf
  have hnd := Vol.dirSlots_nodup hs hc
  have hused : ∀ a ∈ as, (v.entry a).name.first ≠ 0x00 := by
    intro a ha hz
    have := has a ha
    simp [Vol.IsFreeSlot, hz] at this
  have hbs : s0 ∉ bs := by
    rw [heq] at hnd
    exact (List.nodup_cons.1 (List.nodup_append.1 hnd).2.1).1
  rw [heq]
  refine List.pairwise_append.2 ⟨?_, List.pairwise_cons.2 ⟨?_, ?_⟩, ?_⟩
  · exact List.pairwise_of_forall_mem_list (fun a ha b _ _ => hused a ha)
  · intro b hb hbs0
    exact absurd (by rw [← hbs0]; exact hb) hbs
  · refine List.pairwise_of_forall_mem_list (fun a _ b hb hbs0 => ?_)
    exact absurd (by rw [← hbs0]; exact hb) hbs
  · intro a ha b _ _
    exact hused a ha

namespace Vol.Edit

/-- The chains of the other owners. -/
theorem chain_eq (he : v.Edit fs v' s0) (hs : fs.Sane ps) (h : v.Consistent fs) {s : Slot}
    (ho : v.Owner fs s) (hne : s ≠ s0) :
    v'.chain fs (v.entry s).clusterLo = v.ownChain fs s ∧
      (2 ≤ (v.entry s).clusterLo.toNat → v'.HasChain fs (v.entry s).clusterLo) := by
  by_cases h2 : 2 ≤ (v.entry s).clusterLo.toNat
  · have hc := (h.chains s ho h2).congr hs (he.fat s ho hne)
    exact ⟨hc.2, fun _ => hc.1⟩
  · have hno : ¬ fs.IsCluster (v.entry s).clusterLo := fun hcl => h2 hcl.1
    refine ⟨?_, fun h2' => absurd h2' h2⟩
    rw [Vol.ownChain, Vol.chain_of_not_isCluster hno, Vol.chain_of_not_isCluster hno]

/-- The slots of the other directories. -/
theorem dirSlots_eq (he : v.Edit fs v' s0) (hs : fs.Sane ps) (h : v.Consistent fs) {p : UInt16}
    (hp : v.Live fs p) (hno : ¬ v.DirOf fs s0 p) : v'.dirSlots fs p = v.dirSlots fs p := by
  by_cases hp0 : p = 0
  · subst hp0
    rw [Vol.dirSlots, Vol.dirSlots, if_pos rfl, if_pos rfl]
  · obtain ⟨q, s, hq, hsq, hsub, rfl⟩ := Consistent.exists_owner hp hp0
    refine Vol.dirSlots_congr (he.chain_eq hs h (hsub.owner ⟨q, hq, hsq⟩) ?_).1
    rintro rfl
    exact hno ⟨⟨q, hq, hsq⟩, hsub, rfl⟩

/-- The end marks of a directory stay last when `s0` gets an entry that is none. -/
theorem ended (he : v.Edit fs v' s0) (h : v.Consistent fs) {p : UInt16} (hp : v.Live fs p)
    (hbefore : s0 ∈ v.dirSlots fs p → v.BeforeUsed (v.dirSlots fs p) s0)
    (hne : s0 ∈ v.dirSlots fs p → (v'.entry s0).name.first ≠ 0x00) : v'.Ended (v.dirSlots fs p) := by
  have hold := h.ended p hp
  by_cases hmem : s0 ∈ v.dirSlots fs p
  · refine List.Pairwise.imp_of_mem (fun {a b} ha hb hab => ?_) (List.Pairwise.and hold (hbefore hmem))
    intro hz
    by_cases ha0 : a = s0
    · rw [ha0] at hz
      exact absurd hz (hne hmem)
    · rw [he.entry a ⟨p, hp, ha⟩ ha0] at hz
      by_cases hb0 : b = s0
      · exact absurd hz (hab.2 hb0)
      · rw [he.entry b ⟨p, hp, hb⟩ hb0]
        exact hab.1 hz
  · refine List.Pairwise.imp_of_mem (fun {a b} ha hb hab => ?_) hold
    have ha0 : a ≠ s0 := fun heq => hmem (by rw [← heq]; exact ha)
    have hb0 : b ≠ s0 := fun heq => hmem (by rw [← heq]; exact hb)
    rw [he.entry a ⟨p, hp, ha⟩ ha0, he.entry b ⟨p, hp, hb⟩ hb0]
    exact hab

end Vol.Edit

end Frame

/-! ## Emptying a slot -/

/-- In `v'` the slot `s0` is not in use, and is no end mark. For a slot outside of every live
    directory this says that nothing in use changed. -/
structure Vol.Vacated (fs : Fs) (v v' : Vol) (s0 : Slot) : Prop where
  edit : v.Edit fs v' s0
  notDot : v.InTree fs s0 → entryInUse (v.entry s0) = true → ¬ IsDotName (v.entry s0).name
  unused : v.InTree fs s0 → entryInUse (v'.entry s0) = false
  used : v.InTree fs s0 → (v'.entry s0).name.first ≠ 0x00
  before : ∀ p, v.Live fs p → s0 ∈ v.dirSlots fs p → v.BeforeUsed (v.dirSlots fs p) s0

namespace Vol.Vacated

variable {fs : Fs} {ps : ℕ} {v v' : Vol} {s0 : Slot}

theorem ne_of_inUse (hv : v.Vacated fs v' s0) {s : Slot} (ht : v.InTree fs s)
    (hin : entryInUse (v'.entry s) = true) : s ≠ s0 := by
  rintro rfl
  exact absurd hin (by simp [hv.unused ht])

section

variable (hv : v.Vacated fs v' s0) (hs : fs.Sane ps) (h : v.Consistent fs) {s : Slot} {p : UInt16}

include hv hs h

/-- The directories that are left were there, and the one behind `s0` is gone. -/
theorem live (hp : v'.Live fs p) : v.Live fs p ∧ ¬ v.DirOf fs s0 p := by
  induction hp with
  | root =>
    refine ⟨Live.root, fun hd => ?_⟩
    exact (h.hasChain hd.1 hd.2.1).1.ne_zero hd.2.2
  | @sub q s _ hsq hsub ih =>
    obtain ⟨hq, hno⟩ := ih
    rw [hv.edit.dirSlots_eq hs h hq hno] at hsq
    have hne := hv.ne_of_inUse ⟨q, hq, hsq⟩ hsub.1
    have hentry := hv.edit.entry s ⟨q, hq, hsq⟩ hne
    have hsub' : v.IsSubDir s := by
      unfold Vol.IsSubDir at hsub ⊢
      rwa [hentry] at hsub
    rw [hentry]
    refine ⟨Live.sub hq hsq hsub', fun hd => hne ?_⟩
    exact h.sub_unique ⟨q, hq, hsq⟩ hd.1 hsub' hd.2.1 hd.2.2.symm

theorem dirSlots_eq (hp : v'.Live fs p) : v'.dirSlots fs p = v.dirSlots fs p := by
  obtain ⟨hp', hno⟩ := hv.live hs h hp
  exact hv.edit.dirSlots_eq hs h hp' hno

/-- What is in use in `v'` was in use, with the same entry. -/
theorem inTree_entry (ht : v'.InTree fs s) (hin : entryInUse (v'.entry s) = true) :
    v.InTree fs s ∧ s ≠ s0 ∧ v'.entry s = v.entry s := by
  obtain ⟨p, hp, hsp⟩ := ht
  rw [hv.dirSlots_eq hs h hp] at hsp
  have ht' : v.InTree fs s := ⟨p, (hv.live hs h hp).1, hsp⟩
  have hne := hv.ne_of_inUse ht' hin
  exact ⟨ht', hne, hv.edit.entry s ht' hne⟩

theorem owner (ho : v'.Owner fs s) :
    v.Owner fs s ∧ s ≠ s0 ∧ v'.entry s = v.entry s ∧ v'.ownChain fs s = v.ownChain fs s := by
  obtain ⟨ht, hne, hentry⟩ := hv.inTree_entry hs h ho.1 ho.2.1
  have ho' : v.Owner fs s := by
    refine ⟨ht, ?_⟩
    rw [← hentry]
    exact ho.2
  refine ⟨ho', hne, hentry, ?_⟩
  rw [Vol.ownChain, hentry]
  exact (hv.edit.chain_eq hs h ho' hne).1

theorem consistent :
    v'.Consistent fs where
  chains s ho h2 := by
    obtain ⟨ho', hne, hentry, -⟩ := hv.owner hs h ho
    rw [hentry] at h2 ⊢
    exact (hv.edit.chain_eq hs h ho' hne).2 h2
  disjoint s t ho hot hne := by
    obtain ⟨ho', -, -, hchain⟩ := hv.owner hs h ho
    obtain ⟨hot', -, -, hchain'⟩ := hv.owner hs h hot
    rw [hchain, hchain']
    exact h.disjoint s t ho' hot' hne
  dirCluster s ht hin hdir hname := by
    obtain ⟨ht', -, hentry⟩ := hv.inTree_entry hs h ht hin
    rw [hentry] at hin hdir hname ⊢
    exact h.dirCluster s ht' hin hdir hname
  files s ho hdir := by
    obtain ⟨ho', -, hentry, hchain⟩ := hv.owner hs h ho
    rw [hentry] at hdir
    rw [hentry, hchain]
    exact h.files s ho' hdir
  names p hp s hsp t htp name hhs hht := by
    obtain ⟨-, -, hes⟩ := hv.inTree_entry hs h ⟨p, hp, hsp⟩ hhs.1
    obtain ⟨-, -, het⟩ := hv.inTree_entry hs h ⟨p, hp, htp⟩ hht.1
    rw [hv.dirSlots_eq hs h hp] at hsp htp
    unfold Vol.Holds at hhs hht
    rw [hes] at hhs
    rw [het] at hht
    exact h.names p (hv.live hs h hp).1 s hsp t htp name hhs hht
  ended p hp := by
    have hp' := (hv.live hs h hp).1
    rw [hv.dirSlots_eq hs h hp]
    exact hv.edit.ended h hp' (hv.before p hp') (fun hmem => hv.used ⟨p, hp', hmem⟩)
  rootDots s hsr hin := by
    obtain ⟨-, -, hentry⟩ := hv.inTree_entry hs h ⟨0, Live.root, hsr⟩ hin
    rw [hv.dirSlots_eq hs h Live.root] at hsr
    rw [hentry] at hin ⊢
    exact h.rootDots s hsr hin
  dots p hp s hsp hsub := by
    obtain ⟨ht, hne, hentry⟩ := hv.inTree_entry hs h ⟨p, hp, hsp⟩ hsub.1
    have hlive := Live.sub hp hsp hsub
    have hslots := hv.dirSlots_eq hs h hlive
    have hlive' := (hv.live hs h hlive).1
    rw [hentry] at hlive' hslots
    rw [hv.dirSlots_eq hs h hp] at hsp
    have hsub' : v.IsSubDir s := by
      unfold Vol.IsSubDir at hsub ⊢
      rwa [hentry] at hsub
    -- a dot entry is in use and is not `s0`
    have hkeep : ∀ name target, IsDotName name → v.HasDot fs (v.entry s).clusterLo name target →
        v'.HasDot fs (v.entry s).clusterLo name target := by
      rintro name target hdot ⟨t, ht, hh, hdir, hcl⟩
      have hts : t ≠ s0 := by
        rintro rfl
        exact hv.notDot ⟨_, hlive', ht⟩ hh.1 (by rw [hh.2]; exact hdot)
      have hte := hv.edit.entry t ⟨_, hlive', ht⟩ hts
      refine ⟨t, by rw [hslots]; exact ht, ?_⟩
      unfold Vol.Holds at hh ⊢
      rw [hte]
      exact ⟨hh, hdir, hcl⟩
    obtain ⟨hd, hdd⟩ := h.dots p (hv.live hs h hp).1 s hsp hsub'
    rw [hentry]
    exact ⟨hkeep _ _ (Or.inl rfl) hd, hkeep _ _ (Or.inr rfl) hdd⟩

/-- An empty directory takes no other one with it. -/
theorem live_of_live
    (hempty : v.InTree fs s0 → v.IsSubDir s0 → ∀ t ∈ v.dirSlots fs (v.entry s0).clusterLo, ¬ v.Owner fs t)
    (hp : v.Live fs p) (hno : ¬ v.DirOf fs s0 p) : v'.Live fs p := by
  induction hp with
  | root => exact Live.root
  | @sub q s hq hsq hsub ih =>
    have hqno : ¬ v.DirOf fs s0 q := by
      rintro ⟨ht, hd, rfl⟩
      exact hempty ht hd s hsq (hsub.owner ⟨_, hq, hsq⟩)
    have hne : s ≠ s0 := by
      rintro rfl
      exact hno ⟨⟨q, hq, hsq⟩, hsub, rfl⟩
    have hq' := ih hqno
    have hentry := hv.edit.entry s ⟨q, hq, hsq⟩ hne
    rw [← hentry]
    refine Live.sub hq' (by rw [hv.dirSlots_eq hs h hq']; exact hsq) ?_
    unfold Vol.IsSubDir at hsub ⊢
    rwa [hentry]

theorem owner_of_owner
    (hempty : v.InTree fs s0 → v.IsSubDir s0 → ∀ t ∈ v.dirSlots fs (v.entry s0).clusterLo, ¬ v.Owner fs t)
    (ho : v.Owner fs s) (hne : s ≠ s0) : v'.Owner fs s := by
  obtain ⟨⟨p, hp, hsp⟩, hin, hdot⟩ := ho
  have hno : ¬ v.DirOf fs s0 p := by
    rintro ⟨ht, hd, rfl⟩
    exact hempty ht hd s hsp ⟨⟨_, hp, hsp⟩, hin, hdot⟩
  have hp' := hv.live_of_live hs h hempty hp hno
  unfold Vol.Owner
  rw [hv.edit.entry s ⟨p, hp, hsp⟩ hne]
  exact ⟨⟨p, hp', by rw [hv.dirSlots_eq hs h hp']; exact hsp⟩, hin, hdot⟩

end

/-- Nothing is lost when the chain behind `s0` was freed and no other one hung on it. -/
theorem wellFormed (hv : v.Vacated fs v' s0) (hs : fs.Sane ps) (h : v.WellFormed fs)
    (hempty : v.InTree fs s0 → v.IsSubDir s0 → ∀ t ∈ v.dirSlots fs (v.entry s0).clusterLo, ¬ v.Owner fs t)
    (hfree : v.Owner fs s0 → ∀ c ∈ v.ownChain fs s0, v'.fat c = clusterFree)
    (hfat : ∀ c, (v.Owner fs s0 → c ∉ v.ownChain fs s0) → v'.fat c = v.fat c) :
    v'.WellFormed fs where
  toConsistent := hv.consistent hs h.toConsistent
  unowned c hc hno := by
    by_cases hold : v.Owner fs s0 ∧ c ∈ v.ownChain fs s0
    · exact Or.inl (hfree hold.1 c hold.2)
    · rw [hfat c (fun ho hm => hold ⟨ho, hm⟩)]
      refine h.unowned c hc (fun s ho hm => ?_)
      have hne : s ≠ s0 := by
        rintro rfl
        exact hold ⟨ho, hm⟩
      have ho' := hv.owner_of_owner hs h.toConsistent hempty ho hne
      refine hno s ho' ?_
      rw [(hv.owner hs h.toConsistent ho').2.2.2]
      exact hm

end Vol.Vacated

/-! ## Filling a slot -/

/-- The directory at `c` is new: it has `.` and `..` only, the latter for `p`. -/
structure Vol.NewDir (fs : Fs) (v : Vol) (c p : UInt16) : Prop where
  cluster : fs.IsCluster c
  dot : v.HasDot fs c dotName c
  dotdot : v.HasDot fs c dotdotName p
  only : ∀ t ∈ v.dirSlots fs c, entryInUse (v.entry t) = true → IsDotName (v.entry t).name
  names : ∀ s ∈ v.dirSlots fs c, ∀ t ∈ v.dirSlots fs c, ∀ name,
    v.Holds s name → v.Holds t name → s = t
  ended : v.Ended (v.dirSlots fs c)

/-- In `v'` the slot `s0` of the live directory `p0`, unused in `v`, has an entry of its own with
    a chain of clusters that were free. -/
structure Vol.Inserted (fs : Fs) (v v' : Vol) (s0 : Slot) (p0 : UInt16) : Prop where
  edit : v.Edit fs v' s0
  live : v.Live fs p0
  mem : s0 ∈ v.dirSlots fs p0
  unused : entryInUse (v.entry s0) = false
  inUse : entryInUse (v'.entry s0) = true
  notDot : ¬ IsDotName (v'.entry s0).name
  newName : ∀ s ∈ v.dirSlots fs p0, ¬ v.Holds s (v'.entry s0).name
  before : v.BeforeUsed (v.dirSlots fs p0) s0
  chain : 2 ≤ (v'.entry s0).clusterLo.toNat → v'.HasChain fs (v'.entry s0).clusterLo
  fresh : ∀ c ∈ v'.ownChain fs s0, v.fat c = clusterFree
  file : (v'.entry s0).isDir = false →
    (v'.ownChain fs s0).length = fs.clustersFor (v'.entry s0).size.toNat ∧
      ((v'.entry s0).size = 0 → (v'.entry s0).clusterLo = 0)
  dir : (v'.entry s0).isDir = true → v'.NewDir fs (v'.entry s0).clusterLo p0

namespace Vol.Inserted

variable {fs : Fs} {ps : ℕ} {v v' : Vol} {s0 : Slot} {p0 : UInt16}

section

variable (hi : v.Inserted fs v' s0 p0) {s t : Slot} {p : UInt16}

include hi

theorem not_dirOf (p : UInt16) : ¬ v.DirOf fs s0 p := by
  intro hd
  exact absurd hd.2.1.1 (by simp [hi.unused])

theorem dirSlots_eq (hs : fs.Sane ps) (h : v.Consistent fs) (hp : v.Live fs p) :
    v'.dirSlots fs p = v.dirSlots fs p :=
  hi.edit.dirSlots_eq hs h hp (hi.not_dirOf p)

theorem ne_of_inUse (hin : entryInUse (v.entry s) = true) : s ≠ s0 := by
  rintro rfl
  exact absurd hin (by simp [hi.unused])

section

variable (hs : fs.Sane ps) (h : v.Consistent fs) {s : Slot}

include hs h

/-- Every live directory stays live. -/
theorem live_of_live {p : UInt16} (hp : v.Live fs p) : v'.Live fs p := by
  induction hp with
  | root => exact Live.root
  | @sub q s hq hsq hsub ih =>
    have hentry := hi.edit.entry s ⟨q, hq, hsq⟩ (hi.ne_of_inUse hsub.1)
    rw [← hentry]
    refine Live.sub ih (by rw [hi.dirSlots_eq hs h hq]; exact hsq) ?_
    unfold Vol.IsSubDir at hsub ⊢
    rwa [hentry]

/-- A live directory was live, or is the new one. -/
theorem live_cases {p : UInt16} (hp : v'.Live fs p) :
    v.Live fs p ∨ ((v'.entry s0).isDir = true ∧ p = (v'.entry s0).clusterLo) := by
  induction hp with
  | root => exact Or.inl Live.root
  | @sub q s _ hsq hsub ih =>
    rcases ih with hq | ⟨hdir, rfl⟩
    · rw [hi.dirSlots_eq hs h hq] at hsq
      by_cases hne : s = s0
      · subst hne
        exact Or.inr ⟨hsub.2.1, rfl⟩
      · have hentry := hi.edit.entry s ⟨q, hq, hsq⟩ hne
        unfold Vol.IsSubDir at hsub
        rw [hentry] at hsub ⊢
        exact Or.inl (Live.sub hq hsq hsub)
    · exact absurd ((hi.dir hdir).only s hsq hsub.1) hsub.2.2

/-- The slots of live directories: those of before, and those of the new directory. -/
theorem inTree_cases (ht : v'.InTree fs s) :
    v.InTree fs s ∨ ((v'.entry s0).isDir = true ∧ s ∈ v'.dirSlots fs (v'.entry s0).clusterLo) := by
  obtain ⟨p, hp, hsp⟩ := ht
  rcases hi.live_cases hs h hp with hp' | ⟨hdir, rfl⟩
  · rw [hi.dirSlots_eq hs h hp'] at hsp
    exact Or.inl ⟨p, hp', hsp⟩
  · exact Or.inr ⟨hdir, hsp⟩

theorem owner_cases (ho : v'.Owner fs s) :
    s = s0 ∨ (s ≠ s0 ∧ v.Owner fs s ∧ v'.entry s = v.entry s ∧
      v'.ownChain fs s = v.ownChain fs s) := by
  by_cases hne : s = s0
  · exact Or.inl hne
  · rcases hi.inTree_cases hs h ho.1 with ht | ⟨hdir, hmem⟩
    · have hentry := hi.edit.entry s ht hne
      have ho' : v.Owner fs s := by
        refine ⟨ht, ?_⟩
        rw [← hentry]
        exact ho.2
      refine Or.inr ⟨hne, ho', hentry, ?_⟩
      rw [Vol.ownChain, hentry]
      exact (hi.edit.chain_eq hs h ho' hne).1
    · exact absurd ((hi.dir hdir).only s hmem ho.2.1) ho.2.2

theorem owner_of_owner (ho : v.Owner fs s) : v'.Owner fs s := by
  obtain ⟨⟨p, hp, hsp⟩, hin, hdot⟩ := ho
  unfold Vol.Owner
  rw [hi.edit.entry s ⟨p, hp, hsp⟩ (hi.ne_of_inUse hin)]
  exact ⟨⟨p, hi.live_of_live hs h hp, by rw [hi.dirSlots_eq hs h hp]; exact hsp⟩, hin, hdot⟩

theorem owner_new : v'.Owner fs s0 :=
  ⟨⟨p0, hi.live_of_live hs h hi.live, by rw [hi.dirSlots_eq hs h hi.live]; exact hi.mem⟩,
    hi.inUse, hi.notDot⟩

end

/-- The new chain meets no other one: its clusters were free. -/
theorem new_disjoint (h : v.Consistent fs) (ho : v.Owner fs t) :
    List.Disjoint (v'.ownChain fs s0) (v.ownChain fs t) := by
  intro c hc hct
  exact h.ownChain_ne_free ho hct (hi.fresh c hc)

theorem disjoint (hs : fs.Sane ps) (h : v.Consistent fs) (ho : v'.Owner fs s) (hot : v'.Owner fs t)
    (hne : s ≠ t) : List.Disjoint (v'.ownChain fs s) (v'.ownChain fs t) := by
  rcases hi.owner_cases hs h ho with rfl | ⟨-, ho', -, hchain⟩
  · rcases hi.owner_cases hs h hot with rfl | ⟨-, hot', -, hchain'⟩
    · exact absurd rfl hne
    · rw [hchain']
      exact hi.new_disjoint h hot'
  · rcases hi.owner_cases hs h hot with rfl | ⟨-, hot', -, hchain'⟩
    · rw [hchain]
      exact (hi.new_disjoint h ho').symm
    · rw [hchain, hchain']
      exact h.disjoint s t ho' hot' hne

/-- In a directory that was live, no other slot has the name of the new entry. -/
theorem eq_of_holds (h : v.Consistent fs) (hp : v.Live fs p) (h0 : s0 ∈ v.dirSlots fs p)
    (hsp : s ∈ v.dirSlots fs p) (hh : v'.Holds s (v'.entry s0).name) : s = s0 := by
  by_contra hne
  obtain rfl := h.dir_unique hp hi.live h0 hi.mem
  unfold Vol.Holds at hh
  rw [hi.edit.entry s ⟨p, hp, hsp⟩ hne] at hh
  exact hi.newName s hsp hh

theorem names (h : v.Consistent fs) (hp : v.Live fs p) (hsp : s ∈ v.dirSlots fs p)
    (htp : t ∈ v.dirSlots fs p) {name : Name83} (hhs : v'.Holds s name) (hht : v'.Holds t name) :
    s = t := by
  by_cases hs0 : s = s0
  · subst hs0
    exact (hi.eq_of_holds h hp hsp htp (by rw [hhs.2]; exact hht)).symm
  · by_cases ht0 : t = s0
    · subst ht0
      exact hi.eq_of_holds h hp htp hsp (by rw [hht.2]; exact hhs)
    · unfold Vol.Holds at hhs hht
      rw [hi.edit.entry s ⟨p, hp, hsp⟩ hs0] at hhs
      rw [hi.edit.entry t ⟨p, hp, htp⟩ ht0] at hht
      exact h.names p hp s hsp t htp name hhs hht

/-- A directory that was live keeps its entries `.` and `..`. -/
theorem hasDot (hs : fs.Sane ps) (h : v.Consistent fs) (hp : v.Live fs p) {name : Name83}
    {target : UInt16} (hd : v.HasDot fs p name target) : v'.HasDot fs p name target := by
  obtain ⟨t, ht, hh, hdir, hcl⟩ := hd
  have hte := hi.edit.entry t ⟨_, hp, ht⟩ (hi.ne_of_inUse hh.1)
  refine ⟨t, by rw [hi.dirSlots_eq hs h hp]; exact ht, ?_⟩
  unfold Vol.Holds at hh ⊢
  rw [hte]
  exact ⟨hh, hdir, hcl⟩

theorem consistent (hs : fs.Sane ps) (h : v.Consistent fs) :
    v'.Consistent fs where
  chains s ho h2 := by
    rcases hi.owner_cases hs h ho with rfl | ⟨hne, ho', hentry, -⟩
    · exact hi.chain h2
    · rw [hentry] at h2 ⊢
      exact (hi.edit.chain_eq hs h ho' hne).2 h2
  disjoint _ _ ho hot hne := hi.disjoint hs h ho hot hne
  dirCluster s ht hin hdir hname := by
    rcases hi.inTree_cases hs h ht with ht' | ⟨hdir0, hmem⟩
    · by_cases hne : s = s0
      · subst hne
        exact (hi.dir hdir).cluster.1
      · rw [hi.edit.entry s ht' hne] at hin hdir hname ⊢
        exact h.dirCluster s ht' hin hdir hname
    · -- in the new directory this is the entry `.`
      have hnew := hi.dir hdir0
      have hdot := (hnew.only s hmem hin).resolve_right hname
      obtain ⟨t, htm, hth, -, htc⟩ := hnew.dot
      rw [hnew.names s hmem t htm dotName ⟨hin, hdot⟩ hth, htc]
      exact hnew.cluster.1
  files s ho hdir := by
    rcases hi.owner_cases hs h ho with rfl | ⟨-, ho', hentry, hchain⟩
    · exact hi.file hdir
    · rw [hentry] at hdir
      rw [hentry, hchain]
      exact h.files s ho' hdir
  names p hp s hsp t htp name hhs hht := by
    rcases hi.live_cases hs h hp with hp' | ⟨hdir, rfl⟩
    · rw [hi.dirSlots_eq hs h hp'] at hsp htp
      exact hi.names h hp' hsp htp hhs hht
    · exact (hi.dir hdir).names s hsp t htp name hhs hht
  ended p hp := by
    rcases hi.live_cases hs h hp with hp' | ⟨hdir, rfl⟩
    · rw [hi.dirSlots_eq hs h hp']
      refine hi.edit.ended h hp' (fun hmem => ?_) (fun _ => name_ne_zero_of_inUse hi.inUse)
      obtain rfl := h.dir_unique hp' hi.live hmem hi.mem
      exact hi.before
    · exact (hi.dir hdir).ended
  rootDots s hsr hin := by
    rw [hi.dirSlots_eq hs h Live.root] at hsr
    by_cases hne : s = s0
    · rw [hne]
      exact hi.notDot
    · rw [hi.edit.entry s ⟨0, Live.root, hsr⟩ hne] at hin ⊢
      exact h.rootDots s hsr hin
  dots p hp s hsp hsub := by
    rcases hi.live_cases hs h hp with hp' | ⟨hdir, rfl⟩
    · rw [hi.dirSlots_eq hs h hp'] at hsp
      by_cases hne : s = s0
      · subst hne
        obtain rfl := h.dir_unique hp' hi.live hsp hi.mem
        have hnew := hi.dir hsub.2.1
        exact ⟨hnew.dot, hnew.dotdot⟩
      · have hentry := hi.edit.entry s ⟨p, hp', hsp⟩ hne
        have hsub' : v.IsSubDir s := by
          unfold Vol.IsSubDir at hsub ⊢
          rwa [hentry] at hsub
        have hlive := Live.sub hp' hsp hsub'
        obtain ⟨hd, hdd⟩ := h.dots p hp' s hsp hsub'
        rw [hentry]
        exact ⟨hi.hasDot hs h hlive hd, hi.hasDot hs h hlive hdd⟩
    · exact absurd ((hi.dir hdir).only s hsp hsub.1) hsub.2.2

theorem wellFormed (hs : fs.Sane ps) (h : v.WellFormed fs)
    (hfat : ∀ c ∉ v'.ownChain fs s0, v'.fat c = v.fat c) : v'.WellFormed fs where
  toConsistent := hi.consistent hs h.toConsistent
  unowned c hc hno := by
    have hcons := h.toConsistent
    rw [hfat c (hno s0 (hi.owner_new hs hcons))]
    refine h.unowned c hc (fun s ho hm => ?_)
    have ho' := hi.owner_of_owner hs hcons ho
    refine hno s ho' ?_
    rcases hi.owner_cases hs hcons ho' with rfl | ⟨-, -, -, hchain⟩
    · exact absurd ho.2.1 (by simp [hi.unused])
    · rw [hchain]
      exact hm

end

end Vol.Inserted

end OctoOS
