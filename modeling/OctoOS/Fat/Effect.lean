import OctoOS.Fat.Ops
import OctoOS.Fat.Names

set_option autoImplicit false

/-! # The effect of an outcome

Each successful outcome is a `vacate`, an `insert`, or one after the other: overwriting a file is
deleting its entry and entering the new one in the same slot. -/

namespace OctoOS

open Atomic Tiling Linked

section Effect

variable {fs : Fs} {ps : ℕ} {v w : Vol} {s0 : Slot} {cs : List UInt16} {s : Slot} {c p : UInt16}

theorem storeBytes_storeBytes (s : Sector) (o : ℕ) {a b : Bytes} (h : a.length = b.length) :
    storeBytes (storeBytes s o a) o b = storeBytes s o b := by
  funext i
  simp only [storeBytes, h]
  split_ifs <;> rfl

/-- The last entry stored in a slot stays. -/
theorem Vol.setEntry_setEntry (v : Vol) (s : Slot) (d e : Dirent) :
    (v.setEntry s d).setEntry s e = v.setEntry s e := by
  have harea : (v.setEntry s d).area s.area = storeBytes (v.area s.area) (s.idx * 32) d.bytes :=
    Vol.setArea_area_self ..
  unfold Vol.setEntry at harea ⊢
  rw [harea, storeBytes_storeBytes _ _ (by simp)]
  simp [Vol.setArea]

/-- The area of a slot of a live directory is the root area or lies on the chain of a
    directory. -/
theorem Vol.area_of_inTree (ht : v.InTree fs s) :
    s.area = 0 ∨ ∃ t, v.InTree fs t ∧ v.IsSubDir t ∧ s.area ∈ v.ownChain fs t := by
  obtain ⟨p, hp, hmem⟩ := ht
  obtain ⟨-, ⟨-, ha⟩ | ⟨hp0, hc⟩⟩ := Vol.mem_dirSlots.1 hmem
  · exact Or.inl ha
  · obtain ⟨q, t, hq, htq, hsub, rfl⟩ := Vol.Consistent.exists_owner hp hp0
    exact Or.inr ⟨t, ⟨q, hq, htq⟩, hsub, hc⟩

/-- A change that keeps the other owners' chains and every directory, then a store to `s0`. -/
theorem Vol.Edit.setEntry (h : v.Consistent fs) (hin : v.InTree fs s0) (d : Dirent)
    (hfat : ∀ s, v.Owner fs s → s ≠ s0 → ∀ c ∈ v.ownChain fs s, w.fat c = v.fat c)
    (hroot : w.area 0 = v.area 0)
    (harea : ∀ s, v.Owner fs s → (s ≠ s0 ∨ v.IsSubDir s0) → ∀ c ∈ v.ownChain fs s,
      w.area c = v.area c) : v.Edit fs (w.setEntry s0 d) s0 where
  fat := hfat
  entry s ht hne := by
    rw [Vol.setEntry_entry_of_ne _ _ hne]
    have hsame : w.area s.area = v.area s.area := by
      rcases Vol.area_of_inTree ht with h0 | ⟨t, htt, hsub, hc⟩
      · rw [h0, hroot]
      · refine harea t (hsub.owner htt) ?_ _ hc
        by_cases hts : t = s0
        · exact Or.inr (by rw [← hts]; exact hsub)
        · exact Or.inl hts
    rw [Vol.entry, Vol.entry, hsame]
  area s ho hne hfile c hc := by
    -- a file's cluster is not the one the slot lies in
    have hca : c ≠ s0.area := by
      intro heq
      rcases Vol.area_of_inTree hin with h0 | ⟨t, htt, hsub, hct⟩
      · rw [heq, h0] at hc
        exact absurd rfl (Vol.isCluster_of_mem_chain hc).ne_zero
      · rw [← heq] at hct
        have hst := h.owner_unique ho (hsub.owner htt) hc hct
        rw [hst, hsub.2.1] at hfile
        cases hfile
    rw [Vol.setEntry_area_of_ne _ _ hca]
    exact harea s ho (Or.inl hne) c hc

/-! ## Removing -/

theorem deleted_head (d : Dirent) : (deleted d).name.first = 0xE5 := by
  simp [deleted, Name83.first, Name83.setFirst]

theorem deleted_unused (d : Dirent) : entryInUse (deleted d) = false := by
  simp [entryInUse, deleted_head]

theorem Vol.free_fat_of_not_mem {l : List UInt16} (hc : c ∉ l) : (v.free l).fat c = v.fat c := if_neg hc

theorem Vol.free_fat_of_mem {l : List UInt16} (hc : c ∈ l) : (v.free l).fat c = clusterFree := if_pos hc

/-- Deleting an entry and its chain. -/
theorem Vol.vacated_deleted (h : v.Consistent fs) (ho : v.Owner fs s0) :
    v.Vacated fs ((v.free (v.ownChain fs s0)).setEntry s0 (deleted (v.entry s0))) s0 where
  edit := by
    refine Vol.Edit.setEntry h ho.1 _ (fun s hos hne c hc => ?_) rfl (fun _ _ _ _ _ => rfl)
    exact Vol.free_fat_of_not_mem (fun hc' => h.disjoint s s0 hos ho hne hc hc')
  notDot := fun _ _ => ho.2.2
  unused _ := by rw [Vol.setEntry_entry_self, deleted_unused]
  used _ := by
    rw [Vol.setEntry_entry_self, deleted_head]
    decide
  before := by
    intro p hp _
    exact (h.ended p hp).beforeUsed (name_ne_zero_of_inUse ho.2.1)

/-! ## Entering a file -/

/-- The slot of an entry lies outside a fresh chain. -/
theorem Vol.Consistent.area_not_free (h : v.Consistent fs) (ht : v.InTree fs s)
    (hc : fs.IsCluster c) (hz : v.fat c = clusterFree) : s.area ≠ c := by
  rintro rfl
  rcases Vol.area_of_inTree ht with h0 | ⟨t, htt, hsub, hct⟩
  · exact hc.ne_zero h0
  · exact h.ownChain_ne_free (hsub.owner htt) hct hz

theorem Vol.Wrote.setEntry {data : Bytes} (hw : v.Wrote fs w data cs) (s : Slot) (d : Dirent)
    (hs : s.area ∉ cs) : (v.setEntry s d).Wrote fs (w.setEntry s d) data cs where
  length := hw.length
  fresh := hw.fresh
  links := hw.links
  fat := hw.fat
  area c hc := by
    by_cases heq : c = s.area
    · rw [heq, Vol.setEntry, Vol.setArea_area_self, Vol.setEntry, Vol.setArea_area_self,
        hw.area _ hs]
    · rw [Vol.setEntry_area_of_ne _ _ heq, Vol.setEntry_area_of_ne _ _ heq, hw.area c hc]
  data := by
    have hsame : (w.setEntry s d).chainData fs cs = w.chainData fs cs :=
      Vol.chainData_congr (fun c hc =>
        Vol.setEntry_area_of_ne _ _ (fun heq => hs (by rw [← heq]; exact hc)))
    rw [hsame]
    exact hw.data
  cwd := hw.cwd
  cwdPath := hw.cwdPath
  heap := hw.heap

/-- The chain of the new entry. -/
theorem Vol.Wrote.chain_eq (hs : fs.Sane ps) {data : Bytes} {cs : List UInt16}
    (hw : v.Wrote fs w data cs) : w.chain fs (cs.headD 0) = cs := by
  by_cases hne : cs = []
  · subst hne
    exact Vol.chain_of_not_isCluster (fun hc => hc.ne_zero rfl)
  · exact Vol.chain_eq_of_links hs (hw.links hne)

theorem Vol.Wrote.ownChain_eq (hs : fs.Sane ps) {data : Bytes} (hw : v.Wrote fs w data cs)
    (e : Dirent) : (w.setEntry s0 (fileEntry e cs data)).ownChain fs s0 = cs := by
  rw [Vol.ownChain, Vol.setEntry_entry_self]
  exact hw.chain_eq hs

/-- A fresh chain and an entry do not touch what else is in use. -/
theorem Vol.Wrote.edit {data : Bytes} (hw : v.Wrote fs w data cs) (h : v.Consistent fs)
    (hin : v.InTree fs s0) (d : Dirent) : v.Edit fs (w.setEntry s0 d) s0 := by
  have hkeep : ∀ s, v.Owner fs s → ∀ c ∈ v.ownChain fs s, c ∉ cs := by
    intro s ho c hc hcs
    exact h.ownChain_ne_free ho hc (hw.fresh c hcs).2
  refine Vol.Edit.setEntry h hin _ (fun s ho _ c hc => hw.fat c (hkeep s ho c hc)) ?_
    (fun s ho _ c hc => hw.area c (hkeep s ho c hc))
  exact hw.area 0 (fun h0 => (hw.fresh 0 h0).1.ne_zero rfl)

/-- Entering a file that was written to free clusters in an unused slot. -/
theorem Vol.inserted_file (hs : fs.Sane ps) (h : v.Consistent fs) (hp : v.Live fs p)
    (hmem : s0 ∈ v.dirSlots fs p) (hunused : entryInUse (v.entry s0) = false)
    (hbefore : v.BeforeUsed (v.dirSlots fs p) s0) {e : Dirent} (hin : entryInUse e = true)
    (hfile : e.isDir = false) (hdot : ¬ IsDotName e.name)
    (hnew : ∀ s ∈ v.dirSlots fs p, ¬ v.Holds s e.name) {data : Bytes} (hlen : data.length < 2 ^ 32)
    (hw : v.Wrote fs w data cs) : v.Inserted fs (w.setEntry s0 (fileEntry e cs data)) s0 p := by
  have hin0 : v.InTree fs s0 := ⟨p, hp, hmem⟩
  have hchain : (w.setEntry s0 (fileEntry e cs data)).chain fs (cs.headD 0) = cs := hw.chain_eq hs
  have hown : (w.setEntry s0 (fileEntry e cs data)).ownChain fs s0 = cs := hw.ownChain_eq hs e
  have hsize : (UInt32.ofNat data.length).toNat = data.length := by
    rw [UInt32.toNat_ofNat']
    exact Nat.mod_eq_of_lt hlen
  refine ⟨hw.edit h hin0 _, hp, hmem, hunused, ?_, ?_, ?_, hbefore, ?_, ?_, ?_, ?_⟩
  · rw [Vol.setEntry_entry_self]
    exact hin
  · rw [Vol.setEntry_entry_self]
    exact hdot
  · rw [Vol.setEntry_entry_self]
    exact hnew
  · rw [Vol.setEntry_entry_self]
    intro h2
    have hne : cs ≠ [] := by
      rintro rfl
      exact absurd h2 (by simp [fileEntry])
    have hl := hw.links hne
    refine ⟨hl.ok_of_mem (hl.mem_self hne), ?_⟩
    change Links w.fat _ _ (cs.headD 0) ((w.setEntry s0 (fileEntry e cs data)).chain fs (cs.headD 0))
    rw [hchain]
    exact hl
  · rw [hown]
    exact fun c hc => (hw.fresh c hc).2
  · intro _
    rw [hown, Vol.setEntry_entry_self]
    refine ⟨by rw [hw.length]; exact congrArg fs.clustersFor hsize.symm, fun hz => ?_⟩
    have hnil : cs = [] := by
      have hz' : data.length = 0 := by
        rw [← hsize]
        exact congrArg UInt32.toNat hz
      have := hw.length
      rw [hz', Fs.clustersFor_zero hs] at this
      exact List.length_eq_zero_iff.1 this
    rw [hnil]
    rfl
  · intro hd
    rw [Vol.setEntry_entry_self] at hd
    have : e.isDir = true := hd
    rw [hfile] at this
    cases this

/-! ## Entering a directory -/

theorem dotEntry_holds (c : UInt16) : entryInUse (dotEntry c) = true ∧ (dotEntry c).name = dotName := by
  refine ⟨?_, rfl⟩
  have hhead : (dotEntry c).name.first = dot := name83_head ..
  have hattr : (dotEntry c).attr = attrDir := rfl
  simp only [entryInUse, hhead, hattr]
  decide

theorem dotdotEntry_holds (c : UInt16) :
    entryInUse (dotdotEntry c) = true ∧ (dotdotEntry c).name = dotdotName := by
  refine ⟨?_, rfl⟩
  have hhead : (dotdotEntry c).name.first = dot := name83_head ..
  have hattr : (dotdotEntry c).attr = attrDir := rfl
  simp only [entryInUse, hhead, hattr]
  decide

theorem isDir_of_attr {d : Dirent} (h : d.attr = attrDir) : d.isDir = true := by
  rw [Dirent.isDir, h]
  decide

theorem dirEntry_inUse {name : Name83} (h0 : name.first ≠ 0x00) (h1 : name.first ≠ 0xE5) :
    entryInUse { dirEntry c with name := name } = true := by
  have hattr : (dirEntry c).attr = attrDir := rfl
  simp only [entryInUse, hattr, h0, h1, ne_eq, not_false_eq_true, decide_true, Bool.true_and]
  decide

/-- The entries of the cluster `fat_mkdir` fills. -/
theorem Vol.mkdirAt_entry (v : Vol) (parent : UInt16) (name : Name83) (hsc : s.area ≠ c) (i : ℕ) :
    (i = 0 → (v.mkdirAt parent name s c).entry ⟨c, i⟩ = dotEntry c) ∧
    (i = 1 → (v.mkdirAt parent name s c).entry ⟨c, i⟩ = dotdotEntry parent) ∧
    (2 ≤ i → ((v.mkdirAt parent name s c).entry ⟨c, i⟩).name.first = 0x00) := by
  have hne : (⟨c, i⟩ : Slot) ≠ s := fun heq => hsc (by rw [← heq])
  unfold Vol.mkdirAt
  rw [Vol.setEntry_entry_of_ne _ _ hne]
  refine ⟨?_, ?_, fun h2 => ?_⟩
  · rintro rfl
    rw [Vol.setEntry_entry_of_ne _ _ (by simp), Vol.setEntry_entry_self]
  · rintro rfl
    exact Vol.setEntry_entry_self ..
  · have hn1 : (⟨c, i⟩ : Slot) ≠ ⟨c, 1⟩ := fun heq => by
      have := (Slot.mk.inj heq).2
      omega
    have hn0 : (⟨c, i⟩ : Slot) ≠ ⟨c, 0⟩ := fun heq => by
      have := (Slot.mk.inj heq).2
      omega
    rw [Vol.setEntry_entry_of_ne _ _ hn1, Vol.setEntry_entry_of_ne _ _ hn0, Vol.entry,
      Vol.setArea_area_self]
    simp [readDirent, Name83.first]

/-- The cluster is a chain of its own. -/
theorem Vol.mkdirAt_links (v : Vol) (parent : UInt16) (name : Name83) (s : Slot)
    (hc : fs.IsCluster c) : Links (v.mkdirAt parent name s c).fat fs.IsCluster isEoc c [c] := by
  refine Links.cons_iff.2 ⟨rfl, hc, Links.nil_iff.2 ?_⟩
  have hfat : (v.mkdirAt parent name s c).fat c = clusterEoc := Function.update_self ..
  rw [hfat]
  decide

theorem Vol.mkdirAt_dirSlots (hs : fs.Sane ps) (v : Vol) (parent : UInt16) (name : Name83)
    (s : Slot) (hc : fs.IsCluster c) :
    (v.mkdirAt parent name s c).dirSlots fs c = fs.areaSlots c := by
  rw [Vol.dirSlots, if_neg hc.ne_zero, Vol.chain_eq_of_links hs (v.mkdirAt_links parent name s hc),
    List.flatMap_singleton]

/-- Every slot of the new directory is one of the first two, or an end mark. -/
theorem Vol.mkdirAt_slot_cases (v : Vol) (parent : UInt16) (name : Name83) {t : Slot}
    (hsc : s.area ≠ c) (ht : t ∈ fs.areaSlots c) :
    t = ⟨c, 0⟩ ∨ t = ⟨c, 1⟩ ∨
      (2 ≤ t.idx ∧ ((v.mkdirAt parent name s c).entry t).name.first = 0x00) := by
  obtain ⟨rfl, -⟩ := Fs.mem_areaSlots.1 ht
  rcases Nat.lt_or_ge t.idx 2 with hlt | hge
  · rcases Nat.eq_zero_or_pos t.idx with h0 | hpos
    · exact Or.inl (by cases t; simp_all)
    · have h1 : t.idx = 1 := by omega
      exact Or.inr (Or.inl (by cases t; simp_all))
  · exact Or.inr (Or.inr ⟨hge, (Vol.mkdirAt_entry v parent name hsc t.idx).2.2 hge⟩)

/-- What is in use in the new directory is `.` or `..`. -/
theorem Vol.mkdirAt_used (v : Vol) (parent : UInt16) (name : Name83) {t : Slot} (hsc : s.area ≠ c)
    (ht : t ∈ fs.areaSlots c) (hin : entryInUse ((v.mkdirAt parent name s c).entry t) = true) :
    (t = ⟨c, 0⟩ ∧ ((v.mkdirAt parent name s c).entry t).name = dotName) ∨
      (t = ⟨c, 1⟩ ∧ ((v.mkdirAt parent name s c).entry t).name = dotdotName) := by
  rcases Vol.mkdirAt_slot_cases v parent name hsc ht with rfl | rfl | ⟨-, hz⟩
  · rw [(Vol.mkdirAt_entry v parent name hsc 0).1 rfl]
    exact Or.inl ⟨rfl, rfl⟩
  · rw [(Vol.mkdirAt_entry v parent name hsc 1).2.1 rfl]
    exact Or.inr ⟨rfl, rfl⟩
  · exact absurd hz (name_ne_zero_of_inUse hin)

/-- The end marks of the new directory are last. -/
theorem Vol.mkdirAt_ended (v : Vol) (parent : UInt16) (name : Name83) (hsc : s.area ≠ c) :
    (v.mkdirAt parent name s c).Ended (fs.areaSlots c) := by
  -- the slots lie in order of their index
  have hord : (fs.areaSlots c).Pairwise (fun a b => a.idx < b.idx) :=
    List.pairwise_map.2 List.pairwise_lt_range
  refine List.Pairwise.imp_of_mem (fun {a b} ha hb hlt hz => ?_) hord
  rcases Vol.mkdirAt_slot_cases v parent name hsc ha with rfl | rfl | ⟨h2, -⟩
  · rw [(Vol.mkdirAt_entry v parent name hsc 0).1 rfl] at hz
    exact absurd hz (name_ne_zero_of_inUse (dotEntry_holds c).1)
  · rw [(Vol.mkdirAt_entry v parent name hsc 1).2.1 rfl] at hz
    exact absurd hz (name_ne_zero_of_inUse (dotdotEntry_holds parent).1)
  · rcases Vol.mkdirAt_slot_cases v parent name hsc hb with rfl | rfl | ⟨-, hz'⟩
    · simp only at hlt
      omega
    · simp only at hlt
      omega
    · exact hz'

/-- The new directory holds `.` and `..` and nothing else. -/
theorem Vol.mkdirAt_newDir (hs : fs.Sane ps) (v : Vol) (parent : UInt16) (name : Name83)
    (hc : fs.IsCluster c) (hsc : s.area ≠ c) :
    (v.mkdirAt parent name s c).NewDir fs c parent ∧
      (v.mkdirAt parent name s c).chain fs c = [c] ∧ (v.mkdirAt parent name s c).HasChain fs c := by
  have hlinks := v.mkdirAt_links parent name s hc
  have hchain := Vol.chain_eq_of_links hs hlinks
  have hslots := v.mkdirAt_dirSlots hs parent name s hc
  have hcount : 16 ≤ fs.slotCount c := by
    have := hs.spcPos
    rw [Fs.slotCount, Fs.areaSectors, if_neg hc.ne_zero]
    omega
  have hmem : ∀ i, i < 16 → (⟨c, i⟩ : Slot) ∈ (v.mkdirAt parent name s c).dirSlots fs c := by
    intro i hi
    rw [hslots]
    exact Fs.mem_areaSlots.2 ⟨rfl, by simp only; omega⟩
  refine ⟨⟨hc, ⟨⟨c, 0⟩, hmem 0 (by omega), ?_⟩, ⟨⟨c, 1⟩, hmem 1 (by omega), ?_⟩, ?_, ?_, ?_⟩, hchain,
    hc, ?_⟩
  · unfold Vol.Holds
    rw [(Vol.mkdirAt_entry v parent name hsc 0).1 rfl]
    exact ⟨dotEntry_holds c, isDir_of_attr rfl, rfl⟩
  · unfold Vol.Holds
    rw [(Vol.mkdirAt_entry v parent name hsc 1).2.1 rfl]
    exact ⟨dotdotEntry_holds parent, isDir_of_attr rfl, rfl⟩
  · intro t ht hin
    rw [hslots] at ht
    exact (Vol.mkdirAt_used v parent name hsc ht hin).imp And.right And.right
  · rintro a ha b hb n ⟨hina, rfl⟩ ⟨hinb, hname⟩
    rw [hslots] at ha hb
    have hb' := Vol.mkdirAt_used v parent name hsc hb hinb
    rw [hname] at hb'
    rcases Vol.mkdirAt_used v parent name hsc ha hina with ⟨rfl, hna⟩ | ⟨rfl, hna⟩
    · rcases hb' with ⟨hbc, -⟩ | ⟨-, hnb⟩
      · exact hbc.symm
      · exact absurd (hna.symm.trans hnb) dotName_ne_dotdotName
    · rcases hb' with ⟨-, hnb⟩ | ⟨hbc, -⟩
      · exact absurd (hnb.symm.trans hna) dotName_ne_dotdotName
      · exact hbc.symm
  · rw [hslots]
    exact v.mkdirAt_ended parent name hsc
  · rw [hchain]
    exact hlinks

theorem Vol.mkdirAt_edit (h : v.Consistent fs) (hin : v.InTree fs s0) (p : UInt16) (name : Name83)
    (hc : fs.IsCluster c) (hz : v.fat c = clusterFree) : v.Edit fs (v.mkdirAt p name s0 c) s0 := by
  have hkeep : ∀ s, v.Owner fs s → ∀ x ∈ v.ownChain fs s, x ≠ c := by
    rintro s ho x hx rfl
    exact h.ownChain_ne_free ho hx hz
  refine Vol.Edit.setEntry h hin _ (fun s ho _ x hx => ?_) ?_ (fun s ho _ x hx => ?_)
  · exact Function.update_of_ne (hkeep s ho x hx) _ _
  · rw [Vol.setEntry_area_of_ne _ _ hc.ne_zero.symm, Vol.setEntry_area_of_ne _ _ hc.ne_zero.symm,
      Vol.setArea_area_of_ne _ _ hc.ne_zero.symm, Vol.setFat_area]
  · have hxc := hkeep s ho x hx
    rw [Vol.setEntry_area_of_ne _ _ hxc, Vol.setEntry_area_of_ne _ _ hxc,
      Vol.setArea_area_of_ne _ _ hxc, Vol.setFat_area]

/-- Entering a new directory in an unused slot. -/
theorem Vol.inserted_dir (hs : fs.Sane ps) (h : v.Consistent fs) (hp : v.Live fs p)
    (hmem : s0 ∈ v.dirSlots fs p) (hunused : entryInUse (v.entry s0) = false)
    (hbefore : v.BeforeUsed (v.dirSlots fs p) s0) {name : Name83} (h0 : name.first ≠ 0x00)
    (h1 : name.first ≠ 0xE5) (hdot : name.first ≠ dot)
    (hnew : ∀ s ∈ v.dirSlots fs p, ¬ v.Holds s name) (hc : fs.IsCluster c)
    (hz : v.fat c = clusterFree) : v.Inserted fs (v.mkdirAt p name s0 c) s0 p := by
  have hin0 : v.InTree fs s0 := ⟨p, hp, hmem⟩
  have hsc := h.area_not_free hin0 hc hz
  obtain ⟨hdir, hchain, hhas⟩ := Vol.mkdirAt_newDir hs v p name hc hsc
  have hentry : (v.mkdirAt p name s0 c).entry s0 = { dirEntry c with name := name } :=
    Vol.setEntry_entry_self ..
  have hown : (v.mkdirAt p name s0 c).ownChain fs s0 = [c] := by
    rw [Vol.ownChain, hentry]
    exact hchain
  refine ⟨Vol.mkdirAt_edit h hin0 p name hc hz, hp, hmem, hunused, ?_, ?_, ?_, hbefore, ?_, ?_, ?_,
    ?_⟩
  · rw [hentry]
    exact dirEntry_inUse h0 h1
  · rw [hentry]
    exact fun hd => hdot hd.head
  · rw [hentry]
    exact hnew
  · rw [hentry]
    exact fun _ => hhas
  · rw [hown]
    intro x hx
    rw [List.mem_singleton.1 hx]
    exact hz
  · intro hfile
    rw [hentry, isDir_of_attr rfl] at hfile
    cases hfile
  · rw [hentry]
    exact fun _ => hdir

/-! ## Nothing in use changed -/

/-- A slot of no area. -/
def noSlot : Slot := ⟨1, 0⟩

theorem Vol.noSlot_not_inTree : ¬ v.InTree fs noSlot := by
  rintro ⟨p, -, hmem⟩
  rcases (Vol.isSlot_of_mem_dirSlots hmem).1 with h | h
  · cases h
  · exact absurd h.1 (by decide)

theorem Vol.Consistent.not_mem_freeSet (h : v.Consistent fs) (ho : v.Owner fs s)
    (hc : c ∈ v.ownChain fs s) : c ∉ v.freeSet fs := by
  intro hf
  exact h.ownChain_ne_free ho hc (Vol.mem_freeSet.1 hf).2

/-- A failed write changes nothing that is in use. -/
theorem Vol.SameUsed.vacated (hu : v.SameUsed fs w) (h : v.Consistent fs) :
    v.Vacated fs w noSlot where
  edit := by
    refine ⟨fun _ _ _ c _ => by rw [hu.fat], fun s ht _ => ?_, fun s ho _ _ c hc => ?_⟩
    · have hsame : w.area s.area = v.area s.area := by
        refine hu.area _ ?_
        rcases Vol.area_of_inTree ht with h0 | ⟨t, htt, hsub, hc⟩
        · rw [h0]
          intro hf
          exact (Vol.mem_freeSet.1 hf).1.ne_zero rfl
        · exact h.not_mem_freeSet (hsub.owner htt) hc
      rw [Vol.entry, Vol.entry, hsame]
    · exact hu.area c (h.not_mem_freeSet ho hc)
  notDot ht := absurd ht Vol.noSlot_not_inTree
  unused ht := absurd ht Vol.noSlot_not_inTree
  used ht := absurd ht Vol.noSlot_not_inTree
  before p hp hmem := absurd ⟨p, hp, hmem⟩ Vol.noSlot_not_inTree

/-- A volume with the same disk contents. -/
theorem Vol.vacated_of_same (hfat : w.fat = v.fat) (harea : w.area = v.area) :
    v.Vacated fs w noSlot where
  edit := by
    refine ⟨fun _ _ _ c _ => by rw [hfat], fun s _ _ => ?_, fun _ _ _ _ c _ => by rw [harea]⟩
    unfold Vol.entry
    rw [harea]
  notDot ht := absurd ht Vol.noSlot_not_inTree
  unused ht := absurd ht Vol.noSlot_not_inTree
  used ht := absurd ht Vol.noSlot_not_inTree
  before p hp hmem := absurd ⟨p, hp, hmem⟩ Vol.noSlot_not_inTree

/-! ## Overwriting -/

/-- Overwriting a file is deleting it and entering it again. -/
theorem Vol.overwrite_steps (hs : fs.Sane ps) (h : v.Consistent fs) (hp : v.Live fs p)
    (hmem : s0 ∈ v.dirSlots fs p) (ho : v.Owner fs s0) (hfile : (v.entry s0).isDir = false)
    {data : Bytes} (hlen : data.length < 2 ^ 32)
    (hw : (v.free (v.ownChain fs s0)).Wrote fs w data cs) :
    ∃ v1, v1 = (v.free (v.ownChain fs s0)).setEntry s0 (deleted (v.entry s0)) ∧
      v.Vacated fs v1 s0 ∧
      v1.Inserted fs (w.setEntry s0 (fileEntry (v.entry s0) cs data)) s0 p ∧
      ∀ c ∉ cs, (w.setEntry s0 (fileEntry (v.entry s0) cs data)).fat c = v1.fat c := by
  have hvac := Vol.vacated_deleted h ho
  have hcons := hvac.consistent hs h
  refine ⟨_, rfl, hvac, ?_, hw.fat⟩
  have hno : ¬ v.DirOf fs s0 p := by
    rintro ⟨-, hd, -⟩
    rw [hd.2.1] at hfile
    cases hfile
  have hp1 := hvac.live_of_live hs h (fun _ hd => by
    rw [hd.2.1] at hfile
    exact absurd hfile (by simp)) hp hno
  have hslots := hvac.dirSlots_eq hs h hp1
  have hmem1 : s0 ∈ ((v.free (v.ownChain fs s0)).setEntry s0 (deleted (v.entry s0))).dirSlots fs p := by
    rw [hslots]
    exact hmem
  -- the slot is in the way of no fresh cluster
  have hsc : s0.area ∉ cs := by
    intro hc
    exact hcons.area_not_free ⟨p, hp1, hmem1⟩ (hw.fresh _ hc).1 (hw.fresh _ hc).2 rfl
  have hw1 := hw.setEntry s0 (deleted (v.entry s0)) hsc
  rw [← Vol.setEntry_setEntry w s0 (deleted (v.entry s0))]
  refine Vol.inserted_file hs hcons hp1 hmem1 (hvac.unused ho.1) ?_ ho.2.1 hfile ho.2.2
    (fun t ht hh => ?_) hlen hw1
  · exact (hcons.ended p hp1).beforeUsed (hvac.used ho.1)
  · -- no other entry of the directory has this name
    rw [hslots] at ht
    have hne := hvac.ne_of_inUse ⟨p, hp, ht⟩ hh.1
    have hentry := hvac.edit.entry t ⟨p, hp, ht⟩ hne
    unfold Vol.Holds at hh
    rw [hentry] at hh
    exact hne (h.names p hp t ht s0 hmem _ hh ⟨ho.2.1, rfl⟩)

end Effect

end OctoOS
