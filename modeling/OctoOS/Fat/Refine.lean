import OctoOS.Fat.Tree

set_option autoImplicit false

/-! # The driver refines the tree

A successful call changes the tree of the volume in the one lookup its path ends with. Everything
the callers can rely on follows from that: the path denotes what was written, nothing, or the new
directory, and a path that does not make this lookup denotes what it did before. -/

namespace OctoOS

open NameTree

/-- The tree of `v'` is that of `v`, except that `name` stands for `x` in the directory `p`. -/
structure Vol.Update (fs : Fs) (v v' : Vol) (p : UInt16) (name : Name83)
    (x : Option (Node UInt16 Bytes)) : Prop where
  agree : Agree (v.tree fs) (v'.tree fs) (Lookup p name) (fun i => v.Live fs i ∧ v'.Live fs i)
  live : v'.Live fs p
  hit : ∀ comp, to83 comp = some name → v'.tree fs p comp = x
  cwd : v'.cwd = v.cwd
  cwdLive : v.Live fs v.cwd ∧ v'.Live fs v.cwd

/-- The tree has no directory under `name` in `p`. -/
def Vol.NoDir (fs : Fs) (v : Vol) (p : UInt16) (name : Name83) : Prop :=
  ∀ comp j, to83 comp = some name → v.tree fs p comp ≠ some (.dir j)

section Update

variable {fs : Fs} {ps : ℕ} {v v' : Vol} {p : UInt16} {name : Name83}
  {x : Option (Node UInt16 Bytes)}

theorem Vol.Consistent.tree_closed (h : v.Consistent fs) {i j : UInt16} {comp : Bytes}
    (hi : v.Live fs i) (ht : v.tree fs i comp = some (.dir j)) : v.Live fs j := by
  cases hn : to83 comp with
  | none => simp [Vol.tree, hn] at ht
  | some name =>
    rw [Vol.tree_some hn] at ht
    obtain ⟨⟨d, o⟩, hl, hnode⟩ := Option.map_eq_some_iff.1 ht
    unfold Vol.node at hnode
    split_ifs at hnode with hdir
    obtain rfl := Node.dir.inj hnode
    exact h.live_of_lookup hi hl hdir

/-- Trees that agree on the directories both have. -/
theorem Vol.agree_of_same {hit : UInt16 → Bytes → Prop} (h : v.Consistent fs) (h' : v'.Consistent fs)
    (hsame : ∀ i comp, v.Live fs i → v'.Live fs i → ¬ hit i comp →
      v'.tree fs i comp = v.tree fs i comp) :
    Agree (v.tree fs) (v'.tree fs) hit (fun i => v.Live fs i ∧ v'.Live fs i) where
  closed i comp j hi hno ht := by
    have ht' : v'.tree fs i comp = some (.dir j) := by
      rw [hsame i comp hi.1 hi.2 hno]
      exact ht
    exact ⟨h.tree_closed hi.1 ht, h'.tree_closed hi.2 ht'⟩
  same i comp hi hno := hsame i comp hi.1 hi.2 hno

namespace Vol.Update

theorem denote_eq_walk (hu : v.Update fs v' p name x) (path : Bytes) :
    v'.denote fs path = walk (v'.tree fs) (.dir (v.start path)) (v.names path) := by
  rw [Vol.denote_eq_walk, Vol.start, Vol.names, hu.cwd]
  rfl

end Vol.Update

/-- Nothing stands under a name that is not found. -/
theorem Vol.noDir_of_findSlot (hdot : name.first ≠ dot)
    (hf : ∀ s, v.findSlot fs p name = some s → (v.entry s).isDir = false) : v.NoDir fs p name := by
  intro comp j hn ht
  rw [Vol.tree_some hn, Vol.lookup_of_ne_dot hdot] at ht
  cases hs : v.findSlot fs p name with
  | none => simp [hs] at ht
  | some s =>
    simp only [hs, Option.map_some, Option.some.injEq, Vol.node, hf s hs, Bool.false_eq_true,
      if_false] at ht
    cases ht

end Update

/-! ## The outcomes -/

section Outcomes

variable {fs : Fs} {ps : ℕ} {v v' : Vol} {s0 : Slot} {p0 : UInt16}

/-- A new entry. -/
theorem Vol.Inserted.update (hi : v.Inserted fs v' s0 p0) (hs : fs.Sane ps) (h : v.Consistent fs)
    (hdot : (v'.entry s0).name.first ≠ dot) (hc : v.Live fs v.cwd) (hcwd : v'.cwd = v.cwd) :
    v.Update fs v' p0 (v'.entry s0).name (some (v'.node fs (v'.entry s0))) where
  agree := Vol.agree_of_same h (hi.consistent hs h)
    (fun _ comp hi' _ hno => (hi.tree_eq hs h hdot hi' comp).2 hno)
  live := hi.live_of_live hs h hi.live
  hit comp hn := (hi.tree_eq hs h hdot hi.live comp).1 ⟨rfl, hn⟩
  cwd := hcwd
  cwdLive := ⟨hc, hi.live_of_live hs h hc⟩

/-- An entry that is gone. -/
theorem Vol.Vacated.update (hv : v.Vacated fs v' s0) (hs : fs.Sane ps) (h : v.Consistent fs)
    (hmem : s0 ∈ v.dirSlots fs p0) (hin : entryInUse (v.entry s0) = true)
    (hdot : (v.entry s0).name.first ≠ dot) (hp0 : v'.Live fs p0) (hc : v'.Live fs v.cwd)
    (hcwd : v'.cwd = v.cwd) : v.Update fs v' p0 (v.entry s0).name none where
  agree := Vol.agree_of_same h (hv.consistent hs h) (fun _ comp _ hi' hno =>
    (hv.tree_eq hs h (hv.live hs h hp0).1 hmem hin hdot hi' comp).2 hno)
  live := hp0
  hit comp hn := (hv.tree_eq hs h (hv.live hs h hp0).1 hmem hin hdot hp0 comp).1 ⟨rfl, hn⟩
  cwd := hcwd
  cwdLive := ⟨(hv.live hs h hc).1, hc⟩

/-- One change after another, in the same lookup. -/
theorem Vol.Update.trans {v1 : Vol} {p : UInt16} {name : Name83} {x y : Option (Node UInt16 Bytes)}
    (h : v.Consistent fs) (h' : v'.Consistent fs) (hu : v.Update fs v1 p name x)
    (hu' : v1.Update fs v' p name y) (hlive : ∀ i, v.Live fs i → v1.Live fs i) :
    v.Update fs v' p name y where
  agree := Vol.agree_of_same h h' (fun i comp hi hi' hno => by
    rw [hu'.agree.same i comp ⟨hlive i hi, hi'⟩ hno, hu.agree.same i comp ⟨hi, hlive i hi⟩ hno])
  live := hu'.live
  hit := hu'.hit
  cwd := hu'.cwd.trans hu.cwd
  cwdLive := ⟨hu.cwdLive.1, by rw [← hu.cwd]; exact hu'.cwdLive.2⟩

/-- The file that was written. -/
theorem Vol.Wrote.node_eq (hs : fs.Sane ps) {w : Vol} {data : Bytes} {cs : List UInt16}
    (hw : v.Wrote fs w data cs) (hlen : data.length < 2 ^ 32) {e : Dirent} (hfile : e.isDir = false)
    (harea : s0.area ∉ cs) :
    (w.setEntry s0 (fileEntry e cs data)).node fs
      ((w.setEntry s0 (fileEntry e cs data)).entry s0) = .file data := by
  have hown : (w.setEntry s0 (fileEntry e cs data)).ownChain fs s0 = cs := hw.ownChain_eq hs e
  rw [Vol.ownChain, Vol.setEntry_entry_self] at hown
  have hdir : ¬ (fileEntry e cs data).isDir = true := by
    have hkeep : (fileEntry e cs data).isDir = e.isDir := rfl
    simp [hkeep, hfile]
  have hsize : (fileEntry e cs data).size.toNat = data.length := UInt32.toNat_ofNat_of_lt' hlen
  rw [Vol.setEntry_entry_self, Vol.node, if_neg hdir, Vol.fileBytes, hown, hsize]
  exact congrArg _ (hw.setEntry s0 (fileEntry e cs data) harea).data

/-- What a successful call has done to the tree. -/
def FatCall.Change (fs : Fs) (v v' : Vol) (d : Dirent) (name : Name83) : FatCall → Prop
  | .writeFile _ data => v.Update fs v' d.clusterLo name (some (.file data)) ∧
      v.NoDir fs d.clusterLo name
  | .rm _ => v.Update fs v' d.clusterLo name none
  | .mkdir _ => ∃ c, v.Update fs v' d.clusterLo name (some (.dir c)) ∧
      v.NoDir fs d.clusterLo name ∧ v'.NewDir fs c d.clusterLo ∧ v'.Live fs c ∧ v'.Consistent fs

theorem Vol.WriteOutcome.change (hs : fs.Sane ps) (h : v.Consistent fs) (hc : v.Live fs v.cwd)
    {path data : Bytes}
    (hmarks : ∀ {d name}, v.parent fs path = some (d, name) → name.first ≠ 0x00 ∧ name.first ≠ 0xE5)
    (hlen : data.length < 2 ^ 32) (ho : v.WriteOutcome fs path data 0 v') :
    ∃ d name, v.parent fs path = some (d, name) ∧
      (FatCall.writeFile path data).Change fs v v' d name ∧ v'.Consistent fs := by
  cases ho with
  | @created d name s cs w hp hnone hfree _ hw =>
    obtain ⟨hlive, hdot⟩ := Vol.parent_spec h hc hp
    have hi := Vol.inserted_created hs h hc hlen hp (hmarks hp) hnone hfree hw
    have harea : s.area ∉ cs := fun hm =>
      h.area_not_free ⟨_, hlive, (Vol.freeSlot_spec hfree).1⟩ (hw.fresh _ hm).1 (hw.fresh _ hm).2 rfl
    have hname : ((w.setEntry s (fileEntry { Dirent.zero with name := name } cs data)).entry s).name
        = name := by
      rw [Vol.setEntry_entry_self]
      rfl
    have hu := hi.update hs h (by rw [hname]; exact hdot) hc hw.cwd
    rw [hw.node_eq hs hlen (by simp [Dirent.isDir, Dirent.zero]) harea, hname] at hu
    exact ⟨d, name, hp, ⟨hu, Vol.noDir_of_findSlot hdot (by simp [hnone])⟩, hi.consistent hs h⟩
  | @overwritten d name s cs w hp hf hfile _ hw =>
    obtain ⟨hlive, hdot⟩ := Vol.parent_spec h hc hp
    have how := h.owner_of_findSlot hlive hdot hf
    obtain ⟨hmem, hin, hname⟩ := (h.findSlot_iff hlive).1 hf
    obtain ⟨v1, hv1, hv, hi, -⟩ := Vol.overwrite_steps hs h hlive hmem how hfile hlen hw
    have hno : ¬ v.IsSubDir s := fun hsub => absurd hsub.2.1 (by simp [hfile])
    have hlive1 : ∀ i, v.Live fs i → v1.Live fs i := fun i hi' =>
      hv.edit.live_of_live hs h hno hi'
    have hcwd1 : v1.cwd = v.cwd := by
      rw [hv1]
      rfl
    have h1 := hv.consistent hs h
    have hname' : ((w.setEntry s (fileEntry (v.entry s) cs data)).entry s).name = name := by
      rw [Vol.setEntry_entry_self]
      exact hname
    have hu := hv.update hs h hmem hin (by rw [hname]; exact hdot) (hlive1 _ hlive) (hlive1 _ hc)
      hcwd1
    have hu' := hi.update hs h1 (by rw [hname']; exact hdot)
      (by rw [hcwd1]; exact hlive1 _ hc) (by rw [hcwd1]; exact hw.cwd)
    -- the clusters that were written hold no directory entries
    have harea : s.area ∉ cs := by
      intro hm
      refine h1.area_not_free ⟨_, hlive1 _ hlive, hi.mem⟩ (hw.fresh _ hm).1 ?_ rfl
      rw [hv1]
      exact (hw.fresh _ hm).2
    rw [hw.node_eq hs hlen hfile harea, hname'] at hu'
    rw [hname] at hu
    refine ⟨d, name, hp, ⟨hu.trans h (hi.consistent hs h1) hu' hlive1, ?_⟩, hi.consistent hs h1⟩
    refine Vol.noDir_of_findSlot hdot (fun t ht => ?_)
    obtain rfl := Option.some.inj (hf.symm.trans ht)
    exact hfile

theorem Vol.RmOutcome.change (hs : fs.Sane ps) (h : v.Consistent fs) (hn : v.NoDotNames fs)
    (hc : v.Live fs v.cwd) {path : Bytes}
    (hcwd : ∀ c, v.denote fs path = some (.dir c) → c ≠ v.cwd) (ho : v.RmOutcome fs path 0 v') :
    ∃ d name, v.parent fs path = some (d, name) ∧ (FatCall.rm path).Change fs v v' d name := by
  cases ho with
  | removedRoot _ hin huse hempty => exact absurd huse (hn.not_inUse_of_empty h hempty hin)
  | @removed s n hr hin huse hdot hempty =>
    have how : v.Owner fs s := ⟨hin, huse, fun hd => hdot hd.head⟩
    have hv := Vol.vacated_deleted h how
    have hnone : v.InTree fs s → v.IsSubDir s →
        ∀ t ∈ v.dirSlots fs (v.entry s).clusterLo, ¬ v.Owner fs t :=
      fun _ hsub t ht => hn.not_owner (hempty hsub.2.1 t ht)
    obtain ⟨d, name, hp, hf⟩ := Vol.parent_of_resolvePath hr huse hdot
    obtain ⟨hlive, -⟩ := Vol.parent_spec h hc hp
    obtain ⟨hmem, -, hname⟩ := (h.findSlot_iff hlive).1 hf
    -- the directory that goes is neither the parent nor the working directory
    have hparent : ¬ v.DirOf fs s d.clusterLo := by
      rintro ⟨ht, hsub, heq⟩
      refine hnone ht hsub s ?_ how
      rw [heq]
      exact hmem
    have hwork : ¬ v.DirOf fs s v.cwd := by
      rintro ⟨-, hsub, heq⟩
      refine hcwd _ ?_ heq
      rw [Vol.denote, hr, Option.map_some, Vol.node, if_pos hsub.2.1]
    have hu := hv.update hs h hmem huse hdot (hv.live_of_live hs h hnone hlive hparent)
      (hv.live_of_live hs h hnone hc hwork) rfl
    rw [hname] at hu
    exact ⟨d, name, hp, hu⟩

theorem Vol.MkdirOutcome.change (hs : fs.Sane ps) (h : v.Consistent fs) (hc : v.Live fs v.cwd)
    {path : Bytes}
    (hmarks : ∀ {d name}, v.parent fs path = some (d, name) → name.first ≠ 0x00 ∧ name.first ≠ 0xE5)
    (ho : v.MkdirOutcome fs path 0 v') :
    ∃ d name, v.parent fs path = some (d, name) ∧ (FatCall.mkdir path).Change fs v v' d name := by
  cases ho with
  | @made d name s c hp hnone hfree hcl hz =>
    obtain ⟨hlive, hdot⟩ := Vol.parent_spec h hc hp
    obtain ⟨h0, hE5⟩ := hmarks hp
    have hmem := (Vol.freeSlot_spec hfree).1
    have hi := Vol.inserted_dir hs h hlive hmem (Vol.freeSlot_unused hfree)
      (Vol.freeSlot_beforeUsed hs (h.dirOk hlive) hfree) h0 hE5 hdot
      (fun t ht => h.not_holds_of_findSlot hlive hnone ht) hcl hz
    have hentry : (v.mkdirAt d.clusterLo name s c).entry s = { dirEntry c with name := name } :=
      Vol.setEntry_entry_self ..
    have hdir : ({ dirEntry c with name := name } : Dirent).isDir = true := isDir_of_attr rfl
    have hu := hi.update hs h (by rw [hentry]; exact hdot) hc rfl
    rw [hentry, Vol.node, if_pos hdir] at hu
    have hnew := hi.dir (by rw [hentry]; exact hdir)
    have hsub : (v.mkdirAt d.clusterLo name s c).IsSubDir s := ⟨hi.inUse, by rw [hentry]; exact hdir,
      hi.notDot⟩
    have hliveNew := Vol.Live.sub (hi.live_of_live hs h hlive)
      (by rw [hi.dirSlots_eq hs h hlive]; exact hmem) hsub
    rw [hentry] at hnew hliveNew
    exact ⟨d, name, hp, c, hu, Vol.noDir_of_findSlot hdot (by simp [hnone]), hnew, hliveNew,
      hi.consistent hs h⟩

end Outcomes

/-! ## The calls -/

section Calls

variable {fs : Fs} {ps : ℕ} {v v' : Vol}

section

variable {st : FatState} {path data : Bytes} (hs : fs.Sane ps) (h : (st.vol fs).Consistent fs)
  (hc : (st.vol fs).Live fs st.cwdCluster) (hd : (st.vol fs).denote fs path = some (.file data))

include hs h hc hd

end

theorem pathStart_append {cwd : UInt16} {path : Bytes} (hne : (pathStart cwd path).2 ≠ [])
    (x : Bytes) : pathStart cwd (path ++ x) = ((pathStart cwd path).1, (pathStart cwd path).2 ++ x) := by
  cases path with
  | nil => exact absurd rfl hne
  | cons c path =>
    simp only [pathStart, List.cons_append]
    split_ifs <;> rfl

end Calls

end OctoOS
