import OctoOS.Fat.Failure
import OctoOS.Lib.NameTree

set_option autoImplicit false

/-! # The tree a volume stands for

The abstract file system: directories, named by their first cluster, and files, which are their
bytes. A path of the driver is a walk through this tree, and the two ways an operation changes a
volume, filling and emptying a slot, change the tree in one lookup. -/

namespace OctoOS

open NameTree

/-- What an entry stands for. -/
def Vol.node (fs : Fs) (v : Vol) (d : Dirent) : Node UInt16 Bytes :=
  if d.isDir then .dir d.clusterLo else .file (v.fileBytes fs d)

/-- The tree of a volume. -/
def Vol.tree (fs : Fs) (v : Vol) : Tree UInt16 Bytes Bytes := fun p comp =>
  (to83 comp).bind (fun name => (v.lookup fs p name).map (fun r => v.node fs r.1))

/-- The names on a path. -/
def Vol.names (v : Vol) (path : Bytes) : List Bytes := components (pathStart v.cwd path).2

/-- The directory a path starts in. -/
def Vol.start (v : Vol) (path : Bytes) : UInt16 := (pathStart v.cwd path).1

/-- What a path denotes: nothing, a directory, or a file with its bytes. -/
def Vol.denote (fs : Fs) (v : Vol) (path : Bytes) : Option (Node UInt16 Bytes) :=
  (v.resolvePath fs false path).map (fun r => v.node fs r.1)

/-- The lookup of `name` in the directory `p`, under any spelling. -/
def Lookup (p : UInt16) (name : Name83) (i : UInt16) (comp : Bytes) : Prop :=
  i = p ∧ to83 comp = some name

section Paths

variable {fs : Fs} {ps : ℕ} {v v' : Vol} {d : Dirent} {name : Name83}

theorem Vol.tree_some {p : UInt16} {comp : Bytes} (hn : to83 comp = some name) :
    v.tree fs p comp = (v.lookup fs p name).map (fun r => v.node fs r.1) := by
  rw [Vol.tree, hn]
  rfl

theorem Vol.node_dirEntry (c : UInt16) : v.node fs (dirEntry c) = .dir c := by
  rw [Vol.node, if_pos (dirEntry_isDir c)]
  rfl

/-- `resolve` walks through the tree. -/
theorem Vol.walkPath_walk (comps : List Bytes) (d : Dirent) (o : Option Slot) :
    (v.walkPath fs false comps d o).map (fun r => v.node fs r.1)
      = walk (v.tree fs) (v.node fs d) comps := by
  induction comps generalizing d o with
  | nil => simp [Vol.walkPath, walk]
  | cons comp rest ih =>
    rw [Vol.walkPath, walk]
    by_cases hdir : d.isDir = true
    · have hnode : v.node fs d = .dir d.clusterLo := if_pos hdir
      rw [hnode, step]
      cases hc : to83 comp with
      | none => simp [Vol.tree, hc]
      | some name =>
        rw [Vol.tree_some hc]
        simp only [Bool.false_eq_true, false_and, if_false, hdir, Bool.not_true]
        cases v.lookup fs d.clusterLo name with
        | none => rfl
        | some r => exact ih r.1 _
    · have hnode : v.node fs d = .file (v.fileBytes fs d) := if_neg hdir
      rw [hnode, step]
      cases to83 comp with
      | none => rfl
      | some name => simp [hdir]

theorem Vol.denote_eq_walk (path : Bytes) :
    v.denote fs path = walk (v.tree fs) (.dir (v.start path)) (v.names path) := by
  rw [Vol.denote, Vol.resolvePath, Vol.walkPath_walk, Vol.node_dirEntry]
  rfl

/-- A walk of two parts; the mode is that of the second. -/
theorem Vol.walkPath_append {parentOf : Bool} {more : List Bytes} (hne : more ≠ [])
    (comps : List Bytes) (d : Dirent) (o : Option Slot) :
    v.walkPath fs parentOf (comps ++ more) d o
      = (v.walkPath fs false comps d o).bind (fun r => v.walkPath fs parentOf more r.1 r.2.1) := by
  induction comps generalizing d o with
  | nil => simp [Vol.walkPath]
  | cons comp rest ih =>
    rw [List.cons_append, Vol.walkPath, Vol.walkPath]
    cases to83 comp with
    | none => rfl
    | some n =>
      have hne' : rest ++ more ≠ [] := by simp [hne]
      simp only [hne', and_false, if_false, Bool.false_eq_true, false_and]
      split_ifs
      · rfl
      · cases v.lookup fs d.clusterLo n with
        | none => rfl
        | some r => exact ih r.1 _

/-- With `parent_of` the last component is not looked up. -/
theorem Vol.walkPath_concat (last : Bytes) (comps : List Bytes) (d : Dirent) (o : Option Slot) :
    v.walkPath fs true (comps ++ [last]) d o = (v.walkPath fs false comps d o).bind
      (fun r => (to83 last).map (fun name => (r.1, r.2.1, name))) := by
  rw [Vol.walkPath_append (by simp)]
  congr 1
  funext r
  rw [Vol.walkPath]
  cases to83 last with
  | none => rfl
  | some name => simp

/-- The last component of a path with a parent. -/
theorem Vol.walkPath_true {comps : List Bytes} {d' : Dirent} {o o' : Option Slot}
    (hw : v.walkPath fs true comps d o = some (d', o', name)) :
    ∃ front last, comps = front ++ [last] ∧ to83 last = some name ∧
      (v.walkPath fs false front d o).map (fun r => (r.1, r.2.1)) = some (d', o') := by
  rcases List.eq_nil_or_concat comps with rfl | ⟨front, last, rfl⟩
  · simp [Vol.walkPath] at hw
  · rw [List.concat_eq_append] at hw ⊢
    rw [Vol.walkPath_concat] at hw
    obtain ⟨r, hr, hlast⟩ := Option.bind_eq_some_iff.1 hw
    obtain ⟨n, hn, heq⟩ := Option.map_eq_some_iff.1 hlast
    cases heq
    exact ⟨front, last, rfl, hn, by rw [hr]; rfl⟩

/-- The parent of a path: the path without its last name leads there. -/
theorem Vol.parent_walk {path : Bytes} (hp : v.parent fs path = some (d, name)) :
    ∃ front last, v.names path = front ++ [last] ∧ to83 last = some name ∧
      walk (v.tree fs) (.dir (v.start path)) front = some (.dir d.clusterLo) := by
  obtain ⟨⟨o, hr⟩, hdir, -⟩ := Vol.parent_inv hp
  obtain ⟨front, last, hnames, hlast, hw⟩ := Vol.walkPath_true hr
  refine ⟨front, last, hnames, hlast, ?_⟩
  obtain ⟨r, hfront, heq⟩ := Option.map_eq_some_iff.1 hw
  simp only [Prod.mk.injEq] at heq
  rw [← Vol.node_dirEntry (v := v), ← Vol.walkPath_walk front _ none]
  rw [Vol.start, hfront, Option.map_some, heq.1, Vol.node, if_pos hdir]

/-- A path whose front leads to a directory ends with a lookup there. -/
theorem Vol.resolvePath_concat {path last : Bytes} {front : List Bytes} {p : UInt16}
    (hnames : v.names path = front ++ [last]) (hlast : to83 last = some name)
    (hw : walk (v.tree fs) (.dir (v.start path)) front = some (.dir p)) :
    ∃ d o, d.isDir = true ∧ d.clusterLo = p ∧ v.resolvePath fs true path = some (d, o, name) ∧
      v.resolvePath fs false path
        = (v.lookup fs p name).map (fun r => (r.1, r.2.or o, Dirent.zero.name)) := by
  rw [← Vol.node_dirEntry (v := v), ← Vol.walkPath_walk front _ none] at hw
  obtain ⟨⟨d, o, n⟩, hfront, hnode⟩ := Option.map_eq_some_iff.1 hw
  have hdir : d.isDir = true := by
    by_contra hfile
    simp [Vol.node, hfile] at hnode
  have hcl : d.clusterLo = p := by
    rw [Vol.node, if_pos hdir] at hnode
    exact Node.dir.inj hnode
  unfold Vol.start at hfront
  unfold Vol.names at hnames
  refine ⟨d, o, hdir, hcl, ?_, ?_⟩
  · rw [Vol.resolvePath, hnames, Vol.walkPath_concat, hfront, hlast]
    rfl
  · rw [Vol.resolvePath, hnames, Vol.walkPath_append (by simp), hfront, Option.bind_some, Vol.walkPath,
      hlast]
    simp only [Bool.false_eq_true, false_and, if_false, hdir, Bool.not_true, hcl]
    cases v.lookup fs p name with
    | none => rfl
    | some r => simp [Vol.walkPath]

/-- The last step of a walk that ends in a slot. -/
theorem Vol.walkPath_last {comps : List Bytes} {last : Bytes} {d' : Dirent} {o o' : Option Slot}
    {n : Name83} (hw : v.walkPath fs false (comps ++ [last]) d o = some (d', o', n)) :
    ∃ r name u, v.walkPath fs false comps d o = some r ∧ to83 last = some name ∧ r.1.isDir = true ∧
      v.lookup fs r.1.clusterLo name = some (d', u) ∧ o' = u.or r.2.1 := by
  induction comps generalizing d o with
  | nil =>
    obtain ⟨name, hl, hdir, d1, u, hlook, hw⟩ := Vol.walkPath_false_cons.1 hw
    simp only [Vol.walkPath, Bool.false_eq_true, if_false, Option.some.injEq, Prod.mk.injEq] at hw
    obtain ⟨rfl, rfl, -⟩ := hw
    exact ⟨(d, o, Dirent.zero.name), name, u, rfl, hl, hdir, hlook, rfl⟩
  | cons comp rest ih =>
    obtain ⟨name, hc, hdir, d1, u, hlook, hw⟩ := Vol.walkPath_false_cons.1 hw
    obtain ⟨r, n', u', hfront, hrest⟩ := ih hw
    exact ⟨r, n', u', Vol.walkPath_false_cons.2 ⟨name, hc, hdir, d1, u, hlook, hfront⟩, hrest⟩

/-- A path that resolves to an entry in use has that entry's directory as its parent. -/
theorem Vol.parent_of_resolvePath {path : Bytes} {s : Slot} {n : Name83}
    (hr : v.resolvePath fs false path = some (v.entry s, some s, n))
    (hin : entryInUse (v.entry s) = true) (hdot : (v.entry s).name.first ≠ dot) :
    ∃ d name, v.parent fs path = some (d, name) ∧ v.findSlot fs d.clusterLo name = some s := by
  rcases List.eq_nil_or_concat (v.names path) with hnil | ⟨front, last, hnames⟩
  · unfold Vol.names at hnil
    rw [Vol.resolvePath, hnil, Vol.walkPath] at hr
    simp at hr
  · unfold Vol.names at hnames
    rw [List.concat_eq_append] at hnames
    rw [Vol.resolvePath, hnames] at hr
    obtain ⟨⟨d, o, m⟩, name, u, hfront, hlast, hdir, hlook, hor⟩ := Vol.walkPath_last hr
    -- the entry is in use, so it is not the synthetic one of the root
    have hsyn : ¬ (d.clusterLo = 0 ∧ name.first = dot) := by
      intro h0
      rw [Vol.lookup, if_pos h0] at hlook
      rw [← (Prod.mk.inj (Option.some.inj hlook)).1] at hin
      cases hin
    rw [Vol.lookup, if_neg hsyn] at hlook
    obtain ⟨t, hfind, heq⟩ := Option.map_eq_some_iff.1 hlook
    simp only [Prod.mk.injEq] at heq
    obtain ⟨hentry, rfl⟩ := heq
    obtain rfl : s = t := by simpa using hor
    have hname : (v.entry s).name = name := (Vol.findSlot_spec hfind).2
    refine ⟨d, name, ?_, hfind⟩
    unfold Vol.parent Vol.resolvePath
    rw [hnames, Vol.walkPath_concat, hfront, hlast]
    simp only [Option.map_some, Option.bind_some]
    rw [if_neg]
    rw [not_or]
    exact ⟨by simp [hdir], by rw [← hname]; exact hdot⟩

end Paths

/-! ## Changes -/

section Changes

variable {fs : Fs} {ps : ℕ} {v v' : Vol} {s0 : Slot} {p0 : UInt16}

/-- A lookup that finds an entry finds a directory or the bytes of an owner. -/
theorem Vol.Edit.node_eq (he : v.Edit fs v' s0) (hs : fs.Sane ps) (h : v.Consistent fs)
    {s : Slot} (ht : v.InTree fs s) (hin : entryInUse (v.entry s) = true) (hne : s ≠ s0) :
    v'.node fs (v.entry s) = v.node fs (v.entry s) := by
  unfold Vol.node
  split_ifs with hdir
  · rfl
  · have hfile : (v.entry s).isDir = false := by simpa using hdir
    rw [he.fileBytes_eq hs h (h.owner_of_file ht hin hfile) hne hfile]

/-- The entry of a filled slot is found. -/
theorem Vol.Inserted.findSlot (hi : v.Inserted fs v' s0 p0) (hs : fs.Sane ps) (h : v.Consistent fs) :
    v'.findSlot fs p0 (v'.entry s0).name = some s0 := by
  refine ((hi.consistent hs h).findSlot_iff (hi.live_of_live hs h hi.live)).2 ⟨?_, hi.inUse, rfl⟩
  rw [hi.dirSlots_eq hs h hi.live]
  exact hi.mem

/-- The lookups after a slot was filled. -/
theorem Vol.Inserted.tree_eq (hi : v.Inserted fs v' s0 p0) (hs : fs.Sane ps) (h : v.Consistent fs)
    (hdot : (v'.entry s0).name.first ≠ dot) {p : UInt16} (hp : v.Live fs p) (comp : Bytes) :
    (Lookup p0 (v'.entry s0).name p comp → v'.tree fs p comp = some (v'.node fs (v'.entry s0))) ∧
      (¬ Lookup p0 (v'.entry s0).name p comp → v'.tree fs p comp = v.tree fs p comp) := by
  have h' := hi.consistent hs h
  have hp' := hi.live_of_live hs h hp
  have hslots := hi.dirSlots_eq hs h hp
  constructor
  · rintro ⟨rfl, hn⟩
    rw [Vol.tree_some hn, Vol.lookup_of_ne_dot hdot, hi.findSlot hs h]
    rfl
  · intro hno
    cases hn : to83 comp with
    | none => simp [Vol.tree, hn]
    | some name =>
      rw [Vol.tree_some hn, Vol.tree_some hn]
      unfold Vol.lookup
      split_ifs with h0
      · simp only [Option.map_some, Vol.node_dirEntry]
      · -- the same slots hold the name
        have hiff : ∀ s, v'.findSlot fs p name = some s ↔ v.findSlot fs p name = some s := by
          intro s
          rw [h'.findSlot_iff hp', h.findSlot_iff hp, hslots]
          refine and_congr_right (fun hsp => ?_)
          by_cases hne : s = s0
          · subst hne
            refine iff_of_false (fun hh => hno ?_) (fun hh => ?_)
            · exact ⟨h.dir_unique hp hi.live hsp hi.mem, by rw [hn, hh.2]⟩
            · exact absurd hh.1 (by simp [hi.unused])
          · unfold Vol.Holds
            rw [hi.edit.entry s ⟨p, hp, hsp⟩ hne]
        rw [Option.ext hiff]
        cases hf : v.findSlot fs p name with
        | none => rfl
        | some s =>
          obtain ⟨hsp, hin, -⟩ := (h.findSlot_iff hp).1 hf
          have hne := hi.ne_of_inUse hin
          simp only [Option.map_some, hi.edit.entry s ⟨p, hp, hsp⟩ hne,
            hi.edit.node_eq hs h ⟨p, hp, hsp⟩ hin hne]

/-- The lookups after a slot was emptied. -/
theorem Vol.Vacated.tree_eq (hv : v.Vacated fs v' s0) (hs : fs.Sane ps) (h : v.Consistent fs)
    (hp0 : v.Live fs p0) (hmem : s0 ∈ v.dirSlots fs p0) (hin0 : entryInUse (v.entry s0) = true)
    (hdot : (v.entry s0).name.first ≠ dot) {p : UInt16} (hp' : v'.Live fs p) (comp : Bytes) :
    (Lookup p0 (v.entry s0).name p comp → v'.tree fs p comp = none) ∧
      (¬ Lookup p0 (v.entry s0).name p comp → v'.tree fs p comp = v.tree fs p comp) := by
  have h' := hv.consistent hs h
  have hp := (hv.live hs h hp').1
  have hslots := hv.dirSlots_eq hs h hp'
  constructor
  · rintro ⟨rfl, hn⟩
    rw [Vol.tree_some hn, Vol.lookup_of_ne_dot hdot]
    cases hf : v'.findSlot fs p (v.entry s0).name with
    | none => rfl
    | some s =>
      -- it would be `s0` itself, which is not in use any more
      obtain ⟨hsp, hin, hname⟩ := (h'.findSlot_iff hp').1 hf
      obtain ⟨-, hne, hentry⟩ := hv.inTree_entry hs h ⟨p, hp', hsp⟩ hin
      rw [hslots] at hsp
      rw [hentry] at hin hname
      exact absurd (h.names p hp s hsp s0 hmem _ ⟨hin, hname⟩ ⟨hin0, rfl⟩) hne
  · intro hno
    cases hn : to83 comp with
    | none => simp [Vol.tree, hn]
    | some name =>
      rw [Vol.tree_some hn, Vol.tree_some hn]
      unfold Vol.lookup
      split_ifs with h0
      · simp only [Option.map_some, Vol.node_dirEntry]
      · have hiff : ∀ s, v'.findSlot fs p name = some s ↔ v.findSlot fs p name = some s := by
          intro s
          rw [h'.findSlot_iff hp', h.findSlot_iff hp, hslots]
          refine and_congr_right (fun hsp => ?_)
          by_cases hne : s = s0
          · subst hne
            refine iff_of_false (fun hh => ?_) (fun hh => hno ?_)
            · exact absurd hh.1 (by simp [hv.unused ⟨p, hp, hsp⟩])
            · exact ⟨h.dir_unique hp hp0 hsp hmem, by rw [hn, hh.2]⟩
          · unfold Vol.Holds
            rw [hv.edit.entry s ⟨p, hp, hsp⟩ hne]
        rw [Option.ext hiff]
        cases hf : v.findSlot fs p name with
        | none => rfl
        | some s =>
          obtain ⟨hsp', hin', -⟩ := (h'.findSlot_iff hp').1 ((hiff s).2 hf)
          obtain ⟨ht, hne, hentry⟩ := hv.inTree_entry hs h ⟨p, hp', hsp'⟩ hin'
          rw [hentry] at hin'
          simp only [Option.map_some, hentry, hv.edit.node_eq hs h ht hin' hne]

end Changes

end OctoOS
