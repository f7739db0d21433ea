import OctoOS.Fat.Mount
import OctoOS.Fat.Refine

set_option autoImplicit false

/-! # The working directory

`cwd_cluster` is only ever set to a directory that a path names, so it stays reachable from the
root through names a path can spell (`Vol.Reached`). A directory with such a name in it is not
empty for `fat_rm`, so the calls that can take the working directory away are the removal of that
very directory, and a failing overwrite, which leaves a file's clusters to others. -/

namespace OctoOS

open Atomic NameTree

/-- The directories reachable from the root through names without a leading dot. -/
inductive Vol.Reached (fs : Fs) (v : Vol) : UInt16 → Prop where
  | root : Reached fs v 0
  | sub {p : UInt16} {s : Slot} : Reached fs v p → s ∈ v.dirSlots fs p → v.IsSubDir s →
      (v.entry s).name.first ≠ dot → Reached fs v (v.entry s).clusterLo

/-- What the calls keep. -/
structure Vol.CwdInv (fs : Fs) (v : Vol) : Prop where
  consistent : v.Consistent fs
  cwd : v.Reached fs v.cwd
  heap : ∃ l, v.heap = some l ∧ BlockList l

section Reached

variable {fs : Fs} {ps : ℕ} {v v' : Vol} {s0 : Slot} {p0 : UInt16} {d : Dirent} {o : Option Slot}
  {p : UInt16}

theorem Vol.Reached.live (hp : v.Reached fs p) : v.Live fs p := by
  induction hp with
  | root => exact Vol.Live.root
  | sub _ hsp hsub _ ih => exact Vol.Live.sub ih hsp hsub

theorem Vol.CwdInv.ready (hi : v.CwdInv fs) : v.Ready fs := ⟨hi.consistent, hi.cwd.live, hi.heap⟩

/-- A path component leads from a reached directory to a reached one. -/
theorem Vol.Reached.lookup (h : v.Consistent fs) (hp : v.Reached fs p) {comp : Bytes}
    {name : Name83} (hn : to83 comp = some name) (hl : v.lookup fs p name = some (d, o))
    (hdir : d.isDir = true) : v.Reached fs d.clusterLo := by
  unfold Vol.lookup at hl
  split_ifs at hl with h0
  · simp only [Option.some.injEq, Prod.mk.injEq] at hl
    rw [← hl.1]
    exact Vol.Reached.root
  · obtain ⟨s, hs, heq⟩ := Option.map_eq_some_iff.1 hl
    cases heq
    obtain ⟨hmem, hin, hname⟩ := (h.findSlot_iff hp.live).1 hs
    by_cases hdot : IsDotName name
    · -- `.` is the directory itself and `..` the one it was reached from
      cases hp with
      | root => exact absurd (by rw [hname]; exact hdot) (h.rootDots s hmem hin)
      | @sub q t hq htq hsub hvis =>
        obtain ⟨⟨a, ha, hah, -, hac⟩, ⟨b, hb, hbh, -, hbc⟩⟩ := h.dots q hq.live t htq hsub
        have hlive := Vol.Live.sub hq.live htq hsub
        rcases hdot with rfl | rfl
        · rw [h.names _ hlive s hmem a ha dotName ⟨hin, hname⟩ hah, hac]
          exact Vol.Reached.sub hq htq hsub hvis
        · rw [h.names _ hlive s hmem b hb dotdotName ⟨hin, hname⟩ hbh, hbc]
          exact hq
    · refine Vol.Reached.sub hp hmem ⟨hin, hdir, by rw [hname]; exact hdot⟩ ?_
      rw [hname]
      exact to83_ne_dot hn hdot

theorem Vol.walkPath_reached (h : v.Consistent fs) {comps : List Bytes} {d' : Dirent}
    {o' : Option Slot} {n : Name83} (hd : d.isDir = true → v.Reached fs d.clusterLo)
    (hw : v.walkPath fs false comps d o = some (d', o', n)) (hdir : d'.isDir = true) :
    v.Reached fs d'.clusterLo := by
  induction comps generalizing d o with
  | nil =>
    simp only [Vol.walkPath, Bool.false_eq_true, if_false, Option.some.injEq, Prod.mk.injEq] at hw
    obtain ⟨rfl, -, -⟩ := hw
    exact hd hdir
  | cons comp rest ih =>
    obtain ⟨name, hc, hsub, d1, u, hl, hw⟩ := Vol.walkPath_false_cons.1 hw
    exact ih (fun hr => (hd hsub).lookup h hc hl hr) hw

theorem Vol.reached_start (hc : v.Reached fs v.cwd) (path : Bytes) : v.Reached fs (v.start path) := by
  unfold Vol.start pathStart
  cases path with
  | nil => exact hc
  | cons c rest =>
    simp only
    split_ifs
    · exact Vol.Reached.root
    · exact hc

/-- A path that names a directory names a reached one. -/
theorem Vol.resolvePath_reached (h : v.Consistent fs) (hc : v.Reached fs v.cwd) {path : Bytes}
    {n : Name83} (hr : v.resolvePath fs false path = some (d, o, n)) (hdir : d.isDir = true) :
    v.Reached fs d.clusterLo :=
  Vol.walkPath_reached h (fun _ => Vol.reached_start hc path) hr hdir

/-! ## The changes -/

/-- Filling a slot. -/
theorem Vol.Inserted.reached (hi : v.Inserted fs v' s0 p0) (hs : fs.Sane ps) (h : v.Consistent fs)
    (hp : v.Reached fs p) : v'.Reached fs p := by
  induction hp with
  | root => exact Vol.Reached.root
  | @sub q s hq hsq hsub hvis ih =>
    have hentry := hi.edit.entry s ⟨q, hq.live, hsq⟩ (hi.ne_of_inUse hsub.1)
    rw [← hentry]
    refine Vol.Reached.sub ih (by rw [hi.dirSlots_eq hs h hq.live]; exact hsq) ?_
      (by rw [hentry]; exact hvis)
    unfold Vol.IsSubDir at hsub ⊢
    rwa [hentry]

/-- Emptying a slot takes away the directory behind it only, when that has no visible entry. -/
theorem Vol.Vacated.reached (hv : v.Vacated fs v' s0) (hs : fs.Sane ps) (h : v.Consistent fs)
    (hempty : v.InTree fs s0 → v.IsSubDir s0 →
      ∀ t ∈ v.dirSlots fs (v.entry s0).clusterLo, ¬ v.Visible t) (hp : v.Reached fs p)
    (hno : ¬ v.DirOf fs s0 p) : v'.Reached fs p := by
  induction hp with
  | root => exact Vol.Reached.root
  | @sub q s hq hsq hsub hvis ih =>
    have hqno : ¬ v.DirOf fs s0 q := by
      rintro ⟨ht, hd, rfl⟩
      exact hempty ht hd s hsq ⟨hsub.1, hvis⟩
    have hne : s ≠ s0 := by
      rintro rfl
      exact hno ⟨⟨q, hq.live, hsq⟩, hsub, rfl⟩
    have hq' := ih hqno
    have hentry := hv.edit.entry s ⟨q, hq.live, hsq⟩ hne
    rw [← hentry]
    refine Vol.Reached.sub hq' (by rw [hv.dirSlots_eq hs h hq'.live]; exact hsq) ?_
      (by rw [hentry]; exact hvis)
    unfold Vol.IsSubDir at hsub ⊢
    rwa [hentry]

/-- A slot that stays unused: the new entry has the mark of a deleted one. -/
theorem Vol.vacated_unnamed (hs : fs.Sane ps) (h : v.Consistent fs) (hp : v.Live fs p)
    (hfree : v.freeSlot fs p = some s0) (he : v.Edit fs v' s0)
    (hmark : (v'.entry s0).name.first = 0xE5) : v.Vacated fs v' s0 where
  edit := he
  notDot _ hin := absurd hin (by simp [Vol.freeSlot_unused hfree])
  unused _ := by simp [entryInUse, hmark]
  used _ := by
    rw [hmark]
    decide
  before q hq hmem := by
    obtain rfl := h.dir_unique hq hp hmem (Vol.freeSlot_spec hfree).1
    exact Vol.freeSlot_beforeUsed hs (h.dirOk hq) hfree

/-- The invariant after a slot was emptied. -/
theorem Vol.Vacated.cwdInv (hv : v.Vacated fs v' s0) (hs : fs.Sane ps) (hi : v.CwdInv fs)
    (hempty : v.InTree fs s0 → v.IsSubDir s0 →
      ∀ t ∈ v.dirSlots fs (v.entry s0).clusterLo, ¬ v.Visible t)
    (hno : ¬ v.DirOf fs s0 v.cwd) (hcwd : v'.cwd = v.cwd) (hheap : v'.heap = v.heap) :
    v'.CwdInv fs where
  consistent := hv.consistent hs hi.consistent
  cwd := by
    rw [hcwd]
    exact hv.reached hs hi.consistent hempty hi.cwd hno
  heap := by
    rw [hheap]
    exact hi.heap

/-- The invariant after an entry that was no directory changed. -/
theorem Vol.Vacated.cwdInv_of_file (hv : v.Vacated fs v' s0) (hs : fs.Sane ps) (hi : v.CwdInv fs)
    (hfile : v.InTree fs s0 → ¬ v.IsSubDir s0) (hcwd : v'.cwd = v.cwd) (hheap : v'.heap = v.heap) :
    v'.CwdInv fs :=
  hv.cwdInv hs hi (fun ht hsub => absurd hsub (hfile ht)) (fun hd => hfile hd.1 hd.2.1) hcwd hheap

theorem Vol.Inserted.cwdInv (hi : v.Inserted fs v' s0 p0) (hs : fs.Sane ps) (hinv : v.CwdInv fs)
    (hcwd : v'.cwd = v.cwd) (hheap : v'.heap = v.heap) : v'.CwdInv fs where
  consistent := hi.consistent hs hinv.consistent
  cwd := by
    rw [hcwd]
    exact hi.reached hs hinv.consistent hinv.cwd
  heap := by
    rw [hheap]
    exact hinv.heap

theorem Vol.SameUsed.cwdInv (hu : v.SameUsed fs v') (hs : fs.Sane ps) (hi : v.CwdInv fs) :
    v'.CwdInv fs :=
  (hu.vacated hi.consistent).cwdInv_of_file hs hi (fun ht => absurd ht Vol.noSlot_not_inTree) hu.cwd
    hu.heap

end Reached

/-! ## The calls -/

/-- The call takes the working directory away, or leaves the clusters of a file to others. -/
def FatCall.Harms (fs : Fs) (v : Vol) : FatCall → Prop
  | .writeFile path data => (FatCall.writeFile path data).LosesFile fs v
  | .rm path => v.cwd ≠ 0 ∧ v.denote fs path = some (.dir v.cwd)
  | .mkdir _ => False

section Outcomes

variable {fs : Fs} {ps : ℕ} {v v' : Vol} {r : Int}

theorem Vol.WriteOutcome.cwdInv (hs : fs.Sane ps) (hi : v.CwdInv fs) {path data : Bytes}
    (hpath : ∀ b ∈ path, b ≠ 0) (hlen : data.length < 2 ^ 32)
    (ho : v.WriteOutcome fs path data r v') (hok : ¬ (FatCall.writeFile path data).Harms fs v) :
    v'.CwdInv fs := by
  have h := hi.consistent
  have hc := hi.cwd.live
  cases ho with
  | badPath _ | isDirectory _ _ _ | directoryFull _ _ _ => exact hi
  | createFailed _ _ _ _ hu => exact hu.cwdInv hs hi
  | @overwriteFailed d name s w hp hf hfile hno hu =>
    have hlt : ¬ 2 ≤ (v.entry s).clusterLo := fun h2 =>
      hok ⟨d, name, s, hp, hf, hfile, h2, fun hd => hno (Or.inl hd), fun hfits => hno (Or.inr hfits)⟩
    rw [Vol.free_ownChain_of_lt hlt] at hu
    exact hu.cwdInv hs hi
  | @created d name s cs w hp hnone hfree _ hw =>
    have h0 : name.first ≠ 0x00 := Vol.parent_name nameByte_ne_zero hpath hp
    obtain ⟨hlive, hdot⟩ := Vol.parent_spec h hc hp
    by_cases hE5 : name.first = 0xE5
    · -- the new entry counts as deleted
      have hv := Vol.vacated_unnamed hs h hlive hfree
        (hw.edit h ⟨_, hlive, (Vol.freeSlot_spec hfree).1⟩
          (fileEntry { Dirent.zero with name := name } cs data))
        (by rw [Vol.setEntry_entry_self]; exact hE5)
      refine hv.cwdInv_of_file hs hi (fun _ hsub => ?_) hw.cwd hw.heap
      exact absurd hsub.1 (by simp [Vol.freeSlot_unused hfree])
    · exact (Vol.inserted_created hs h hc hlen hp ⟨h0, hE5⟩ hnone hfree hw).cwdInv hs hi hw.cwd hw.heap
  | @overwritten d name s cs w hp hf hfile _ hw =>
    obtain ⟨hlive, hdot⟩ := Vol.parent_spec h hc hp
    have how := h.owner_of_findSlot hlive hdot hf
    obtain ⟨hmem, -, -⟩ := (h.findSlot_iff hlive).1 hf
    obtain ⟨v1, hv1, hv, hins, -⟩ := Vol.overwrite_steps hs h hlive hmem how hfile hlen hw
    have hi1 := hv.cwdInv_of_file hs hi (fun _ hsub => absurd hsub.2.1 (by simp [hfile]))
      (by rw [hv1]; rfl) (by rw [hv1]; rfl)
    exact hins.cwdInv hs hi1 (by rw [hv1]; exact hw.cwd) (by rw [hv1]; exact hw.heap)

theorem Vol.MkdirOutcome.cwdInv (hs : fs.Sane ps) (hi : v.CwdInv fs) {path : Bytes}
    (hpath : ∀ b ∈ path, b ≠ 0) (ho : v.MkdirOutcome fs path r v') : v'.CwdInv fs := by
  have h := hi.consistent
  cases ho with
  | badPath _ | «exists» _ _ | directoryFull _ _ _ | diskFull _ _ _ _ => exact hi
  | @made d name s c hp hnone hfree hcl hz =>
    have h0 : name.first ≠ 0x00 := Vol.parent_name nameByte_ne_zero hpath hp
    obtain ⟨hlive, hdot⟩ := Vol.parent_spec h hi.cwd.live hp
    have hmem := (Vol.freeSlot_spec hfree).1
    have hentry : (v.mkdirAt d.clusterLo name s c).entry s = { dirEntry c with name := name } :=
      Vol.setEntry_entry_self ..
    by_cases hE5 : name.first = 0xE5
    · have hv := Vol.vacated_unnamed hs h hlive hfree
        (Vol.mkdirAt_edit h ⟨_, hlive, hmem⟩ d.clusterLo name hcl hz) (by rw [hentry]; exact hE5)
      refine hv.cwdInv_of_file hs hi (fun _ hsub => ?_) rfl rfl
      exact absurd hsub.1 (by simp [Vol.freeSlot_unused hfree])
    · exact (Vol.inserted_dir hs h hlive hmem (Vol.freeSlot_unused hfree)
        (Vol.freeSlot_beforeUsed hs (h.dirOk hlive) hfree) h0 hE5 hdot
        (fun t ht => h.not_holds_of_findSlot hlive hnone ht) hcl hz).cwdInv hs hi rfl rfl

/-- From an empty root no path gets to a location. -/
theorem Vol.walkPath_root_none (h : v.Consistent fs)
    (hempty : ∀ t ∈ v.dirSlots fs 0, ¬ v.Visible t) {comps : List Bytes} {d : Dirent}
    {o : Option Slot} {n : Name83} (hw : v.walkPath fs false comps (dirEntry 0) none = some (d, o, n)) :
    o = none := by
  induction comps with
  | nil =>
    simp only [Vol.walkPath, Bool.false_eq_true, if_false, Option.some.injEq, Prod.mk.injEq] at hw
    exact hw.2.1.symm
  | cons comp rest ih =>
    obtain ⟨name, -, -, d1, u, hl, hw⟩ := Vol.walkPath_false_cons.1 hw
    rw [dirEntry_clusterLo] at hl
    by_cases hdot : name.first = dot
    · rw [Vol.lookup, if_pos ⟨rfl, hdot⟩] at hl
      cases hl
      exact ih hw
    · rw [Vol.lookup_of_ne_dot hdot] at hl
      obtain ⟨s, hf, -⟩ := Option.map_eq_some_iff.1 hl
      obtain ⟨hmem, hin, hname⟩ := (h.findSlot_iff Vol.Live.root).1 hf
      exact absurd ⟨hin, by rw [hname]; exact hdot⟩ (hempty s hmem)

theorem Vol.RmOutcome.cwdInv (hs : fs.Sane ps) (hi : v.CwdInv fs) {path : Bytes}
    (ho : v.RmOutcome fs path r v') (hok : ¬ (FatCall.rm path).Harms fs v) : v'.CwdInv fs := by
  have h := hi.consistent
  cases ho with
  | notFound _ | refused _ _ | notEmpty _ _ _ _ => exact hi
  | @removed s n hr hin huse hdot hempty =>
    have how : v.Owner fs s := ⟨hin, huse, fun hd => hdot hd.head⟩
    refine (Vol.vacated_deleted h how).cwdInv hs hi (fun _ hsub => hempty hsub.2.1) ?_ rfl rfl
    -- the directory that goes is not the working directory
    rintro ⟨-, hsub, heq⟩
    refine hok ⟨?_, ?_⟩
    · rw [← heq]
      exact (h.hasChain hin hsub).1.ne_zero
    · rw [Vol.denote, hr, Option.map_some, Vol.node, if_pos hsub.2.1, heq]
  | @removedRoot s n hr hin huse hempty =>
    -- with an empty root the working directory is the root, from which there is no way to `s`
    have honly : ∀ p, v.Reached fs p → p = 0 := by
      intro p hp
      induction hp with
      | root => rfl
      | @sub q t _ htq hsub hvis ih =>
        subst ih
        exact absurd ⟨hsub.1, hvis⟩ (hempty t htq)
    have hstart := honly _ (Vol.reached_start hi.cwd path)
    unfold Vol.start at hstart
    rw [Vol.resolvePath, hstart] at hr
    exact absurd (Vol.walkPath_root_none h hempty hr) (by simp)

theorem FatCall.Outcome.cwdInv (hs : fs.Sane ps) (hi : v.CwdInv fs) {call : FatCall}
    (hpath : ∀ b ∈ call.path, b ≠ 0) (hlen : call.data.length < 2 ^ 32)
    (ho : call.Outcome fs v r v') (hok : ¬ call.Harms fs v) : v'.CwdInv fs := by
  cases call with
  | writeFile path data => exact Vol.WriteOutcome.cwdInv hs hi hpath hlen ho hok
  | rm path => exact Vol.RmOutcome.cwdInv hs hi ho hok
  | mkdir path => exact Vol.MkdirOutcome.cwdInv hs hi hpath ho

end Outcomes

/-! ## Runs -/

/-- The calls of the shell and the tasks that change the disk or the working directory. -/
inductive FsCall where
  | cd (path : Bytes)
  | change (call : FatCall)

namespace FsCall

def path : FsCall → Bytes
  | .cd path => path
  | .change call => call.path

def data : FsCall → Bytes
  | .cd _ => []
  | .change call => call.data

def prog (fs : Fs) : FsCall → Fat Int
  | .cd path => fatCd fs path
  | .change call => call.prog fs

def Harms (fs : Fs) (v : Vol) : FsCall → Prop
  | .cd _ => False
  | .change call => call.Harms fs v

end FsCall

/-- Calls one after another without a device error, each with `ok` in the state it starts in. The
    paths are strings and the sizes 32 bits wide. -/
inductive FsRun (fs : Fs) (ok : FatState → FsCall → Prop) (st₀ : FatState) : FatState → Prop where
  | init : FsRun fs ok st₀ st₀
  | step {st st' : FatState} {fault : Faults} {r : Int} (call : FsCall) : FsRun fs ok st₀ st →
      ok st call → (∀ b ∈ call.path, b ≠ 0) → call.data.length < 2 ^ 32 →
      NoAtaError fault (call.prog fs) st →
      (call.prog fs).run (ataHandler fault) st = .ok (r, st') → FsRun fs ok st₀ st'

section Runs

variable {fs : Fs} {ps : ℕ} {v v' : Vol} {st st' : FatState}

/-- A run of `p >>= f` goes on with what `p` yields. -/
theorem Fs.Yields.run_bind {α β : Type} {p : Fat α} {f : α → Fat β} {a : α} {b : β} {w : Vol}
    (hy : fs.Yields p (st.vol fs) a w)
    (hrun : (p >>= f).run (fatHandler noFaults) st = .ok (b, st')) :
    ∃ st1, st1.vol fs = w ∧ (f a).run (fatHandler noFaults) st1 = .ok (b, st') := by
  obtain ⟨st1, hp, hw⟩ := hy st rfl
  refine ⟨st1, hw, ?_⟩
  rwa [Prog.run_bind_ok _ hp] at hrun

/-- What `fat_cd` does to the volume. -/
theorem fatCd_run (hs : fs.Sane ps) {path : Bytes} {r : Int} (hc : (st.vol fs).Consistent fs)
    (hcwd : (st.vol fs).Live fs st.cwdCluster)
    (hrun : (fatCd fs path).run (fatHandler noFaults) st = .ok (r, st')) :
    st'.vol fs = st.vol fs ∨ ∃ d o n text, (st.vol fs).resolvePath fs false path = some (d, o, n) ∧
      d.isDir = true ∧ st'.vol fs = { st.vol fs with cwd := d.clusterLo, cwdPath := text } := by
  unfold fatCd at hrun
  rw [if_neg (by simp [hs.mounted])] at hrun
  obtain ⟨st1, hv1, hrun⟩ := (resolve_yields hs hc hcwd false path).run_bind hrun
  cases hr : (st.vol fs).resolvePath fs false path with
  | none =>
    simp only [hr, Option.map_none] at hrun
    have hy : fs.Yields (print (str "not a directory: " ++ path ++ str "\n") >>= fun _ => pure (-1))
        (st1.vol fs) (-1) (st1.vol fs) := (print_yields _).bind (Fs.Yields.pure _)
    obtain ⟨-, hv⟩ := Prog.Computes.run_eq hy hrun
    exact Or.inl (hv.trans hv1)
  | some x =>
    obtain ⟨d, o, n⟩ := x
    simp only [hr, Option.map_some] at hrun
    split_ifs at hrun with hdir
    · obtain ⟨st2, hv2, hrun⟩ := (setCwdCluster_yields d.clusterLo).run_bind hrun
      obtain ⟨st3, hv3, hrun⟩ := getCwdPath_yields.run_bind hrun
      cases ha : cwdApply (st2.vol fs).cwdPath path with
      | none =>
        rw [ha] at hrun
        cases hrun
      | some text =>
        simp only [ha] at hrun
        have hy : fs.Yields (setCwdPath text >>= fun _ => pure (0 : Int)) (st3.vol fs) 0
            { st3.vol fs with cwdPath := text } := (setCwdPath_yields _).bind (Fs.Yields.pure _)
        obtain ⟨-, hv⟩ := Prog.Computes.run_eq hy hrun
        refine Or.inr ⟨d, o, n, text, rfl, hdir, ?_⟩
        rw [hv, hv3, hv2, hv1]
    · have hy : fs.Yields (print (str "not a directory: " ++ path ++ str "\n") >>= fun _ => pure (-1))
          (st1.vol fs) (-1) (st1.vol fs) := (print_yields _).bind (Fs.Yields.pure _)
      obtain ⟨-, hv⟩ := Prog.Computes.run_eq hy hrun
      exact Or.inl (hv.trans hv1)

/-- One call keeps the invariant. -/
theorem FsCall.cwdInv (hs : fs.Sane ps) {call : FsCall} {r : Int} {fault : Faults}
    (hi : (st.vol fs).CwdInv fs) (hok : ¬ call.Harms fs (st.vol fs))
    (hpath : ∀ b ∈ call.path, b ≠ 0) (hlen : call.data.length < 2 ^ 32)
    (hclean : NoAtaError fault (call.prog fs) st)
    (hrun : (call.prog fs).run (ataHandler fault) st = .ok (r, st')) :
    (st'.vol fs).CwdInv fs := by
  cases call with
  | change call =>
    obtain ⟨a, w, hy, ho⟩ := FatCall.yields hs hi.ready call hlen
    obtain ⟨rfl, rfl⟩ := hy.run_eq hclean hrun
    exact ho.cwdInv hs hi hpath hlen hok
  | cd path =>
    rw [Prog.run_eq_of_clean fatHandler_eq_of_not_ataError _ st hclean] at hrun
    rcases fatCd_run hs hi.consistent hi.cwd.live hrun with hv | ⟨d, o, n, text, hr, hdir, hv⟩
    · rw [hv]
      exact hi
    · have hreach := Vol.resolvePath_reached hi.consistent hi.cwd hr hdir
      have hvac : (st.vol fs).Vacated fs (st'.vol fs) noSlot :=
        Vol.vacated_of_same (by rw [hv]) (by rw [hv])
      refine ⟨hvac.consistent hs hi.consistent, ?_, by rw [hv]; exact hi.heap⟩
      have hcwd : (st'.vol fs).cwd = d.clusterLo := by rw [hv]
      rw [hcwd]
      exact hvac.reached hs hi.consistent (fun ht => absurd ht Vol.noSlot_not_inTree) hreach
        (fun hd => absurd hd.1 Vol.noSlot_not_inTree)

theorem FsRun.cwdInv (hs : fs.Sane ps) {st0 : FatState}
    (hrun : FsRun fs (fun st call => ¬ call.Harms fs (st.vol fs)) st0 st)
    (hi : (st0.vol fs).CwdInv fs) : (st.vol fs).CwdInv fs := by
  induction hrun with
  | init => exact hi
  | step call _ hok hpath hlen hclean hstep ih => exact call.cwdInv hs ih hok hpath hlen hclean hstep

end Runs

/-- **The working directory stays a live directory** in every run of calls that neither remove the
    working directory nor fail to replace a file: it is the root, or reachable from it, and its
    clusters are neither free nor those of a file. -/
theorem fsRun_cwd {fs : Fs} {ps : ℕ} (hs : fs.Sane ps) {fault : Faults}
    {st0 st1 st : FatState} (hmount : fatMount.run (ataHandler fault) st0 = .ok (some fs, st1))
    (hwf : (st1.vol fs).WellFormed fs) (hheap : ∃ l, st1.heap.blocks = some l)
    (hrun : FsRun fs (fun st call => ¬ call.Harms fs (st.vol fs)) st1 st) :
    st.cwdCluster = 0 ∨ ((st.vol fs).Live fs st.cwdCluster ∧
      ∀ c ∈ (st.vol fs).chain fs st.cwdCluster, (st.vol fs).fat c ≠ clusterFree ∧
        ∀ s, (st.vol fs).Owner fs s → ((st.vol fs).entry s).isDir = false →
          c ∉ (st.vol fs).ownChain fs s) := by
  have hi1 : (st1.vol fs).CwdInv fs := by
    refine ⟨hwf.toConsistent, ?_, ?_⟩
    · have hcwd : (st1.vol fs).cwd = 0 := (fatMount_run hmount).1
      rw [hcwd]
      exact Vol.Reached.root
    · obtain ⟨l, hl⟩ := hheap
      exact ⟨l, hl, Heap.blockList_of_blocks hl⟩
  have hi := hrun.cwdInv hs hi1
  have h := hi.consistent
  by_cases h0 : st.cwdCluster = 0
  · exact Or.inl h0
  · have hlive : (st.vol fs).Live fs st.cwdCluster := hi.cwd.live
    refine Or.inr ⟨hlive, ?_⟩
    obtain ⟨q, t, hq, htq, hsub, hcl⟩ := Vol.Consistent.exists_owner hlive h0
    have ho := hsub.owner ⟨q, hq, htq⟩
    intro c hc
    have hct : c ∈ (st.vol fs).ownChain fs t := by
      rw [Vol.ownChain, hcl]
      exact hc
    refine ⟨h.ownChain_ne_free ho hct, fun s hos hfile hcs => ?_⟩
    obtain rfl := h.owner_unique hos ho hcs hct
    exact absurd hsub.2.1 (by simp [hfile])

/-- A disk with the empty directory `D`. -/
def oneDir : FatState := smallState [0xFFF8, 0xFFFF, 0xFFFF]
  [{ dirEntry 2 with name := name83 [0x44] [] }] [entrySector [dotEntry 2, dotdotEntry 0]]

theorem oneDir_wellFormed {st : FatState} (hdisk : st.disk = oneDir.disk) :
    (st.vol smallFs).WellFormed smallFs := by
  have hc : (oneDir.vol smallFs).Check smallFs [0, 2] := by decide +kernel
  have hmem : (⟨0, 0⟩ : Slot) ∈ (oneDir.vol smallFs).dirSlots smallFs 0 := by decide +kernel
  have hsub : (oneDir.vol smallFs).IsSubDir ⟨0, 0⟩ := by decide +kernel
  have hcl : ((oneDir.vol smallFs).entry ⟨0, 0⟩).clusterLo = 2 := by decide +kernel
  have hwf := hc.wellFormed_sub (hcl ▸ Vol.Live.sub Vol.Live.root hmem hsub)
  have hv : (oneDir.vol smallFs).Vacated smallFs (st.vol smallFs) noSlot :=
    Vol.vacated_of_same (by rw [FatState.vol, hdisk]; rfl) (by rw [FatState.vol, hdisk]; rfl)
  refine hv.wellFormed smallFs_sane hwf ?_ ?_ ?_
  · intro ht
    exact absurd ht Vol.noSlot_not_inTree
  · intro ho
    exact absurd ho.1 Vol.noSlot_not_inTree
  · intro c _
    rw [FatState.vol, hdisk]
    rfl

/-- The disk of `oneDir`, with a heap. -/
def roomyDir : FatState := { oneDir with heap := heapInit smallMap (fun _ => 0) }

set_option synthInstance.maxSize 1000 in
/-- `cd D`, a write of the new file `F` there, and `rm F`, after `fat_mount`. -/
theorem fsRun_cwd_oneDir : ∃ st1 st2 st, fatMount.run (ataHandler noFaults) roomyDir
      = .ok (some smallFs, st1) ∧
    FsRun smallFs (fun st call => ¬ call.Harms smallFs (st.vol smallFs)) st1 st2 ∧
    (st2.vol smallFs).denote smallFs [slash, 0x44, slash, 0x46] = some (.file [0x61, 0x62]) ∧
    FsRun smallFs (fun st call => ¬ call.Harms smallFs (st.vol smallFs)) st1 st ∧
    (st.vol smallFs).denote smallFs [slash, 0x44, slash, 0x46] = none ∧
    st.cwdCluster = 2 ∧ (st.vol smallFs).Live smallFs 2 := by
  have hrun : (fatMount >>= fun m => fatCd smallFs [0x44] >>= fun r => pure (m, r)).Ends
      (ataHandler noFaults) roomyDir (fun r st => r = (some smallFs, 0) ∧
        (∀ x ∈ (st.vol smallFs).parent smallFs [0x46],
          (st.vol smallFs).findSlot smallFs x.1.clusterLo x.2 = none) ∧
        NoAtaError noFaults (fatWriteFile smallFs [0x46] [0x61, 0x62]) st ∧
        (fatWriteFile smallFs [0x46] [0x61, 0x62]).Ends (ataHandler noFaults) st
          (fun _ st => (st.vol smallFs).denote smallFs [slash, 0x44, slash, 0x46]
              = some (.file [0x61, 0x62]) ∧
            (st.vol smallFs).denote smallFs [0x46] = some (.file [0x61, 0x62]) ∧
            NoAtaError noFaults (fatRm smallFs [0x46]) st ∧
            (fatRm smallFs [0x46]).Ends (ataHandler noFaults) st
              (fun _ st => (st.vol smallFs).denote smallFs [slash, 0x44, slash, 0x46] = none ∧
                st.cwdCluster = 2))) := by decide +kernel
  have hclean : NoAtaError noFaults
      (fatMount >>= fun m => fatCd smallFs [0x44] >>= fun r => pure (m, r)) roomyDir := by decide +kernel
  obtain ⟨_, st2, hrun, rfl, hnew, hclean2, _, st3, hwrite, hfile, hF, hclean3, _, st4, hrm, hgone,
    hcwd⟩ := hrun
  obtain ⟨m, st1, hmount, hrun⟩ := Prog.run_bind_inv _ hrun
  obtain ⟨r, st', hcd, hend⟩ := Prog.run_bind_inv _ hrun
  obtain ⟨⟨rfl, rfl⟩, rfl⟩ : (m = some smallFs ∧ r = 0) ∧ st' = st2 := by simpa using hend
  obtain ⟨-, hdisk, hheap⟩ := fatMount_run hmount
  have hsteps1 : FsRun smallFs (fun st call => ¬ call.Harms smallFs (st.vol smallFs)) st1 st' :=
    FsRun.step (FsCall.cd [0x44]) FsRun.init id (by decide) (by decide)
      (hclean.of_bind.2 _ _ hmount).of_bind.1 hcd
  have hsteps2 := FsRun.step (FsCall.change (.writeFile [0x46] [0x61, 0x62])) hsteps1
    (by rintro ⟨d, name, s, hp, hf, -⟩; exact absurd hf (by simp [hnew (d, name) hp]))
    (by decide) (by decide) hclean2 hwrite
  have hsteps3 := FsRun.step (FsCall.change (.rm [0x46])) hsteps2
    (by rintro ⟨-, hd⟩; exact absurd (hF.symm.trans hd) (by simp)) (by decide) (by decide) hclean3 hrm
  have hlive := fsRun_cwd smallFs_sane hmount (oneDir_wellFormed hdisk)
    ⟨_, by rw [hheap]; exact (heapInit_inv rfl (by decide) (by decide) (by decide)).blocks_eq⟩ hsteps3
  rw [hcwd] at hlive
  exact ⟨st1, st3, st4, hmount, hsteps2, hfile, hsteps3, hgone, hcwd,
    (hlive.resolve_left (by decide)).1⟩

/-- `cd D` and then `rm /D` leave the working directory in a free cluster. -/
theorem fatRm_removes_cwd : ∃ st1 st, fatMount.run (ataHandler noFaults) oneDir
      = .ok (some smallFs, st1) ∧ smallFs.Sane 7 ∧ (st1.vol smallFs).WellFormed smallFs ∧
    FsRun smallFs (fun _ _ => True) st1 st ∧ st.cwdCluster = 2 ∧
    ¬ (st.vol smallFs).Live smallFs 2 ∧ (st.vol smallFs).fat 2 = clusterFree := by
  have hrun : (fatMount >>= fun m => fatCd smallFs [0x44] >>= fun r =>
        fatRm smallFs [slash, 0x44] >>= fun r' => pure (m, r, r')).Ends
      (ataHandler noFaults) oneDir
      (fun r st => r = (some smallFs, 0, 0) ∧ st.cwdCluster = 2 ∧
        (st.vol smallFs).Closed smallFs [0] ∧ (st.vol smallFs).fat 2 = clusterFree) := by
    decide +kernel
  have hclean : NoAtaError noFaults (fatMount >>= fun m => fatCd smallFs [0x44] >>= fun r =>
      fatRm smallFs [slash, 0x44] >>= fun r' => pure (m, r, r')) oneDir := by decide +kernel
  obtain ⟨_, st, hrun, rfl, hcwd, hclosed, hfat⟩ := hrun
  obtain ⟨m, st1, hmount, hrun⟩ := Prog.run_bind_inv _ hrun
  obtain ⟨r, st2, hcd, hrun⟩ := Prog.run_bind_inv _ hrun
  obtain ⟨r', st3, hrm, hend⟩ := Prog.run_bind_inv _ hrun
  obtain ⟨⟨rfl, rfl, rfl⟩, rfl⟩ : (m = some smallFs ∧ r = 0 ∧ r' = 0) ∧ st3 = st := by simpa using hend
  have hclean1 := hclean.of_bind.2 _ _ hmount
  have hclean2 := (hclean1.of_bind.2 _ _ hcd).of_bind.1
  have hsteps1 : FsRun smallFs (fun _ _ => True) st1 st2 :=
    FsRun.step (FsCall.cd [0x44]) FsRun.init trivial (by decide) (by decide) hclean1.of_bind.1 hcd
  have hsteps2 := FsRun.step (FsCall.change (.rm [slash, 0x44])) hsteps1 trivial (by decide)
    (by decide) hclean2 hrm
  refine ⟨st1, st3, hmount, smallFs_sane, oneDir_wellFormed (fatMount_run hmount).2.1, hsteps2, hcwd,
    fun hlive => ?_, hfat⟩
  exact absurd (hclosed.mem_of_live hlive) (by decide)

end OctoOS
