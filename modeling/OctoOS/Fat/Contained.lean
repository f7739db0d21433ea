import OctoOS.Fat.Preserve
import OctoOS.Fat.Writes

set_option autoImplicit false

/-! # Where the calls write

The driver takes cluster numbers from directory entries and from the FAT as they are: only
`cluster_alloc` compares one with `max_cluster`. `Vol.InRange` says that every cluster number the
calls can come to is one of the data area, and nothing else about the disk: chains may cross, loop
or end early, and sizes, names and free clusters may be wrong. On such a disk every write of a call
is to the FAT copies, if it is one of `fat_set`, and otherwise behind them and inside the
partition, whatever the device does. Consistent volumes are in range. -/

namespace OctoOS

open Atomic Tiling Linked

/-! ## Cluster numbers the driver comes to -/

namespace Vol

variable (fs : Fs) (v : Vol)

/-- The slots a loop over the directory at `d` comes to; every such loop ends at a 0x00 name. -/
inductive Passes (d : UInt16) : Slot → Prop where
  | first : Passes d ⟨d, 0⟩
  | entry {c : UInt16} {i : ℕ} : Passes d ⟨c, i⟩ → (v.entry ⟨c, i⟩).name.first ≠ 0x00 →
      i + 1 < fs.slotCount c → Passes d ⟨c, i + 1⟩
  | cluster {c : UInt16} {i : ℕ} : Passes d ⟨c, i⟩ → (v.entry ⟨c, i⟩).name.first ≠ 0x00 →
      i + 1 = fs.slotCount c → c ≠ 0 → ¬ isEoc (v.fat c) → Passes d ⟨v.fat c, 0⟩

/-- The directories a path can lead through. -/
inductive Meets : UInt16 → Prop where
  | root : Meets 0
  | cwd : Meets v.cwd
  | entry {d : UInt16} {s : Slot} : Meets d → v.Passes fs d s → s.idx < fs.slotCount s.area →
      entryInUse (v.entry s) = true → (v.entry s).isDir = true → Meets (v.entry s).clusterLo

/-- The clusters `chain_free` comes to from `c`. -/
inductive Follows (c : UInt16) : UInt16 → Prop where
  | first : 2 ≤ c → ¬ isEoc c → Follows c c
  | next {x : UInt16} : Follows c x → 2 ≤ v.fat x → ¬ isEoc (v.fat x) → Follows c (v.fat x)

/-- The cluster numbers the calls come to are those of clusters of the data area. The chains of
    entries whose name starts with a dot are not followed. -/
structure InRange : Prop where
  dirs : ∀ d s, v.Meets fs d → d ≠ 0 → v.Passes fs d s → fs.IsCluster s.area
  chains : ∀ d s x, v.Meets fs d → v.Passes fs d s → s.idx < fs.slotCount s.area →
    entryInUse (v.entry s) = true → (v.entry s).name.first ≠ dot →
    v.Follows (v.entry s).clusterLo x → fs.IsCluster x

end Vol

section Reading

variable {fs : Fs} {ps : ℕ} {fails : Faults} {J : Disk → Prop} {v : Vol} {d : UInt16}
  {α β : Type} {s : Slot}

theorem Vol.Passes.area_zero (h : v.Passes fs 0 s) : s.area = 0 := by
  induction h with
  | first => rfl
  | entry _ _ _ ih => exact ih
  | cluster _ _ _ hc _ ih => exact absurd ih hc

theorem Vol.InRange.isArea (hr : v.InRange fs) (hd : v.Meets fs d) (hp : v.Passes fs d s) :
    fs.IsArea s.area := by
  by_cases h0 : d = 0
  · subst h0
    exact Or.inl hp.area_zero
  · exact (hr.dirs d s hd h0 hp).isArea

theorem Vol.Follows.two_le {c x : UInt16} (h : v.Follows c x) : 2 ≤ c := by
  induction h with
  | first h2 _ => exact h2
  | next _ _ _ ih => exact ih

/-- The links from an entry that `fat_rm` or `fat_write_file` may free. -/
theorem Vol.linksIn_follows {c : UInt16} (h : ∀ x, v.Follows c x → fs.IsCluster x) :
    fs.LinksIn (v.Follows c) v.fat :=
  fun x hx => ⟨h x hx, fun h2 he => Follows.next hx h2 he⟩

/-! ## Loops over a directory -/

/-- What `dir_next` answers with: a slot that the loop passes. -/
def Vol.Next (fs : Fs) (v : Vol) (d : UInt16) (r : Option (DirIter × Dirent × Loc)) : Prop :=
  ∀ x ∈ r, ∃ s, v.Passes fs d s ∧ fs.IsSlot s ∧ x = (DirIter.behind s, v.entry s, s.loc fs)

theorem DirIter.Before.finds {it : DirIter} {o : Option Slot} (h : it.Before fs v o) (hs : fs.Sane ps)
    (ho : ∀ s ∈ o, v.Passes fs d s) : fs.Finds ps fails v J (dirNext fs it) (v.Next fs d) := by
  refine Fs.Guarded.of_looks (dirNext_looks it) (fun st hst => (dirNext_ends h.ok st).mono ?_)
  rintro r _ ⟨-, hr⟩ ⟨n, buf, rfl⟩
  refine ⟨hst, fun x hx => ?_⟩
  obtain ⟨s, hs, rfl⟩ := (h.answers hs hst.1 hr).1 x hx
  exact ⟨s, ho s hs, h.slot s hs, rfl⟩

section Dirs

variable (hs : fs.Sane ps) (hr : v.InRange fs) (hd : v.Meets fs d)

include hs hr hd

/-- `dir_next` at the start of a directory. -/
theorem dirNext_begin : fs.Finds ps fails v J (dirNext fs (dirBegin d)) (v.Next fs d) := by
  refine (dirBegin_before hs (hr.isArea hd (Vol.Passes.first (d := d)))).finds hs (fun s ho => ?_)
  unfold Fs.firstSlot at ho
  split_ifs at ho
  · cases ho
    exact Vol.Passes.first
  · cases ho

/-- `dir_next` behind a slot. -/
theorem dirNext_behind {s : Slot} (hp : v.Passes fs d s) (hsl : fs.IsSlot s)
    (hname : (v.entry s).name.first ≠ 0x00) :
    fs.Finds ps fails v J (dirNext fs (DirIter.behind s)) (v.Next fs d) := by
  have hpass : ∀ t ∈ v.nextSlot fs s, v.Passes fs d t := by
    intro t ho
    unfold Vol.nextSlot at ho
    split_ifs at ho with hend hstop
    · cases ho
      exact Vol.Passes.entry hp hname hend
    · cases ho
    · cases ho
      rw [not_or] at hstop
      exact Vol.Passes.cluster hp hname (by have := hsl.2; omega) hstop.1 hstop.2
  refine (behind_before hs hsl (fun hend h0 hgo => ?_)).finds hs hpass
  refine hr.dirs d ⟨v.fat s.area, 0⟩ hd (fun hd0 => h0 ?_) (hpass _ ?_)
  · subst hd0
    exact hp.area_zero
  · rw [Vol.nextSlot, if_neg (not_lt.2 hend), if_neg (not_or.2 ⟨h0, hgo⟩)]
    rfl

/-- A loop over a directory whose body ends it at a 0x00 name. -/
theorem dirWhile_guarded {body : Dirent → Loc → Option β} {R : β → Prop}
    (hbody : ∀ s, v.Passes fs d s → fs.IsSlot s → (∀ b ∈ body (v.entry s) (s.loc fs), R b) ∧
      (body (v.entry s) (s.loc fs) = none → (v.entry s).name.first ≠ 0x00)) (fuel : ℕ) :
    fs.Finds ps fails v J (dirWhile fs (fun e l => pure (body e l)) fuel (dirBegin d))
      (fun r => ∀ b ∈ r, R b) := by
  have hloop : ∀ it, fs.Finds ps fails v J (dirNext fs it) (v.Next fs d) →
      fs.Finds ps fails v J (dirWhile fs (fun e l => pure (body e l)) fuel it)
        (fun r => ∀ b ∈ r, R b) := by
    induction fuel with
    | zero => exact fun _ _ => Fs.Guarded.stop
    | succ fuel ih =>
      intro it hnext
      rw [dirWhile]
      refine hnext.search (Fs.Finds.pure (by simp)) ?_
      rintro r ⟨s, hp, hsl, rfl⟩
      obtain ⟨hfound, hname⟩ := hbody s hp hsl
      dsimp only
      cases hb : body (v.entry s) (s.loc fs) with
      | some b => exact Fs.Finds.pure (by rwa [hb] at hfound)
      | none => exact ih _ (dirNext_behind hs hr hd hp hsl (hname hb))
  exact hloop _ (dirNext_begin hs hr hd)

end Dirs

end Reading

/-! ## Paths -/

/-- What a walk along a path carries: a directory that can be met, a location behind the FAT
    copies once there is one, and a chain that may be freed. -/
structure Vol.Came (fs : Fs) (ps : ℕ) (v : Vol) (d : Dirent) (loc : Loc) : Prop where
  dir : d.isDir = true → v.Meets fs d.clusterLo
  sector : loc.lba ≠ 0 → fs.InAreas ps loc.lba
  chain : loc.lba ≠ 0 → d.name.first ≠ dot → ∀ x, v.Follows d.clusterLo x → fs.IsCluster x

/-- What `dir_find` answers with: the synthetic root, or an entry that the loop passes. -/
def Vol.Found (fs : Fs) (v : Vol) (d : UInt16) (name : Name83) (p : Dirent × Option Loc) : Prop :=
  (d = 0 ∧ name.first = dot ∧ p = (dirEntry 0, none)) ∨
  (¬ (d = 0 ∧ name.first = dot) ∧ ∃ s, v.Passes fs d s ∧ fs.IsSlot s ∧ entryInUse (v.entry s) = true ∧
    (v.entry s).name = name ∧ p = (v.entry s, some (s.loc fs)))

/-- The entries a path leads through. -/
inductive Vol.Leads (fs : Fs) (v : Vol) : Dirent → List Bytes → Dirent → Prop where
  | nil {d : Dirent} : Leads fs v d [] d
  | cons {d e : Dirent} {comp : Bytes} {rest : List Bytes} {name : Name83} {p : Dirent × Option Loc} :
      to83 comp = some name → d.isDir = true → v.Meets fs d.clusterLo →
      v.Found fs d.clusterLo name p → Leads fs v p.1 rest e → Leads fs v d (comp :: rest) e

section Paths

variable {fs : Fs} {ps : ℕ} {fails : Faults} {J : Disk → Prop} {v : Vol} {d : UInt16}

theorem Slot.loc_inAreas (hs : fs.Sane ps) {s : Slot} (hsl : fs.IsSlot s) :
    fs.InAreas ps (s.loc fs).lba := Fs.area_bounds hs hsl.1 hsl.sector_lt

/-- The start of a walk. -/
theorem Vol.came_start (v : Vol) (path : Bytes) :
    v.Came fs ps (dirEntry (pathStart v.cwd path).1) ⟨0, 0⟩ := by
  refine ⟨fun _ => ?_, fun h => absurd rfl h, fun h => absurd rfl h⟩
  cases path with
  | nil => exact Vol.Meets.cwd
  | cons c path =>
    rw [pathStart]
    split_ifs
    · exact Vol.Meets.root
    · exact Vol.Meets.cwd

variable (hs : fs.Sane ps) (hr : v.InRange fs)

include hs hr

theorem dirFind_guarded (hd : v.Meets fs d) (name : Name83) :
    fs.Finds ps fails v J (dirFind fs d name) (fun r => ∀ p ∈ r, v.Found fs d name p) := by
  unfold dirFind
  by_cases hroot : d = 0 ∧ name.first = dot
  · rw [if_pos hroot]
    refine Fs.Finds.pure ?_
    rintro p ⟨⟩
    exact Or.inl ⟨hroot.1, hroot.2, rfl⟩
  rw [if_neg hroot]
  refine (dirWhile_guarded hs hr hd (R := fun o => ∀ p ∈ o, v.Found fs d name (p.1, some p.2))
    (fun s hp hsl => ?_) dirLoopBound).bind (fun r hfound => Fs.Finds.pure (fun p hp => ?_))
  · unfold findEntry
    split_ifs with h0 hin hname
    · simp
    · exact ⟨by simp, fun _ => h0⟩
    · refine ⟨?_, by simp⟩
      rintro o ⟨⟩ p ⟨⟩
      exact Or.inr ⟨hroot, s, hp, hsl, by simpa using hin, hname, rfl⟩
    · exact ⟨by simp, fun _ => h0⟩
  · obtain ⟨q, hq, rfl⟩ := Option.map_eq_some_iff.1 hp
    exact hfound _ (Option.join_eq_some_iff.1 hq) q rfl

/-- One component of a path. -/
theorem Vol.Came.step (hd : v.Meets fs d) {name : Name83} {p : Dirent × Option Loc} {loc : Loc}
    (hf : v.Found fs d name p) (hloc : loc.lba ≠ 0 → fs.InAreas ps loc.lba) :
    v.Came fs ps p.1 (p.2.getD loc) := by
  rcases hf with ⟨-, -, rfl⟩ | ⟨-, s, hp, hsl, hin, -, rfl⟩
  · -- cluster 0 starts no chain
    exact ⟨fun _ => Vol.Meets.root, hloc, fun _ _ x hx => absurd hx.two_le (by decide)⟩
  · exact ⟨fun hdir => Vol.Meets.entry hd hp hsl.2 hin hdir, fun _ => Slot.loc_inAreas hs hsl,
      fun _ hdot x hx => hr.chains d s x hd hp hsl.2 hin hdot hx⟩

theorem resolveLoop_guarded (parentOf : Bool) (comps : List Bytes) {out : Dirent} {loc : Loc}
    (hc : v.Came fs ps out loc) :
    fs.Finds ps fails v J (resolveLoop fs parentOf comps out loc) (fun r => ∀ p ∈ r,
      v.Came fs ps p.1 p.2.1 ∧ (parentOf = false → v.Leads fs out comps p.1)) := by
  induction comps generalizing out loc with
  | nil =>
    rw [resolveLoop]
    refine Fs.Finds.pure ?_
    split_ifs
    · simp
    · rintro p ⟨⟩
      exact ⟨hc, fun _ => Vol.Leads.nil⟩
  | cons comp rest ih =>
    rw [resolveLoop]
    cases hn : to83 comp with
    | none => exact Fs.Finds.pure (by simp)
    | some name =>
      simp only
      split_ifs with hlast hdir
      · refine Fs.Finds.pure ?_
        rintro p ⟨⟩
        exact ⟨hc, fun hno => absurd hlast.1 (by simp [hno])⟩
      · exact Fs.Finds.pure (by simp)
      · have hdir' : out.isDir = true := by simpa using hdir
        have hmeets := hc.dir hdir'
        refine (dirFind_guarded hs hr hmeets name).search (Fs.Finds.pure (by simp)) (fun p hf => ?_)
        refine Fs.Guarded.mono (ih (Vol.Came.step hs hr hmeets hf hc.sector)) (fun _ h => h) ?_
        rintro r st ⟨hst, h⟩
        exact ⟨hst, fun q hq => ⟨(h q hq).1,
          fun hno => Vol.Leads.cons hn hdir' hmeets hf ((h q hq).2 hno)⟩⟩

theorem resolve_guarded (parentOf : Bool) (path : Bytes) :
    fs.Finds ps fails v J (resolve fs parentOf path ⟨0, 0⟩) (fun r => ∀ p ∈ r,
      v.Came fs ps p.1 p.2.1 ∧ (parentOf = false → v.Leads fs (dirEntry (pathStart v.cwd path).1)
        (components (pathStart v.cwd path).2) p.1)) := by
  have hcwd : fs.Finds ps fails v J getCwdCluster (fun c => c = v.cwd) := by
    refine Fs.Guarded.perform (fun _ => trivial) (fun st r st' h ho => ?_)
    cases ho
    exact ⟨h, congrArg Vol.cwd h.1⟩
  unfold resolve
  refine hcwd.bind (fun cwd hcwd => ?_)
  subst hcwd
  exact resolveLoop_guarded hs hr parentOf _ (v.came_start path)

theorem parentOf_guarded (path : Bytes) :
    fs.Finds ps fails v J (parentOf fs path)
      (fun r => ∀ p ∈ r, v.Meets fs p.1.clusterLo ∧ p.2.first ≠ dot) := by
  unfold parentOf
  refine (resolve_guarded hs hr true path).search (Fs.Finds.pure (by simp)) (fun p hp => ?_)
  simp only
  split_ifs with hbad
  · exact Fs.Finds.pure (by simp)
  · have hok : p.1.isDir = true ∧ p.2.2.first ≠ dot := by simpa using hbad
    refine Fs.Finds.pure ?_
    rintro q ⟨⟩
    exact ⟨hp.1.dir hok.1, hok.2⟩

theorem dirFreeSlot_guarded (hd : v.Meets fs d) :
    fs.Finds ps fails v J (dirFreeSlot fs d) (fun r => ∀ l ∈ r, fs.InAreas ps l.lba) := by
  refine dirWhile_guarded hs hr hd (fun s _ hsl => ?_) dirLoopBound
  split_ifs with hfree
  · refine ⟨?_, by simp⟩
    rintro l ⟨⟩
    exact Slot.loc_inAreas hs hsl
  · exact ⟨by simp, fun _ h0 => hfree (Or.inl h0)⟩

theorem dirIsEmpty_guarded (hd : v.Meets fs d) :
    fs.Finds ps fails v J (dirIsEmpty fs d) (fun _ => True) := by
  unfold dirIsEmpty
  refine (dirWhile_guarded hs hr hd (R := fun _ => True) (fun s _ hsl => ?_) dirLoopBound).bind
    (fun r _ => Fs.Finds.pure trivial)
  refine ⟨fun _ _ => trivial, fun hnone h0 => ?_⟩
  rw [scanEntry, if_pos h0] at hnone
  cases hnone

end Paths

/-! ## The calls -/

section Calls

variable {fs : Fs} {ps : ℕ} {fails : Faults} {J : Disk → Prop} {v : Vol}

/-- What keeps `J` may follow a search. -/
theorem Fs.Guards.shows {α : Type} {p : Fat α} (hp : fs.Guards ps fails J p) :
    fs.Guarded ps fails (fs.Shows v J) p (fun _ st => J st.disk) := Fs.Guarded.pre hp (fun _ h => h.2)

/-- A message and the answer -1. -/
theorem refuse_guarded (text : Bytes) : fs.Guards ps fails J (do print text; return (-1 : Int)) :=
  Fs.Guards.perform_pure rfl J _

variable (hs : fs.Sane ps) (hJ : fs.Keeps ps fails J)

include hs hJ

/-- The chain of an entry is freed if it has one. -/
theorem freeOld_guarded {c : UInt16} (hc : ∀ x, v.Follows c x → fs.IsCluster x) {p : Fat Int}
    (hp : fs.Guards ps fails J p) :
    fs.Guarded ps fails (fs.Shows v J) (do if 2 ≤ c then chainFree fs c
                                           p) (fun _ st => J st.disk) := by
  by_cases h2 : 2 ≤ c
  · rw [if_pos h2]
    refine Fs.Guarded.bind (Fs.Guarded.pre (chainFree_guarded hs hJ (G := v.Follows c)
      (fun h2 he => Vol.Follows.first h2 he)) (fun st h => ⟨h.2, ?_⟩)) (fun _ => hp)
    have hlinks := Vol.linksIn_follows hc
    rw [← h.1] at hlinks ⊢
    exact hlinks
  · rw [if_neg h2]
    exact hp.shows

variable (hr : v.InRange fs)

include hr

theorem fatWriteFile_guarded (path data : Bytes) :
    fs.Guarded ps fails (fs.Shows v J) (fatWriteFile fs path data) (fun _ st => J st.disk) := by
  unfold fatWriteFile
  rw [if_neg (by simp [hs.mounted])]
  refine (parentOf_guarded hs hr path).search (refuse_guarded _).shows ?_
  rintro p ⟨hmeets, hdot⟩
  refine (dirFind_guarded hs hr hmeets p.2).search ?_ ?_
  · exact (dirFreeSlot_guarded hs hr hmeets).search (refuse_guarded _).shows
      (fun loc hloc => (writeEntry_guarded hs hJ data _ hloc).shows)
  · rintro q (⟨-, h0, -⟩ | ⟨-, s, hp, hsl, hin, hname, rfl⟩)
    · exact absurd h0 hdot
    · simp only
      by_cases hdir : (v.entry s).isDir = true
      · rw [if_pos hdir]
        exact (refuse_guarded _).shows
      · rw [if_neg hdir]
        exact freeOld_guarded hs hJ
          (fun x hx => hr.chains _ s x hmeets hp hsl.2 hin (by rw [hname]; exact hdot) hx)
          (writeEntry_guarded hs hJ data _ (Slot.loc_inAreas hs hsl))

theorem fatRm_guarded (path : Bytes) :
    fs.Guarded ps fails (fs.Shows v J) (fatRm fs path) (fun _ st => J st.disk) := by
  unfold fatRm
  rw [if_neg (by simp [hs.mounted])]
  refine (resolve_guarded hs hr false path).search (refuse_guarded _).shows ?_
  rintro p ⟨hc, -⟩
  simp only
  by_cases hbad : p.2.1.lba = 0 ∨ p.1.name.first = dot
  · rw [if_pos hbad]
    exact (refuse_guarded _).shows
  rw [if_neg hbad]
  obtain ⟨hlba, hdot⟩ := not_or.1 hbad
  have hremove : fs.Guarded ps fails (fs.Shows v J) (removeEntry fs p.1 p.2.1)
      (fun _ st => J st.disk) :=
    freeOld_guarded hs hJ (hc.chain hlba hdot)
      ((locUpdate_guarded hJ (hc.sector hlba) _).bind (fun _ => Fs.Guarded.pure (fun _ h => h)))
  by_cases hdir : p.1.isDir = true
  · rw [if_pos hdir]
    refine (dirIsEmpty_guarded hs hr (hc.dir hdir)).bind (fun b _ => ?_)
    cases b with
    | true => exact hremove
    | false => exact (refuse_guarded _).shows
  · rw [if_neg hdir]
    exact hremove

theorem fatMkdir_guarded (path : Bytes) :
    fs.Guarded ps fails (fs.Shows v J) (fatMkdir fs path) (fun _ st => J st.disk) := by
  unfold fatMkdir
  rw [if_neg (by simp [hs.mounted])]
  refine (parentOf_guarded hs hr path).search (refuse_guarded _).shows ?_
  rintro p ⟨hmeets, -⟩
  refine (dirFind_guarded hs hr hmeets p.2).search ?_ (fun _ _ => (refuse_guarded _).shows)
  refine (dirFreeSlot_guarded hs hr hmeets).search (refuse_guarded _).shows (fun loc hloc => ?_)
  refine Fs.Guarded.bind (Fs.Guarded.pre (clusterAlloc_guarded hs hJ (G := fun _ => False))
    (fun _ h => ⟨h.2, fun _ hc => hc.elim⟩)) (fun c => ?_)
  by_cases h0 : c = 0
  · rw [if_pos h0]
    exact Fs.Guarded.pre (refuse_guarded _) (fun _ h => h.1.1)
  rw [if_neg h0]
  refine Fs.Guarded.pre (Fs.Guarded.of_pre (P := fun st => J st.disk) (fun hcl => ?_))
    (fun st h => ⟨(h.2.resolve_left h0).1, h.1.1⟩)
  refine (clusterZero_guarded hs hJ hcl).bind (fun b => ?_)
  cases b with
  | true => exact makeDir_guarded hs hJ hcl hloc _ _
  | false => exact refuse_guarded _

theorem FatCall.guarded (call : FatCall) :
    fs.Guarded ps fails (fs.Shows v J) (call.prog fs) (fun _ st => J st.disk) := by
  cases call with
  | writeFile path data => exact fatWriteFile_guarded hs hJ hr path data
  | rm path => exact fatRm_guarded hs hJ hr path
  | mkdir path => exact fatMkdir_guarded hs hJ hr path

end Calls

/-- A write outside the partition, or one of `fat_set` outside the FAT copies. -/
def Escapes (fs : Fs) (ps : ℕ) : fatSig.Op → Bool × FatState → Prop
  | .ataWrite lba, gs => ¬ (fs.partLba ≤ lba ∧ lba < fs.partLba + ps) ∨ (gs.1 = true ∧ ¬ fs.InFats lba)
  | .ataWriteFrom lba count _, _ => ∃ k < count, ¬ (fs.partLba ≤ lba + k ∧ lba + k < fs.partLba + ps)
  | _, _ => False

/-- A write to a FAT sector that is not one of `fat_set`. -/
def TouchesFat (fs : Fs) : fatSig.Op → Bool × FatState → Prop
  | .ataWrite lba, gs => gs.1 = false ∧ fs.InFats lba
  | .ataWriteFrom lba count _, _ => ∃ k < count, fs.InFats (lba + k)
  | _, _ => False

section Contained

variable {fs : Fs} {ps : ℕ} {v : Vol} {d : UInt16}

theorem Fs.InAreas.inPartition (hs : fs.Sane ps) {lba : ℕ} (h : fs.InAreas ps lba) :
    fs.partLba ≤ lba ∧ lba < fs.partLba + ps := by
  have h1 := hs.partLe
  have h2 := hs.fatsLe
  have h3 := h.1
  exact ⟨by omega, h.2⟩

theorem Fs.InFats.inPartition (hs : fs.Sane ps) {lba : ℕ} (h : fs.InFats lba) :
    fs.partLba ≤ lba ∧ lba < fs.partLba + ps := by
  have h1 := hs.partLe
  have h2 := hs.fatsLe
  have h3 := hs.rootLe
  have h4 := hs.dataLe
  obtain ⟨h5, h6⟩ := h
  omega

theorem Fs.InAreas.not_inFats (hs : fs.Sane ps) {lba : ℕ} (h : fs.InAreas ps lba) :
    ¬ fs.InFats lba := by
  intro hf
  have h1 := hs.fatsLe
  have h2 := h.1
  have h3 := hf.2
  omega

theorem Escapes.not_writeOk (hs : fs.Sane ps) {o : fatSig.Op} {gs : Bool × FatState}
    (h : Escapes fs ps o gs) : ¬ WriteOk fs ps o gs := by
  intro hok
  cases o with
  | ataWrite lba =>
    simp only [WriteOk] at hok
    split_ifs at hok with hg
    · exact h.elim (fun hn => hn (hok.inPartition hs)) (fun hn => hn.2 hok)
    · exact h.elim (fun hn => hn (hok.inPartition hs)) (fun hn => hg hn.1)
  | ataWriteFrom lba count data =>
    obtain ⟨k, hk, hn⟩ := h
    exact hn ((hok k hk).inPartition hs)
  | _ => exact h

theorem TouchesFat.not_writeOk (hs : fs.Sane ps) {o : fatSig.Op} {gs : Bool × FatState}
    (h : TouchesFat fs o gs) : ¬ WriteOk fs ps o gs := by
  intro hok
  cases o with
  | ataWrite lba =>
    simp only [WriteOk, h.1, Bool.false_eq_true, if_false] at hok
    exact hok.not_inFats hs h.2
  | ataWriteFrom lba count data =>
    obtain ⟨k, hk, hin⟩ := h
    exact (hok k hk).not_inFats hs hin
  | _ => exact h

theorem Fs.keeps_true {fails : Faults} : fs.Keeps ps fails (fun _ => True) :=
  ⟨fun _ _ _ _ _ _ _ _ => trivial, fun _ _ _ _ _ => trivial⟩

/-- **On a disk whose cluster numbers are in range no call writes outside the partition, and
    `fat_set` writes to the FAT copies only.** -/
theorem fatCall_contained (hs : fs.Sane ps) (call : FatCall) (fails : Faults) (st : FatState)
    (hr : (st.vol fs).InRange fs) :
    (call.prog fs).Clean ((fatHandler fails).monitor editsFat) (Escapes fs ps) (false, st) :=
  (call.guarded hs Fs.keeps_true hr false st ⟨rfl, trivial⟩).clean (fun _ _ h => h.not_writeOk hs)

/-! ## Consistent volumes -/

theorem Vol.Passes.area_mem (h : v.HasChain fs d) {s : Slot} (hp : v.Passes fs d s) :
    s.area ∈ v.chain fs d := by
  induction hp with
  | first => exact h.mem_self
  | entry _ _ _ ih => exact ih
  | cluster _ _ _ _ he ih => exact (h.2.next_mem ih).resolve_right he

theorem Vol.Passes.mem_dirSlots (hd : v.DirOk fs d) {s : Slot} (hp : v.Passes fs d s)
    (hi : s.idx < fs.slotCount s.area) : s ∈ v.dirSlots fs d := by
  refine Vol.mem_dirSlots.2 ⟨hi, ?_⟩
  rcases hd with rfl | hc
  · exact Or.inl ⟨rfl, hp.area_zero⟩
  · exact Or.inr ⟨hc.1.ne_zero, hp.area_mem hc⟩

theorem Vol.Meets.live (h : v.Consistent fs) (hcwd : v.Live fs v.cwd) (hd : v.Meets fs d) :
    v.Live fs d := by
  induction hd with
  | root => exact Vol.Live.root
  | cwd => exact hcwd
  | entry _ hp hi hin hdir ih =>
    exact h.live_of_isDir ih (hp.mem_dirSlots (h.dirOk ih) hi) hin hdir

theorem Vol.Follows.mem_chain {c x : UInt16} (h : 2 ≤ c → v.HasChain fs c) (hx : v.Follows c x) :
    x ∈ v.chain fs c := by
  induction hx with
  | first h2 _ => exact (h h2).mem_self
  | next hf _ he ih =>
    exact ((h hf.two_le).2.next_mem ih).resolve_right he

/-- A consistent volume is in range. -/
theorem Vol.Consistent.inRange (h : v.Consistent fs) (hcwd : v.Live fs v.cwd) : v.InRange fs where
  dirs d s hd h0 hp :=
    Vol.isCluster_of_mem_chain (hp.area_mem ((h.dirOk (hd.live h hcwd)).resolve_left h0))
  chains d s x hd hp hi hin hdot hx := by
    have hlive := hd.live h hcwd
    have howner : v.Owner fs s := ⟨⟨d, hlive, hp.mem_dirSlots (h.dirOk hlive) hi⟩, hin,
      fun hn => hdot hn.head⟩
    exact Vol.isCluster_of_mem_chain
      (hx.mem_chain (fun h2 => h.chains s howner (UInt16.two_le_iff.1 h2)))

end Contained

/-- `fat_mkdir` on a volume with an empty file. -/
theorem fatCall_contained_oneFile : (oneFile.vol smallFs).InRange smallFs ∧
    ((FatCall.mkdir [0x42]).prog smallFs).Clean
      ((ataHandler noFaults).monitor editsFat) (Escapes smallFs 7)
      (false, oneFile) := by
  have hr := oneFile_check.consistent.inRange Vol.Live.root
  exact ⟨hr, fatCall_contained smallFs_sane (.mkdir [0x42]) _ oneFile hr⟩

/-- A volume with the file `A`, whose first cluster is behind the FAT. -/
def wildFile : FatState :=
  smallState [0xFFF8, 0xFFFF] [{ Dirent.zero with name := name83 [0x41] [], clusterLo := 0x1000 }] []

instance (fs : Fs) (ps : ℕ) (o : fatSig.Op) (gs : Bool × FatState) : Decidable (Escapes fs ps o gs) := by
  induction o using FatOp.casesOn <;> unfold Escapes <;> infer_instance

/-- `fat_rm` follows the cluster number of the entry out of the partition. -/
theorem fatRm_escapes : smallFs.Sane 7 ∧
    ¬ ((FatCall.rm [0x41]).prog smallFs).Clean
      ((ataHandler noFaults).monitor editsFat) (Escapes smallFs 7)
      (false, wildFile) :=
  ⟨smallFs_sane, by decide +kernel⟩

/-! ## FAT copies -/

/-- All FAT copies are equal byte for byte. -/
def Fs.InSync (fs : Fs) (disk : Disk) : Prop :=
  ∀ f < fs.numFats, ∀ k < fs.fatSectors, ∀ i < sectorSize,
    disk (fs.fatLba + f * fs.fatSectors + k) i = disk (fs.fatLba + k) i

section InSync

variable {fs : Fs} {ps : ℕ}

theorem fatEdit_congr (c x : UInt16) {s t : Sector} {i : ℕ} (h : s i = t i) :
    fatEdit c x s i = fatEdit c x t i := storeBytes_congr (storeBytes_congr h)

/-- `fat_set` without device errors does the same to every copy. -/
theorem Fs.keeps_inSync (hs : fs.Sane ps) : fs.Keeps ps noFaults fs.InSync where
  fatSet c x hc st b st' hsync hrun := by
    obtain ⟨hin, hout⟩ := fatSet_disk hs hc.2 hrun
    intro f hf k hk i hi
    have hpos : 0 < fs.numFats := hs.numFats
    have hbase : fs.copyLba c 0 = fs.fatLba + c.toNat * 2 / sectorSize := by
      rw [Fs.copyLba, Nat.zero_mul, Nat.add_zero]
    by_cases hsec : k = c.toNat * 2 / sectorSize
    · have hcopy : fs.fatLba + f * fs.fatSectors + k = fs.copyLba c f := by rw [hsec, Fs.copyLba]
      have hzero : fs.fatLba + k = fs.copyLba c 0 := by rw [hbase, hsec]
      rw [hcopy, hzero, hin f hf, hin 0 hpos]
      refine fatEdit_congr c x ?_
      rw [← hcopy, ← hzero]
      exact hsync f hf k hk i hi
    · -- another sector of the copies
      have hmax := hs.maxFat
      have hcm := hc.2
      have hoff : c.toNat * 2 / sectorSize < fs.fatSectors := by
        unfold sectorSize
        omega
      have hkeep : ∀ f, st'.disk (fs.fatLba + f * fs.fatSectors + k)
          = st.disk (fs.fatLba + f * fs.fatSectors + k) := by
        intro f
        refine hout _ (fun j _ heq => hsec ?_)
        unfold Fs.copyLba at heq
        have := congrArg (· % fs.fatSectors) (Nat.add_left_cancel
          ((Nat.add_assoc ..).symm.trans (heq.trans (Nat.add_assoc ..))))
        simpa [Nat.add_mod, Nat.mod_eq_of_lt hk, Nat.mod_eq_of_lt hoff] using this
      have hkeep0 := hkeep 0
      rw [Nat.zero_mul, Nat.add_zero] at hkeep0
      rw [hkeep f, hkeep0]
      exact hsync f hf k hk i hi
  area disk lba sector hsync hlba := by
    have h1 := hs.fatsLe
    have h2 := hlba.1
    have hne : ∀ f < fs.numFats, ∀ k < fs.fatSectors, fs.fatLba + f * fs.fatSectors + k ≠ lba := by
      intro f hf k hk
      have h3 : (f + 1) * fs.fatSectors ≤ fs.numFats * fs.fatSectors := Nat.mul_le_mul_right _ hf
      rw [Nat.add_mul, Nat.one_mul] at h3
      omega
    intro f hf k hk i hi
    have h0 := hne 0 hs.numFats k hk
    rw [Nat.zero_mul, Nat.add_zero] at h0
    rw [Function.update_of_ne (hne f hf k hk), Function.update_of_ne h0]
    exact hsync f hf k hk i hi

/-- **Calls on a well-formed volume keep the FAT copies equal, and write to a FAT sector in
    `fat_set` only.** -/
theorem fatCall_inSync (hs : fs.Sane ps) (call : FatCall) (hlen : call.data.length < 2 ^ 32)
    {fault : Faults} {st : FatState} (hwf : (st.vol fs).WellFormed fs)
    (hcwd : (st.vol fs).Live fs st.cwdCluster) (hheap : ∃ l, st.heap.blocks = some l)
    (hsync : fs.InSync st.disk) (hclean : NoAtaError fault (call.prog fs) st) :
    (∃ r st', (call.prog fs).run (ataHandler fault) st = .ok (r, st') ∧
      fs.InSync st'.disk) ∧
    (call.prog fs).Clean ((ataHandler fault).monitor editsFat) (TouchesFat fs)
      (false, st) := by
  have hr := hwf.toConsistent.inRange hcwd
  constructor
  · obtain ⟨r, v', hy, -⟩ := FatCall.yields hs (FatState.Ready.vol ⟨hwf.toConsistent, hcwd, hheap⟩)
      call hlen
    obtain ⟨st', hrun, -⟩ := hy.run_ok hclean
    refine ⟨r, st', hrun, ?_⟩
    -- without device errors the run is one without faults, where `fat_set` writes every copy
    rw [Prog.run_eq_of_clean fatHandler_eq_of_not_ataError _ _ hclean] at hrun
    obtain ⟨g, hrun'⟩ := @Prog.run_monitor _ _ _ _ editsFat _ _ _ _ _ hrun false
    exact (call.guarded hs (Fs.keeps_inSync hs) hr false st ⟨rfl, hsync⟩).post hrun'
  · exact (call.guarded hs Fs.keeps_true hr false st ⟨rfl, trivial⟩).clean
      (fun _ _ h => h.not_writeOk hs)

end InSync

theorem smallState_inSync (fat : List UInt16) (root : List Dirent) (clusters : List Sector) :
    smallFs.InSync (smallState fat root clusters).disk := by
  intro f hf k hk i hi
  have hk0 : k = 0 := Nat.lt_one_iff.1 hk
  have hf2 : f = 0 ∨ f = 1 := by
    have : f < 2 := hf
    omega
  subst hk0
  rcases hf2 with rfl | rfl <;> rfl

/-- `fat_mkdir` keeps the two FAT copies of the small volume equal. -/
theorem fatCall_inSync_oneFile :
    (∃ r st', ((FatCall.mkdir [0x42]).prog smallFs).run (ataHandler noFaults)
      oneFile = .ok (r, st') ∧ smallFs.InSync st'.disk) ∧
    ((FatCall.mkdir [0x42]).prog smallFs).Clean
      ((ataHandler noFaults).monitor editsFat) (TouchesFat smallFs)
      (false, oneFile) :=
  fatCall_inSync smallFs_sane (.mkdir [0x42]) (by decide)
    oneFile_check.wellFormed_root Vol.Live.root (smallState_heap _ _ _) (smallState_inSync _ _ _)
    (by decide +kernel)

end OctoOS
