import OctoOS.Fat.Frame
import OctoOS.Fat.Resolve

set_option autoImplicit false

/-! # What the calls do

One outcome relation per exported call that writes: every way the call can go on a consistent
volume, with its result and the volume after it. The theorems say that the call runs to its end
with one of these outcomes; everything behind this file is derived from the outcomes. -/

namespace OctoOS

open Atomic Tiling Linked

/-- What the calls need of the state they start in. -/
structure Vol.Ready (fs : Fs) (v : Vol) : Prop where
  consistent : v.Consistent fs
  cwd : v.Live fs v.cwd
  heap : ∃ l, v.heap = some l ∧ BlockList l

/-- The entry `fat_write_file` stores for data in the clusters `cs`. -/
def fileEntry (e : Dirent) (cs : List UInt16) (data : Bytes) : Dirent :=
  { e with clusterLo := cs.headD 0, clusterHi := 0, size := UInt32.ofNat data.length }

/-- The outcomes of `fat_write_file`. -/
inductive Vol.WriteOutcome (fs : Fs) (v : Vol) (path data : Bytes) : Int → Vol → Prop where
  | badPath : v.parent fs path = none → WriteOutcome fs v path data (-1) v
  | isDirectory {d : Dirent} {name : Name83} {s : Slot} : v.parent fs path = some (d, name) →
      v.findSlot fs d.clusterLo name = some s → (v.entry s).isDir = true →
      WriteOutcome fs v path data (-1) v
  | directoryFull {d : Dirent} {name : Name83} : v.parent fs path = some (d, name) →
      v.findSlot fs d.clusterLo name = none → v.freeSlot fs d.clusterLo = none →
      WriteOutcome fs v path data (-1) v
  | overwritten {d : Dirent} {name : Name83} {s : Slot} {cs : List UInt16} {w : Vol} :
      v.parent fs path = some (d, name) → v.findSlot fs d.clusterLo name = some s →
      (v.entry s).isDir = false →
      (data = [] ∨ (v.free (v.ownChain fs s)).Fits fs data.length) →
      (v.free (v.ownChain fs s)).Wrote fs w data cs →
      WriteOutcome fs v path data 0 (w.setEntry s (fileEntry (v.entry s) cs data))
  | overwriteFailed {d : Dirent} {name : Name83} {s : Slot} {w : Vol} :
      v.parent fs path = some (d, name) → v.findSlot fs d.clusterLo name = some s →
      (v.entry s).isDir = false →
      ¬ (data = [] ∨ (v.free (v.ownChain fs s)).Fits fs data.length) →
      (v.free (v.ownChain fs s)).SameUsed fs w → WriteOutcome fs v path data (-1) w
  | created {d : Dirent} {name : Name83} {s : Slot} {cs : List UInt16} {w : Vol} :
      v.parent fs path = some (d, name) → v.findSlot fs d.clusterLo name = none →
      v.freeSlot fs d.clusterLo = some s → (data = [] ∨ v.Fits fs data.length) →
      v.Wrote fs w data cs →
      WriteOutcome fs v path data 0
        (w.setEntry s (fileEntry { Dirent.zero with name := name } cs data))
  | createFailed {d : Dirent} {name : Name83} {s : Slot} {w : Vol} :
      v.parent fs path = some (d, name) → v.findSlot fs d.clusterLo name = none →
      v.freeSlot fs d.clusterLo = some s → ¬ (data = [] ∨ v.Fits fs data.length) →
      v.SameUsed fs w → WriteOutcome fs v path data (-1) w

/-- The mark of a deleted entry. -/
def deleted (d : Dirent) : Dirent := { d with name := d.name.setFirst 0xE5 }

/-- The outcomes of `fat_rm`. -/
inductive Vol.RmOutcome (fs : Fs) (v : Vol) (path : Bytes) : Int → Vol → Prop where
  | notFound : v.resolvePath fs false path = none → RmOutcome fs v path (-1) v
  | refused {d : Dirent} {o : Option Slot} {n : Name83} :
      v.resolvePath fs false path = some (d, o, n) → (o = none ∨ d.name.first = dot) →
      RmOutcome fs v path (-1) v
  | notEmpty {d : Dirent} {o : Option Slot} {n : Name83} {t : Slot} :
      v.resolvePath fs false path = some (d, o, n) → d.isDir = true →
      t ∈ v.dirSlots fs d.clusterLo → v.Visible t → RmOutcome fs v path (-1) v
  | removed {s : Slot} {n : Name83} : v.resolvePath fs false path = some (v.entry s, some s, n) →
      v.InTree fs s → entryInUse (v.entry s) = true → (v.entry s).name.first ≠ dot →
      ((v.entry s).isDir = true → ∀ t ∈ v.dirSlots fs (v.entry s).clusterLo, ¬ v.Visible t) →
      RmOutcome fs v path 0 ((v.free (v.ownChain fs s)).setEntry s (deleted (v.entry s)))
  /-- The root, by a path that ends in it, with the location of an earlier component. -/
  | removedRoot {s : Slot} {n : Name83} :
      v.resolvePath fs false path = some (dirEntry 0, some s, n) → v.InTree fs s →
      entryInUse (v.entry s) = true → (∀ t ∈ v.dirSlots fs 0, ¬ v.Visible t) →
      RmOutcome fs v path 0 (v.setEntry s (deleted (dirEntry 0)))

/-- The volume after the new directory at cluster `c` was entered in slot `s`. -/
def Vol.mkdirAt (v : Vol) (parent : UInt16) (name : Name83) (s : Slot) (c : UInt16) : Vol :=
  (((((v.setFat c clusterEoc).setArea c (fun _ => 0)).setEntry ⟨c, 0⟩ (dotEntry c)).setEntry ⟨c, 1⟩
    (dotdotEntry parent))).setEntry s { dirEntry c with name := name }

/-- The outcomes of `fat_mkdir`. -/
inductive Vol.MkdirOutcome (fs : Fs) (v : Vol) (path : Bytes) : Int → Vol → Prop where
  | badPath : v.parent fs path = none → MkdirOutcome fs v path (-1) v
  | exists {d : Dirent} {name : Name83} {s : Slot} : v.parent fs path = some (d, name) →
      v.findSlot fs d.clusterLo name = some s → MkdirOutcome fs v path (-1) v
  | directoryFull {d : Dirent} {name : Name83} : v.parent fs path = some (d, name) →
      v.findSlot fs d.clusterLo name = none → v.freeSlot fs d.clusterLo = none →
      MkdirOutcome fs v path (-1) v
  | diskFull {d : Dirent} {name : Name83} {s : Slot} : v.parent fs path = some (d, name) →
      v.findSlot fs d.clusterLo name = none → v.freeSlot fs d.clusterLo = some s →
      (∀ x, fs.IsCluster x → v.fat x ≠ clusterFree) → MkdirOutcome fs v path (-1) v
  | made {d : Dirent} {name : Name83} {s : Slot} {c : UInt16} :
      v.parent fs path = some (d, name) → v.findSlot fs d.clusterLo name = none →
      v.freeSlot fs d.clusterLo = some s → fs.IsCluster c → v.fat c = clusterFree →
      MkdirOutcome fs v path 0 (v.mkdirAt d.clusterLo name s c)

section Ops

variable {fs : Fs} {ps : ℕ} {v : Vol} {s : Slot}

/-- A name without a leading dot is looked up among the slots, in the root too. -/
theorem Vol.lookup_of_ne_dot {c : UInt16} {name : Name83} (hname : name.first ≠ dot) :
    v.lookup fs c name = (v.findSlot fs c name).map (fun s => (v.entry s, some s)) := by
  rw [Vol.lookup, if_neg (fun h => hname h.2)]

/-- A slot found under a name without a leading dot is an owner. -/
theorem Vol.Consistent.owner_of_findSlot (h : v.Consistent fs) {p : UInt16} (hp : v.Live fs p)
    {name : Name83} (hname : name.first ≠ dot) (hf : v.findSlot fs p name = some s) :
    v.Owner fs s := by
  obtain ⟨hmem, hin, hn⟩ := (h.findSlot_iff hp).1 hf
  refine ⟨⟨p, hp, hmem⟩, hin, fun hdot => hname ?_⟩
  rw [← hn]
  exact hdot.head

/-- Freeing the chain of an owner, as the calls do it. -/
theorem chainFree_owner (hs : fs.Sane ps) (h : v.Consistent fs) (ho : v.Owner fs s) {β : Type}
    {q : Fat β} {b : β} {w : Vol} (hq : fs.Yields q (v.free (v.ownChain fs s)) b w) :
    fs.Yields (if 2 ≤ (v.entry s).clusterLo then chainFree fs (v.entry s).clusterLo >>= fun _ => q
      else q) v b w := by
  refine Fs.Yields.when _ (fun h2 => ?_) (fun h2 => ?_) hq
  · exact chainFree_yields hs (h.chains s ho (UInt16.two_le_iff.1 h2)).2
  · have hnil : v.ownChain fs s = [] :=
      Vol.chain_of_not_isCluster (fun hcl => h2 (UInt16.two_le_iff.2 hcl.1))
    rw [hnil]
    simp [Vol.free]

/-- The end of `fat_write_file`. -/
theorem writeEntry_yields (hs : fs.Sane ps) {l : List Blk} (hl : v.heap = some l)
    (hok : BlockList l) {data : Bytes} (hlen : data.length < 2 ^ 32) (hsl : fs.IsSlot s)
    (e : Dirent) :
    ((data = [] ∨ v.Fits fs data.length) ∧ ∃ cs w, v.Wrote fs w data cs ∧
      fs.Yields (writeEntry fs data e (s.loc fs)) v 0 (w.setEntry s (fileEntry e cs data))) ∨
    (¬ (data = [] ∨ v.Fits fs data.length) ∧ ∃ w, v.SameUsed fs w ∧
      fs.Yields (writeEntry fs data e (s.loc fs)) v (-1) w) := by
  unfold writeEntry
  rcases chainWrite_yields hs hl hok hlen with ⟨hfits, cs, w, hy, hw, -⟩ | ⟨hno, w, hy, hw⟩
  · refine Or.inl ⟨hfits, cs, w, hw, hy.bind ?_⟩
    have hok : ¬ (data ≠ [] ∧ cs.headD 0 = 0) := by
      rintro ⟨hdata, hz⟩
      have hne : cs ≠ [] := by
        intro hnil
        have hlength := hw.length
        rw [hnil, List.length_nil] at hlength
        have hle := (Fs.clustersFor_le_iff hs (n := data.length) (k := 0)).1 (by omega)
        rw [Nat.zero_mul] at hle
        exact hdata (List.length_eq_zero_iff.1 (by omega))
      have hmem := (hw.links hne).mem_self hne
      rw [hz] at hmem
      exact absurd rfl (hw.fresh 0 hmem).1.ne_zero
    rw [if_neg hok]
    exact (locUpdate_yields hs hsl _).bind (Fs.Yields.pure _)
  · refine Or.inr ⟨hno, w, hw, hy.bind ?_⟩
    have hdata : data ≠ [] := fun hd => hno (Or.inl hd)
    rw [if_pos ⟨hdata, rfl⟩]
    exact (print_yields _).bind (Fs.Yields.pure _)

theorem fatWriteFile_yields (hs : fs.Sane ps) (hr : v.Ready fs) (path : Bytes) {data : Bytes}
    (hlen : data.length < 2 ^ 32) :
    ∃ r v', fs.Yields (fatWriteFile fs path data) v r v' ∧ v.WriteOutcome fs path data r v' := by
  have h := hr.consistent
  obtain ⟨l, hl, hok⟩ := hr.heap
  unfold fatWriteFile
  rw [if_neg (by simp [hs.mounted])]
  have hpar := parentOf_yields hs h hr.cwd path
  cases hp : v.parent fs path with
  | none =>
    rw [hp] at hpar
    exact ⟨-1, v, hpar.bind ((print_yields _).bind (Fs.Yields.pure _)), .badPath hp⟩
  | some r =>
    obtain ⟨d, name⟩ := r
    rw [hp] at hpar
    obtain ⟨hlive, hname⟩ := Vol.parent_spec h hr.cwd hp
    have hfind := dirFind_yields hs (h.dirOk hlive) name
    rw [Vol.lookup_of_ne_dot hname] at hfind
    cases hf : v.findSlot fs d.clusterLo name with
    | some s =>
      have ho := h.owner_of_findSlot hlive hname hf
      obtain ⟨p, -, hmem⟩ := ho.1
      simp only [hf, Option.map_some] at hfind
      cases hdir : (v.entry s).isDir with
      | true =>
        refine ⟨-1, v, hpar.bind (hfind.bind ?_), .isDirectory hp hf hdir⟩
        simp only [hdir, if_true]
        exact (print_yields _).bind (Fs.Yields.pure _)
      | false =>
        rcases writeEntry_yields (v := v.free (v.ownChain fs s)) hs hl hok hlen
          (Vol.isSlot_of_mem_dirSlots hmem) (v.entry s) with ⟨hfits, cs, w, hw, hy⟩ | ⟨hno, w, hw, hy⟩
        · refine ⟨0, _, hpar.bind (hfind.bind ?_), .overwritten hp hf hdir hfits hw⟩
          simp only [hdir, Bool.false_eq_true, if_false]
          exact chainFree_owner hs h ho hy
        · refine ⟨-1, w, hpar.bind (hfind.bind ?_), .overwriteFailed hp hf hdir hno hw⟩
          simp only [hdir, Bool.false_eq_true, if_false]
          exact chainFree_owner hs h ho hy
    | none =>
      rw [hf] at hfind
      have hslot := dirFreeSlot_yields hs (h.dirOk hlive)
      cases hfree : v.freeSlot fs d.clusterLo with
      | none =>
        rw [hfree] at hslot
        refine ⟨-1, v, hpar.bind (hfind.bind ?_), .directoryFull hp hf hfree⟩
        exact hslot.bind ((print_yields _).bind (Fs.Yields.pure _))
      | some s =>
        rw [hfree] at hslot
        have hmem := (Vol.freeSlot_spec hfree).1
        rcases writeEntry_yields hs hl hok hlen (Vol.isSlot_of_mem_dirSlots hmem)
          { Dirent.zero with name := name } with ⟨hfits, cs, w, hw, hy⟩ | ⟨hno, w, hw, hy⟩
        · exact ⟨0, _, hpar.bind (hfind.bind (hslot.bind hy)), .created hp hf hfree hfits hw⟩
        · exact ⟨-1, w, hpar.bind (hfind.bind (hslot.bind hy)), .createFailed hp hf hfree hno hw⟩

/-- The end of `fat_rm` on an entry whose chain is `l`. -/
theorem removeEntry_yields (hs : fs.Sane ps) (h : v.Consistent fs) (ho : v.Owner fs s) :
    fs.Yields (removeEntry fs (v.entry s) (s.loc fs)) v 0
      ((v.free (v.ownChain fs s)).setEntry s (deleted (v.entry s))) := by
  obtain ⟨p, -, hmem⟩ := ho.1
  unfold removeEntry
  exact chainFree_owner hs h ho
    ((locUpdate_yields hs (Vol.isSlot_of_mem_dirSlots hmem) _).bind (Fs.Yields.pure _))

theorem fatRm_yields (hs : fs.Sane ps) (hr : v.Ready fs) (path : Bytes) :
    ∃ r v', fs.Yields (fatRm fs path) v r v' ∧ v.RmOutcome fs path r v' := by
  have h := hr.consistent
  unfold fatRm
  rw [if_neg (by simp [hs.mounted])]
  have hres := resolve_yields hs h hr.cwd false path
  cases hp : v.resolvePath fs false path with
  | none =>
    simp only [hp, Option.map_none] at hres
    exact ⟨-1, v, hres.bind ((print_yields _).bind (Fs.Yields.pure _)), .notFound hp⟩
  | some r =>
    obtain ⟨d, o, n⟩ := r
    simp only [hp, Option.map_some] at hres
    have hmet := Vol.resolvePath_met h hr.cwd hp
    have hslot : ∀ s, o = some s → fs.IsSlot s := by
      rintro s rfl
      cases hmet with
      | entry ht _ => exact Vol.isSlot_of_mem_dirSlots ht.choose_spec.2
      | root ht _ => exact Vol.isSlot_of_mem_dirSlots ht.choose_spec.2
    have hzero := slotLoc_lba_eq_zero hs hslot
    by_cases href : o = none ∨ d.name.first = dot
    · refine ⟨-1, v, hres.bind ?_, .refused hp href⟩
      simp only
      rw [if_pos (by rwa [hzero])]
      exact (print_yields _).bind (Fs.Yields.pure _)
    have hgo : ¬ ((slotLoc fs o).lba = 0 ∨ d.name.first = dot) := by rwa [hzero]
    rw [not_or] at href
    by_cases hdir : d.isDir = true
    · -- a directory has to be empty
      have hlive := hmet.live h hdir
      obtain ⟨b, hempty, hiff⟩ := dirIsEmpty_yields hs (h.dirOk hlive) (h.ended _ hlive)
      cases b with
      | false =>
        have hvis : ∃ t ∈ v.dirSlots fs d.clusterLo, v.Visible t := by
          by_contra hno
          refine absurd (hiff.2 (fun t ht hv => hno ⟨t, ht, hv⟩)) (by simp)
        obtain ⟨t, ht, hv⟩ := hvis
        refine ⟨-1, v, hres.bind ?_, .notEmpty hp hdir ht hv⟩
        simp only
        rw [if_neg hgo, if_pos hdir]
        refine hempty.bind ?_
        rw [if_neg (by simp)]
        exact (print_yields _).bind (Fs.Yields.pure _)
      | true =>
        have hno := hiff.1 rfl
        have hgoal : ∀ {r : Int} {v' : Vol}, fs.Yields (removeEntry fs d (slotLoc fs o)) v r v' →
            fs.Yields (if (slotLoc fs o).lba = 0 ∨ d.name.first = dot then do
                print (str "cannot remove " ++ path ++ str "\n")
                return -1
              else if d.isDir then do
                if ← dirIsEmpty fs d.clusterLo then removeEntry fs d (slotLoc fs o)
                else
                  print (str "directory not empty: " ++ path ++ str "\n")
                  return -1
              else removeEntry fs d (slotLoc fs o)) v r v' := by
          intro r v' hy
          rw [if_neg hgo, if_pos hdir]
          refine hempty.bind ?_
          rw [if_pos rfl]
          exact hy
        cases hmet with
        | entry ht hin =>
          have ho : v.Owner fs _ := ⟨ht, hin, fun hdot => href.2 hdot.head⟩
          exact ⟨0, _, hres.bind (hgoal (removeEntry_yields hs h ho)),
            .removed hp ht hin href.2 (fun _ => hno)⟩
        | start => exact absurd rfl href.1
        | @root s ht hin =>
          refine ⟨0, _, hres.bind (hgoal ?_), .removedRoot hp ht hin hno⟩
          unfold removeEntry
          rw [if_neg (by decide)]
          exact (locUpdate_yields hs (hslot s rfl) _).bind (Fs.Yields.pure _)
    · cases hmet with
      | entry ht hin =>
        have ho : v.Owner fs _ := ⟨ht, hin, fun hdot => href.2 hdot.head⟩
        refine ⟨0, _, hres.bind ?_, .removed hp ht hin href.2 (fun hd => absurd hd hdir)⟩
        simp only
        rw [if_neg hgo, if_neg hdir]
        exact removeEntry_yields hs h ho
      | start => exact absurd rfl href.1
      | root => exact absurd (dirEntry_isDir 0) hdir

theorem fatMkdir_yields (hs : fs.Sane ps) (hr : v.Ready fs) (path : Bytes) :
    ∃ r v', fs.Yields (fatMkdir fs path) v r v' ∧ v.MkdirOutcome fs path r v' := by
  have h := hr.consistent
  unfold fatMkdir
  rw [if_neg (by simp [hs.mounted])]
  have hpar := parentOf_yields hs h hr.cwd path
  cases hp : v.parent fs path with
  | none =>
    rw [hp] at hpar
    exact ⟨-1, v, hpar.bind ((print_yields _).bind (Fs.Yields.pure _)), .badPath hp⟩
  | some r =>
    obtain ⟨d, name⟩ := r
    rw [hp] at hpar
    obtain ⟨hlive, hname⟩ := Vol.parent_spec h hr.cwd hp
    have hfind := dirFind_yields hs (h.dirOk hlive) name
    rw [Vol.lookup_of_ne_dot hname] at hfind
    cases hf : v.findSlot fs d.clusterLo name with
    | some s =>
      rw [hf] at hfind
      exact ⟨-1, v, hpar.bind (hfind.bind ((print_yields _).bind (Fs.Yields.pure _))),
        .exists hp hf⟩
    | none =>
      rw [hf] at hfind
      have hslot := dirFreeSlot_yields hs (h.dirOk hlive)
      cases hfree : v.freeSlot fs d.clusterLo with
      | none =>
        rw [hfree] at hslot
        refine ⟨-1, v, hpar.bind (hfind.bind ?_), .directoryFull hp hf hfree⟩
        exact hslot.bind ((print_yields _).bind (Fs.Yields.pure _))
      | some s =>
        rw [hfree] at hslot
        have hsl := Vol.isSlot_of_mem_dirSlots (Vol.freeSlot_spec hfree).1
        rcases clusterAlloc_yields (v := v) hs with ⟨c, hc, hz, halloc⟩ | ⟨hnone, halloc⟩
        · refine ⟨0, _, hpar.bind (hfind.bind (hslot.bind (halloc.bind ?_))),
            .made hp hf hfree hc hz⟩
          rw [if_neg hc.ne_zero]
          refine (clusterZero_yields hs hc).bind ?_
          rw [if_pos rfl]
          exact makeDir_yields hs hsl hc (Vol.setArea_area_self _ _ _)
        · refine ⟨-1, v, hpar.bind (hfind.bind (hslot.bind (halloc.bind ?_))),
            .diskFull hp hf hfree hnone⟩
          rw [if_pos rfl]
          exact (print_yields _).bind (Fs.Yields.pure _)

end Ops

end OctoOS
