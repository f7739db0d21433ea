import OctoOS.Fat.Check
import OctoOS.Fat.Names

set_option autoImplicit false

/-! # The calls keep the volume well-formed

Every successful outcome vacates a slot, fills one, or does both in turn, so well-formedness
follows from the frame lemmas. The one assumption of `fat_rm` beyond well-formedness is that no
name but `.` and `..` starts with a dot: its emptiness test skips every such entry. -/

namespace OctoOS

open Atomic Tiling Linked

/-- The call replaces a file that has clusters. -/
def FatCall.Overwrites (fs : Fs) (v : Vol) : FatCall → Prop
  | .writeFile path _ => ∃ d name s, v.parent fs path = some (d, name) ∧
      v.findSlot fs d.clusterLo name = some s ∧ (v.entry s).isDir = false ∧
      2 ≤ (v.entry s).clusterLo
  | _ => False

/-- The names in use in live directories. -/
def Vol.AllNames (fs : Fs) (v : Vol) (P : Name83 → Prop) : Prop :=
  ∀ s, v.InTree fs s → entryInUse (v.entry s) = true → P (v.entry s).name

section Preserve

variable {fs : Fs} {ps : ℕ} {v v' : Vol} {s0 : Slot} {P : Name83 → Prop}

theorem Vol.Vacated.allNames (hv : v.Vacated fs v' s0) (hs : fs.Sane ps) (h : v.Consistent fs)
    (hn : v.AllNames fs P) : v'.AllNames fs P := by
  intro s ht hin
  obtain ⟨ht', -, hentry⟩ := hv.inTree_entry hs h ht hin
  rw [hentry] at hin ⊢
  exact hn s ht' hin

/-- A filled slot brings its own name, and `.` and `..` when it is for a directory. -/
theorem Vol.Inserted.allNames {p0 : UInt16} (hi : v.Inserted fs v' s0 p0) (hs : fs.Sane ps)
    (h : v.Consistent fs) (hn : v.AllNames fs P) (hdots : ∀ n, IsDotName n → P n)
    (hname : P (v'.entry s0).name) : v'.AllNames fs P := by
  intro s ht hin
  by_cases hne : s = s0
  · rw [hne]
    exact hname
  · rcases hi.inTree_cases hs h ht with ht' | ⟨hdir, hmem⟩
    · rw [hi.edit.entry s ht' hne] at hin ⊢
      exact hn s ht' hin
    · exact hdots _ ((hi.dir hdir).only s hmem hin)

theorem Vol.Vacated.noDotNames (hv : v.Vacated fs v' s0) (hs : fs.Sane ps) (h : v.Consistent fs)
    (hn : v.NoDotNames fs) : v'.NoDotNames fs :=
  hv.allNames hs h (P := fun n => n.first = dot → IsDotName n) hn

theorem Vol.Inserted.noDotNames {p0 : UInt16} (hi : v.Inserted fs v' s0 p0) (hs : fs.Sane ps)
    (h : v.Consistent fs) (hn : v.NoDotNames fs) (hname : (v'.entry s0).name.first ≠ dot) :
    v'.NoDotNames fs :=
  hi.allNames hs h (P := fun n => n.first = dot → IsDotName n) hn (fun _ hd _ => hd)
    (fun hdot => absurd hdot hname)

/-- Without hidden names, a directory that `fat_rm` takes for empty owns nothing. -/
theorem Vol.NoDotNames.not_owner (hn : v.NoDotNames fs) {t : Slot} (ht : ¬ v.Visible t) :
    ¬ v.Owner fs t := by
  rintro ⟨hin, huse, hdot⟩
  exact ht ⟨huse, fun hz => hdot (hn t hin huse hz)⟩

/-- Without hidden names, an empty root means an empty volume. -/
theorem Vol.NoDotNames.not_inUse_of_empty (hn : v.NoDotNames fs) (h : v.Consistent fs)
    (hempty : ∀ t ∈ v.dirSlots fs 0, ¬ v.Visible t) {s : Slot} (ht : v.InTree fs s) :
    entryInUse (v.entry s) ≠ true := by
  have hroot : ∀ t ∈ v.dirSlots fs 0, entryInUse (v.entry t) ≠ true := by
    intro t hmem hin
    refine hempty t hmem ⟨hin, fun hz => h.rootDots t hmem hin ?_⟩
    exact hn t ⟨0, Live.root, hmem⟩ hin hz
  -- so the root is the only live directory
  have honly : ∀ p, v.Live fs p → p = 0 := by
    intro p hp
    induction hp with
    | root => rfl
    | @sub q s _ hsq hsub ih =>
      subst ih
      exact absurd hsub.1 (hroot s hsq)
  obtain ⟨p, hp, hsp⟩ := ht
  obtain rfl := honly p hp
  exact hroot s hsp

/-- `fat_rm` on a volume without hidden names. -/
theorem Vol.RmOutcome.wellFormed (hs : fs.Sane ps) (h : v.WellFormed fs) (hn : v.NoDotNames fs)
    {path : Bytes} {r : Int} (ho : v.RmOutcome fs path r v') :
    v'.WellFormed fs ∧ v'.NoDotNames fs := by
  cases ho with
  | notFound _ | refused _ _ | notEmpty _ _ _ _ => exact ⟨h, hn⟩
  | @removed s _ _ hin huse hdot hempty =>
    have how : v.Owner fs s := ⟨hin, huse, fun hd => hdot hd.head⟩
    have hv := Vol.vacated_deleted h.toConsistent how
    refine ⟨hv.wellFormed hs h ?_ ?_ ?_, hv.noDotNames hs h.toConsistent hn⟩
    · intro _ hsub t ht
      exact hn.not_owner (hempty hsub.2.1 t ht)
    · intro _ c hc
      exact Vol.free_fat_of_mem hc
    · intro c hc
      exact Vol.free_fat_of_not_mem (hc how)
  | removedRoot _ hin huse hempty =>
    exact absurd huse (hn.not_inUse_of_empty h.toConsistent hempty hin)

/-- Nothing in use changed. -/
theorem Vol.SameUsed.wellFormed (hs : fs.Sane ps) (h : v.WellFormed fs) (hn : v.NoDotNames fs)
    (hu : v.SameUsed fs v') : v'.WellFormed fs ∧ v'.NoDotNames fs := by
  have hv := hu.vacated h.toConsistent
  refine ⟨hv.wellFormed hs h ?_ ?_ ?_, hv.noDotNames hs h.toConsistent hn⟩
  · intro hin
    exact absurd hin Vol.noSlot_not_inTree
  · intro ho
    exact absurd ho.1 Vol.noSlot_not_inTree
  · intro c _
    rw [hu.fat]

/-- A free slot is not in use. -/
theorem Vol.freeSlot_unused {c : UInt16} (hf : v.freeSlot fs c = some s0) :
    entryInUse (v.entry s0) = false := by
  obtain ⟨-, hz⟩ := Vol.freeSlot_spec hf
  rcases hz with hz | hz <;> simp [entryInUse, hz]

/-- `fat_mkdir` with a path of printable bytes. -/
theorem Vol.MkdirOutcome.wellFormed (hs : fs.Sane ps) (h : v.WellFormed fs) (hn : v.NoDotNames fs)
    (hc : v.Live fs v.cwd) {path : Bytes} (hpath : ∀ b ∈ path, Printable b) {r : Int}
    (ho : v.MkdirOutcome fs path r v') : v'.WellFormed fs ∧ v'.NoDotNames fs := by
  cases ho with
  | badPath _ | «exists» _ _ | directoryFull _ _ _ | diskFull _ _ _ _ => exact ⟨h, hn⟩
  | @made d name s c hp hnone hfree hcl hz =>
    have hcons := h.toConsistent
    obtain ⟨hlive, hdot⟩ := Vol.parent_spec hcons hc hp
    obtain ⟨h0, hE5⟩ := (Vol.parent_name nameByte_printable hpath hp).ne_marks
    have hi := Vol.inserted_dir hs hcons hlive (Vol.freeSlot_spec hfree).1 (Vol.freeSlot_unused hfree)
      (Vol.freeSlot_beforeUsed hs (hcons.dirOk hlive) hfree) h0 hE5 hdot
      (fun t ht => hcons.not_holds_of_findSlot hlive hnone ht) hcl hz
    have hentry : (v.mkdirAt d.clusterLo name s c).entry s = { dirEntry c with name := name } :=
      Vol.setEntry_entry_self ..
    refine ⟨hi.wellFormed hs h (fun x hx => ?_), hi.noDotNames hs hcons hn (by rwa [hentry])⟩
    -- only the FAT entry of the new cluster changed
    have hxc : x ≠ c := by
      rintro rfl
      refine hx ?_
      rw [Vol.ownChain, hentry]
      exact (Vol.mkdirAt_newDir hs v d.clusterLo name hcl
        (hcons.area_not_free ⟨_, hlive, (Vol.freeSlot_spec hfree).1⟩ hcl hz)).2.2.mem_self
    exact Function.update_of_ne hxc _ _

/-- A file without clusters has nothing to free. -/
theorem Vol.free_ownChain_of_lt {s : Slot} (h : ¬ 2 ≤ (v.entry s).clusterLo) :
    v.free (v.ownChain fs s) = v := by
  have hnil : v.ownChain fs s = [] :=
    Vol.chain_of_not_isCluster (fun hcl => h (UInt16.two_le_iff.2 hcl.1))
  rw [hnil]
  simp [Vol.free]

/-- A new file in a free slot. -/
theorem Vol.inserted_created (hs : fs.Sane ps) (h : v.Consistent fs) (hc : v.Live fs v.cwd)
    {path data : Bytes} (hlen : data.length < 2 ^ 32) {d : Dirent} {name : Name83}
    (hp : v.parent fs path = some (d, name)) (hmarks : name.first ≠ 0x00 ∧ name.first ≠ 0xE5)
    (hnone : v.findSlot fs d.clusterLo name = none) (hfree : v.freeSlot fs d.clusterLo = some s0)
    {w : Vol} {cs : List UInt16} (hw : v.Wrote fs w data cs) :
    v.Inserted fs (w.setEntry s0 (fileEntry { Dirent.zero with name := name } cs data)) s0
      d.clusterLo := by
  obtain ⟨hlive, hdot⟩ := Vol.parent_spec h hc hp
  refine Vol.inserted_file hs h hlive (Vol.freeSlot_spec hfree).1 (Vol.freeSlot_unused hfree)
    (Vol.freeSlot_beforeUsed hs (h.dirOk hlive) hfree) ?_ (by simp [Dirent.isDir, Dirent.zero])
    (fun hd => hdot hd.head)
    (fun t ht => h.not_holds_of_findSlot hlive hnone ht) hlen hw
  simp only [entryInUse, Bool.and_eq_true, decide_eq_true_eq]
  exact ⟨⟨⟨hmarks.1, hmarks.2⟩, by decide⟩, by decide⟩

/-- `fat_write_file` with a path of printable bytes, unless it fails behind the point where it
    freed the old file. -/
theorem Vol.WriteOutcome.wellFormed (hs : fs.Sane ps) (h : v.WellFormed fs) (hn : v.NoDotNames fs)
    (hc : v.Live fs v.cwd) {path data : Bytes} (hpath : ∀ b ∈ path, Printable b)
    (hlen : data.length < 2 ^ 32) {r : Int} (ho : v.WriteOutcome fs path data r v')
    (hover : r = 0 ∨ ¬ (FatCall.writeFile path data).Overwrites fs v) :
    v'.WellFormed fs ∧ v'.NoDotNames fs := by
  have hcons := h.toConsistent
  cases ho with
  | badPath _ | isDirectory _ _ _ | directoryFull _ _ _ => exact ⟨h, hn⟩
  | createFailed _ _ _ _ hu => exact hu.wellFormed hs h hn
  | @overwriteFailed d name s w hp hf hfile _ hu =>
    have hlt : ¬ 2 ≤ (v.entry s).clusterLo := by
      intro h2
      rcases hover with hr | hno
      · cases hr
      · exact hno ⟨d, name, s, hp, hf, hfile, h2⟩
    rw [Vol.free_ownChain_of_lt hlt] at hu
    exact hu.wellFormed hs h hn
  | @created d name s cs w hp hnone hfree _ hw =>
    have hmarks := (Vol.parent_name nameByte_printable hpath hp).ne_marks
    have hi := Vol.inserted_created hs hcons hc hlen hp hmarks hnone hfree hw
    refine ⟨hi.wellFormed hs h (fun x hx => ?_), hi.noDotNames hs hcons hn ?_⟩
    · rw [hw.ownChain_eq hs] at hx
      exact hw.fat x hx
    · rw [Vol.setEntry_entry_self]
      exact (Vol.parent_spec hcons hc hp).2
  | @overwritten d name s cs w hp hf hfile _ hw =>
    obtain ⟨hlive, hdot⟩ := Vol.parent_spec hcons hc hp
    have how := hcons.owner_of_findSlot hlive hdot hf
    obtain ⟨hmem, -, hname⟩ := (hcons.findSlot_iff hlive).1 hf
    -- the old file goes, then the new one takes its slot
    obtain ⟨v1, hv1, hv, hi, hfat⟩ := Vol.overwrite_steps hs hcons hlive hmem how hfile hlen hw
    have hwf : v1.WellFormed fs := by
      refine hv.wellFormed hs h (fun _ hsub => ?_) (fun _ c hcm => ?_) (fun c hcm => ?_)
      · exact absurd hsub.2.1 (by simp [hfile])
      · rw [hv1]
        exact Vol.free_fat_of_mem hcm
      · rw [hv1]
        exact Vol.free_fat_of_not_mem (hcm how)
    refine ⟨hi.wellFormed hs hwf (fun x hx => ?_), hi.noDotNames hs hwf.toConsistent
      (hv.noDotNames hs hcons hn) ?_⟩
    · rw [hw.ownChain_eq hs] at hx
      exact hfat x hx
    · rw [Vol.setEntry_entry_self]
      have hkeep : (fileEntry (v.entry s) cs data).name = name := hname
      rw [hkeep]
      exact hdot

end Preserve

/-- A volume with the file `A` of 600 bytes in clusters 3 and 2; cluster 4 is free. -/
def oneFile : FatState := smallState [0xFFF8, 0xFFFF, 0xFFFF, 2]
  [{ Dirent.zero with name := name83 [0x41] [], clusterLo := 3, size := 600 }]
  [fun _ => 0x59, fun _ => 0x58]

theorem oneFile_check : (oneFile.vol smallFs).Check smallFs [0] := by decide +kernel

end OctoOS
