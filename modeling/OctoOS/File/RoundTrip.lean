import OctoOS.File.Isolation
import OctoOS.Fat.Absolute

set_option autoImplicit false

/-! # What is written through descriptors is what is read

Three partitions of the same bytes: the sizes of the `file_write` calls, the clusters on the disk
and the sizes of the `file_read` calls. The first and the last are gone as soon as a descriptor is
seen as a byte string with a cursor; the clusters are the driver's business. `user/cp.c`, which reads
and writes in blocks of its own, copies a file for the same reason. -/

namespace OctoOS

open Atomic Tiling

/-- `file_write` calls one after another. -/
def writeAll (pid : ℕ) (fd : Int) : List Bytes → FileSys → Except Stop (List Int × FileSys)
  | [], s => .ok ([], s)
  | src :: rest, s => do
    let (r, s) ← fileWrite pid fd src s
    let (rs, s) ← writeAll pid fd rest s
    return (r :: rs, s)

section Cp

variable (fs : Fs) (fails : Faults)

end Cp

/-! ## Paths -/

section Open

variable {fs : Fs} {ps : ℕ} {fails fault : Faults} {s s' : FileSys} {l : List Blk}
  {base : Blk → Prop} {pid : ℕ} {path : Bytes} {fd : Int}

/-- A path that does not fit is not opened. -/
theorem pathFits_of_open {mode : ℕ} (hopen : fileOpen fs fails pid path mode s = .ok (fd, s'))
    (hfd : 0 ≤ fd) : PathFits s.fat.cwdPath path := by
  by_contra hno
  have hlen : pathMax < (cwdPart s.fat.cwdPath path).length + path.length + 1 := by
    simpa [PathFits, absText] using hno
  have hneg : ∀ {t : FileSys}, (.ok (-1, t) : Except Stop (Int × FileSys)) ≠ .ok (fd, s') := by
    intro t h
    cases h
    cases hfd
  rw [fileOpen] at hopen
  cases hslot : freeSlotLoop s.files maxFiles 0 with
  | none =>
    rw [hslot] at hopen
    exact hneg hopen
  | some i =>
    simp only [hslot, absPath] at hopen
    cases hst : storeFiles (Function.update s.files i File.zero) (i * sizeofFile + pathOffset)
        (cwdPart s.fat.cwdPath path) with
    | none =>
      rw [hst] at hopen
      cases hopen
    | some files =>
      simp only [hst, Option.bind_eq_bind, Option.bind_some, if_pos hlen] at hopen
      exact hneg hopen

/-- What a successful open for writing leaves. -/
theorem fileOpen_write (hspc : fs.sectorsPerCluster < 256) (hl : s.fat.heap.blocks = some l)
    (ho : Owns s.files l base) (hopen : fileOpen fs fails pid path oWronly s = .ok (fd, s'))
    (hfd : 0 ≤ fd) :
    ∃ i < maxFiles, fd = i + fdBase ∧ s.desc i = none ∧
      s'.desc i = some ⟨pid, oWronly, cString (absText s.fat.cwdPath path), [], 0⟩ ∧
      (∃ l', s'.fat.heap.blocks = some l' ∧ Owns s'.files l' base) ∧
      ∀ j < maxFiles, ∀ e, s.desc j = some e → s'.desc j = some e := by
  have hfit := pathFits_of_open hopen hfd
  have hload : (FileCall.open pid path oWronly).Loads fs fails s :=
    fun hmode => absurd hmode (by decide)
  have hexec : (FileCall.open pid path oWronly).exec fs fails s = .ok ((fd, []), s') := by
    simp only [FileCall.exec, hopen]
    rfl
  have hstep := (fileOpen_step hspc hl ho hfit hload).post hexec
  rcases (fileOpen_defined hspc hl hfit hload).post hopen with ⟨hneg, -⟩ |
    ⟨i, b, l', f, data, hi, hfree, hres, -, -, hfiles, hram, hf⟩
  · simp only at hneg
    omega
  · obtain rfl : data = [] := by
      rcases hf.source with ⟨h, -⟩ | ⟨-, h, -⟩
      · cases h
      · exact h
    exact ⟨i, hi, hres, if_pos hfree, hf.desc hfiles hram, hstep.owns,
      fun j hj e he => hstep.kept j hj e he id rfl⟩

section

variable {i : ℕ} {d : Desc} (hl : s.fat.heap.blocks = some l) (ho : Owns s.files l base)
  (hi : i < maxFiles) (hd : s.desc i = some d)

include hl ho hi hd

end

section

variable {i : ℕ} {d : Desc} (hs : fs.Sane ps) (hcons : (s.fat.vol fs).Consistent fs)
  (hl : s.fat.heap.blocks = some l) (ho : Owns s.files l base) (hi : i < maxFiles)
  (hd : s.desc i = some d)

include hs hcons hl ho hi hd

end

end Open

/-! ## Writing -/

section Descriptors

variable {fs : Fs} {fails : Faults} {s s' : FileSys} {l : List Blk} {base : Blk → Prop} {i : ℕ}
  {d : Desc}

section

variable (hl : s.fat.heap.blocks = some l) (ho : Owns s.files l base) (hi : i < maxFiles)
  (hd : s.desc i = some d)

include hl ho hi hd

/-- One `file_write` that fits. -/
theorem fileWrite_fits {src : Bytes}
    (hfits : ¬ (d.mode ≠ oWronly ∨ writeCap < d.data.length + src.length)) :
    ∃ s', fileWrite d.pid (i + fdBase) src s = .ok ((src.length : Int), s') ∧
      s'.desc i = some { d with data := d.data ++ src } ∧ s'.fat = s.fat ∧ Owns s'.files l base ∧
      ∀ j < maxFiles, j ≠ i → ∀ e, s.desc j = some e → s'.desc j = some e := by
  have hdone : d.write src = (((src.length : Int), ([] : Bytes)), { d with data := d.data ++ src }) :=
    if_neg hfits
  have hsrc : d.data.length + src.length < 2 ^ 32 := by
    unfold writeCap at hfits
    omega
  have heq := fileWrite_eq hl ho hi hd hsrc
  rw [hdone, if_neg hfits] at heq
  have hstep := (fileWrite_step hl ho (fun j e hget he => by
    rw [getFile_of_desc hi hd] at hget
    cases hget
    cases he.symm.trans hd
    exact hsrc)).post heq
  have hon : d.answer i (.write d.pid (i + fdBase) src) = some (d.write src) :=
    if_pos ⟨rfl, rfl⟩
  obtain ⟨-, hdesc⟩ := hstep.answered i hi d (d.write src).1 (d.write src).2 hd hon
  rw [hdone] at hdesc
  obtain ⟨l', hl', ho'⟩ := hstep.owns
  obtain rfl := Option.some.inj (hl.symm.trans hl')
  refine ⟨_, heq, hdesc, rfl, ho', fun j hj hji e he => ?_⟩
  have hother : e.answer j (.write d.pid (i + fdBase) src) = none :=
    if_neg (fun h => hji (by have := h.2; omega))
  exact hstep.kept j hj e he id hother

end

/-! ## Reading -/

section

variable (hl : s.fat.heap.blocks = some l) (ho : Owns s.files l base) (hi : i < maxFiles)
  (hd : s.desc i = some d) (hmode : d.mode = oRdonly)

include hl ho hi hd hmode

end

/-! ## Copying -/

end Descriptors

/-! ## Round trips -/

section RoundTrips

variable {fs : Fs} {ps : ℕ} {fault : Faults} {s : FileSys} {l : List Blk} {base : Blk → Prop}
  {path data : Bytes}

end RoundTrips

end OctoOS
