import OctoOS.File.RoundTrip
import OctoOS.Fat.CwdText
import Mathlib.Tactic.Ring

set_option autoImplicit false

/-! # The absolute form of a path (`abs_path`)

`file_open` keeps a path together with the working directory it was given in. Two things are asked
of the text: it has to stay inside the 96 bytes of the slot, and it has to name, from any working
directory, what the path named at the time. The second is a law of `resolve`: walking the names of
two paths is walking the second from where the first leads. The first depends on the length of
the working directory, which is checked after it has been copied. -/

namespace OctoOS

open Atomic Tiling NameTree

/-! ## Where the stores go -/

/-- Byte `k` of a `struct file`. -/
def File.byte (f : File) (k : ℕ) : ℕ :=
  if k < 4 then f.used / 256 ^ k % 256
  else if k < 8 then f.pid / 256 ^ (k - 4) % 256
  else if k < 12 then f.mode / 256 ^ (k - 8) % 256
  else if k < 108 then (f.path (k - 12)).toNat
  else if k < 112 then f.buf / 256 ^ (k - 108) % 256
  else if k < 116 then f.size / 256 ^ (k - 112) % 256
  else f.pos / 256 ^ (k - 116) % 256

/-- `files'` is `files` except for the path of slot `i`. -/
def SameButPath (i : ℕ) (files files' : ℕ → File) : Prop :=
  (∀ j, j ≠ i → files' j = files j) ∧ files' i = { files i with path := (files' i).path }

section Stores

variable {files files' : ℕ → File} {i : ℕ} {cwd path : Bytes}

theorem byte_setByte (w k : ℕ) (c : UInt8) : setByte w k c / 256 ^ k % 256 = c.toNat := by
  have hc := c.toNat_lt
  have hpos : 0 < 256 ^ k := Nat.pow_pos (by decide)
  -- the byte is taken out of the word before the new one is put in
  have hout : w - w / 256 ^ k % 256 * 256 ^ k = w % 256 ^ k + 256 ^ k * (256 * (w / 256 ^ k / 256)) := by
    have h1 := Nat.div_add_mod w (256 ^ k)
    have h2 := Nat.div_add_mod (w / 256 ^ k) 256
    have h3 : 256 ^ k * (w / 256 ^ k)
        = 256 ^ k * (256 * (w / 256 ^ k / 256)) + w / 256 ^ k % 256 * 256 ^ k := by
      conv_lhs => rw [← h2]
      ring
    omega
  rw [setByte, hout, show w % 256 ^ k + 256 ^ k * (256 * (w / 256 ^ k / 256)) + c.toNat * 256 ^ k
      = w % 256 ^ k + 256 ^ k * (256 * (w / 256 ^ k / 256) + c.toNat) by ring,
    Nat.add_mul_div_left _ _ hpos, Nat.div_eq_of_lt (Nat.mod_lt _ hpos)]
  omega

theorem File.byte_setByte (f : File) (k : ℕ) (c : UInt8) : (f.setByte k c).byte k = c.toNat := by
  unfold File.byte File.setByte
  split_ifs <;> simp [OctoOS.byte_setByte]

theorem File.byte_zero (k : ℕ) : File.zero.byte k = 0 := by
  unfold File.byte File.zero
  split_ifs <;> simp

theorem storeFiles_append (off : ℕ) (a b : Bytes) :
    storeFiles files off (a ++ b)
      = (storeFiles files off a).bind (fun files' => storeFiles files' (off + a.length) b) := by
  induction a generalizing files off with
  | nil => simp [storeFiles]
  | cons c cs ih =>
    rw [List.cons_append, storeFiles, storeFiles]
    split_ifs
    · rw [ih, List.length_cons, Nat.add_right_comm, Nat.add_assoc off]
    · rfl

/-- The last of the stores is there to see. -/
theorem storeFiles_last {off : ℕ} {a : Bytes} {c : UInt8}
    (h : storeFiles files off (a ++ [c]) = some files') :
    (files' ((off + a.length) / sizeofFile)).byte ((off + a.length) % sizeofFile) = c.toNat := by
  rw [storeFiles_append] at h
  obtain ⟨files1, -, h1⟩ := Option.bind_eq_some_iff.1 h
  rw [storeFiles] at h1
  split_ifs at h1
  cases h1
  rw [Function.update_self, File.byte_setByte]

theorem sameButPath_update (files : ℕ → File) (i : ℕ) (p : ℕ → UInt8) :
    SameButPath i files (Function.update files i { files i with path := p }) :=
  ⟨fun _ hj => Function.update_of_ne hj _ _, by rw [Function.update_self]⟩

/-- `abs_path` with a working directory that fits into the slot. -/
theorem absPath_sameButPath (hpart : (cwdPart cwd path).length ≤ pathMax) (hi : i < maxFiles)
    (files : ℕ → File) :
    ∃ ok files', absPath cwd path i files = some (ok, files') ∧ SameButPath i files files' := by
  by_cases hfit : PathFits cwd path
  · exact ⟨true, _, absPath_fits hfit hi files, sameButPath_update files i _⟩
  · have hlong : pathMax < (cwdPart cwd path).length + path.length + 1 := by
      simpa [PathFits, absText] using hfit
    have hstore : storeFiles files (i * sizeofFile + pathOffset + 0) (cwdPart cwd path) = _ :=
      storeFiles_path hi (by omega)
    rw [Nat.add_zero] at hstore
    refine ⟨false, _, ?_, sameButPath_update files i (storeBytes (files i).path 0 (cwdPart cwd path))⟩
    simp only [absPath, hstore, Option.bind_eq_bind, Option.bind_some, if_pos hlong]
    rfl

/-- Without one the slash behind it is stored behind the path of the slot. -/
theorem absPath_overruns_of_long (hrel : path.head? ≠ some slash) (hlong : pathMax ≤ cwd.length)
    (hcwd : cwd.length ≤ 127) {ok : Bool}
    (h : absPath cwd path i (fun _ => File.zero) = some (ok, files')) :
    ¬ SameButPath i (fun _ => File.zero) files' := by
  rintro ⟨hother, hslot⟩
  unfold pathMax at hlong
  have hpart : cwdPart cwd path = cwd ++ [slash] := by
    rw [cwdPart, if_neg hrel, if_pos (by omega)]
  have hstore : storeFiles (fun _ => File.zero) (i * sizeofFile + pathOffset) (cwd ++ [slash])
      = some files' := by
    rw [absPath, hpart] at h
    obtain ⟨files1, h1, h2⟩ := Option.bind_eq_some_iff.1 h
    rw [if_pos (by rw [List.length_append, List.length_singleton]; unfold pathMax; omega)] at h2
    cases h2
    exact h1
  have hbyte := storeFiles_last hstore
  -- the slash is in the last words of the slot or in the next slot
  unfold sizeofFile pathOffset at hbyte
  by_cases hin : cwd.length < 108
  · rw [show (i * 120 + 12 + cwd.length) / 120 = i by omega,
      show (i * 120 + 12 + cwd.length) % 120 = 12 + cwd.length by omega, hslot] at hbyte
    unfold File.byte File.zero at hbyte
    split_ifs at hbyte <;> first | omega | simp [slash] at hbyte
  · rw [hother _ (by omega), File.byte_zero] at hbyte
    simp [slash] at hbyte

/-- `file_open` leaves the other slots alone if `abs_path` does. -/
theorem fileOpen_others {fs : Fs} {fails : Faults} {pid mode : ℕ} {s s' : FileSys} {r : Int}
    (hpart : (cwdPart s.fat.cwdPath path).length ≤ pathMax)
    (hslot : freeSlotLoop s.files maxFiles 0 = some i) (hi : i < maxFiles)
    (hopen : fileOpen fs fails pid path mode s = .ok (r, s')) : ∀ j, j ≠ i → s'.files j = s.files j := by
  obtain ⟨ok, files, habs, hother, -⟩ :=
    absPath_sameButPath hpart hi (Function.update s.files i File.zero)
  have hfiles : ∀ j, j ≠ i → files j = s.files j := fun j hj => by
    rw [hother j hj, Function.update_of_ne hj]
  have hset : ∀ f, ∀ j, j ≠ i → Function.update files i f j = s.files j := fun f j hj => by
    rw [Function.update_of_ne hj, hfiles j hj]
  unfold fileOpen at hopen
  simp only [hslot, habs] at hopen
  cases ok with
  | false =>
    cases hopen
    exact hfiles
  | true =>
    simp only at hopen
    by_cases hr : mode = oRdonly
    · rw [if_pos hr] at hopen
      cases hread : (fatReadFile fs (files i).pathText).run (fatHandler fails) s.fat with
      | error w =>
        rw [hread] at hopen
        cases hopen
      | ok x =>
        obtain ⟨_ | ⟨buf, data⟩, fat⟩ := x
        · rw [hread] at hopen
          cases hopen
          exact hfiles
        · rw [hread] at hopen
          cases hopen
          exact hset _
    · rw [if_neg hr] at hopen
      by_cases hw : mode = oWronly
      · rw [if_pos hw] at hopen
        cases hm : s.fat.heap.kmalloc writeCap with
        | error w =>
          rw [hm] at hopen
          cases hopen
        | ok x =>
          rw [hm] at hopen
          simp only at hopen
          split_ifs at hopen
          · cases hopen
            exact hfiles
          · cases hopen
            exact hset _
      · rw [if_neg hw] at hopen
        cases hopen
        exact hfiles

theorem cwdPart_length_le (hcond : path.head? = some slash ∨ cwd.length ≤ 95) :
    (cwdPart cwd path).length ≤ pathMax := by
  unfold cwdPart pathMax
  split_ifs with habs hlen
  · simp
  · have := hcond.resolve_left habs
    rw [List.length_append, List.length_singleton]
    omega
  · omega

/-- **`abs_path` writes inside its output**, and `file_open` leaves the other slots alone, if and
    only if the working directory fits there with a slash, or is not copied. -/
theorem absPath_inside_iff (hcwd : cwd.length ≤ 127) (hi : i < maxFiles) :
    ((∀ files, ∃ ok files', absPath cwd path i files = some (ok, files') ∧ SameButPath i files files') ∧
      ∀ (fs : Fs) (fails : Faults) (pid mode : ℕ) (s : FileSys) (r : Int) (s' : FileSys),
        s.fat.cwdPath = cwd → freeSlotLoop s.files maxFiles 0 = some i →
        fileOpen fs fails pid path mode s = .ok (r, s') → ∀ j, j ≠ i → s'.files j = s.files j) ↔
      (path.head? = some slash ∨ cwd.length ≤ 95) := by
  constructor
  · rintro ⟨hinside, -⟩
    by_contra hno
    rw [not_or, not_le] at hno
    obtain ⟨ok, files', habs, hsame⟩ := hinside (fun _ => File.zero)
    exact absPath_overruns_of_long hno.1 hno.2 hcwd habs hsame
  · intro hcond
    refine ⟨absPath_sameButPath (cwdPart_length_le hcond) hi, ?_⟩
    intro fs fails pid mode s r s' htext hslot hopen
    refine fileOpen_others ?_ hslot hi hopen
    rw [htext]
    exact cwdPart_length_le hcond

end Stores

/-- `B` in the root. -/
theorem absPath_inside_root : ∃ ok files', absPath (str "/") (str "B") 0 (fun _ => File.zero)
    = some (ok, files') ∧ SameButPath 0 (fun _ => File.zero) files' :=
  ((absPath_inside_iff (by decide) (by decide)).2 (Or.inr (by decide))).1 _

/-- `B` in a directory with a path of 108 characters: the call fails, and the next slot is in use. -/
theorem fileOpen_marks_next_slot :
    (fileOpen smallFs noFaults 1 (str "B") oRdonly
        { smallFiles [] [] [] with
          fat := { (smallFiles [] [] []).fat with cwdPath := slash :: List.replicate 107 0x41 } }).map
      (fun r => (r.1, (r.2.files 0).buf, (r.2.files 1).used)) = .ok (-1, 0x41414141, 0x2F) := by
  decide +kernel

/-! ## What the text names -/

/-- What the callers of `resolve` use of an entry: the directory bit, the first cluster, the size
    of a file, and the last name. -/
def target (d : Dirent) (name : Name83) : Bool × UInt16 × Option UInt32 × Name83 :=
  (d.isDir, d.clusterLo, if d.isDir then none else some d.size, name)

section Names

variable {fs : Fs} {ps : ℕ} {v v' : Vol} {path : Bytes}

/-- The slot carried along does not matter for the rest. -/
theorem Vol.walkPath_slot (v : Vol) (fs : Fs) (parentOf : Bool) (comps : List Bytes)
    (d : Dirent) (o o' : Option Slot) :
    (v.walkPath fs parentOf comps d o).map (fun r => (r.1, r.2.2))
      = (v.walkPath fs parentOf comps d o').map (fun r => (r.1, r.2.2)) := by
  induction comps generalizing d o o' with
  | nil =>
    rw [Vol.walkPath, Vol.walkPath]
    split_ifs <;> rfl
  | cons comp rest ih =>
    rw [Vol.walkPath, Vol.walkPath]
    cases to83 comp with
    | none => rfl
    | some name =>
      simp only
      split_ifs
      · rfl
      · rfl
      · cases v.lookup fs d.clusterLo name with
        | none => rfl
        | some r => exact ih r.1 _ _

/-- A walk from a directory only depends on its cluster. -/
theorem Vol.walkPath_target {d : Dirent} (hdir : d.isDir = true) {parentOf : Bool} {comps : List Bytes}
    (hne : comps ≠ []) (o : Option Slot) :
    (v.walkPath fs parentOf comps d o).map (fun r => target r.1 r.2.2)
      = (v.walkPath fs parentOf comps (dirEntry d.clusterLo) none).map (fun r => target r.1 r.2.2) := by
  cases comps with
  | nil => exact absurd rfl hne
  | cons comp rest =>
    rw [Vol.walkPath, Vol.walkPath]
    cases to83 comp with
    | none => rfl
    | some name =>
      simp only [hdir, dirEntry_isDir, dirEntry_clusterLo, Bool.not_true]
      split_ifs with hlast hno
      · simp [target, hdir]
      · cases hno
      · cases v.lookup fs d.clusterLo name with
        | none => rfl
        | some r =>
          have hslot := congrArg (Option.map (fun q => target q.1 q.2))
            (v.walkPath_slot fs parentOf rest r.1 (r.2.or o) (r.2.or none))
          rw [Option.map_map, Option.map_map] at hslot
          exact hslot

theorem pathStart_rel (cwd : UInt16) (hne : path ≠ []) (hrel : path.head? ≠ some slash) :
    pathStart cwd path = (cwd, path) := by
  cases path with
  | nil => exact absurd rfl hne
  | cons c path => exact if_neg (by simpa using hrel)

/-- The names of an absolute form. -/
theorem components_absText (rest : Bytes) (hrel : path.head? ≠ some slash) :
    ∃ text, absText (slash :: rest) path = slash :: text ∧
      components text = components rest ++ components path := by
  rw [absText, cwdPart, if_neg hrel]
  cases rest with
  | nil => exact ⟨path, rfl, rfl⟩
  | cons c rest =>
    rw [if_pos (by simp)]
    refine ⟨c :: rest ++ slash :: path, by simp, ?_⟩
    exact components_append_slash hrel (by simp)

/-- The absolute form of a path names what the path named. -/
theorem Vol.resolvePath_absText {rest : Bytes} (htext : v.cwdPath = slash :: rest)
    (hcwd : v.denote fs v.cwdPath = some (.dir v.cwd)) (hne : path ≠ [])
    (hrel : path.head? ≠ some slash) (hsame : v.SameContents v') (parentOf : Bool) :
    (v'.resolvePath fs parentOf (absText v.cwdPath path)).map (fun r => target r.1 r.2.2)
      = (v.resolvePath fs parentOf path).map (fun r => target r.1 r.2.2) := by
  obtain ⟨text, habs, hcomps⟩ := components_absText rest hrel
  have hstart : ∀ cwd t, pathStart cwd (slash :: t) = (0, t) := fun cwd t => by
    simp [pathStart]
  -- the working directory is where the first part of the walk ends
  rw [htext, Vol.denote, Vol.resolvePath, hstart] at hcwd
  obtain ⟨r, hwalk, hnode⟩ := Option.map_eq_some_iff.1 hcwd
  have hdir : r.1.isDir = true ∧ r.1.clusterLo = v.cwd := by
    rw [Vol.node] at hnode
    split_ifs at hnode with hd
    exact ⟨hd, by simpa using hnode⟩
  have hpath : components path ≠ [] := by
    rw [components_of_ne_nil hne]
    simp
  rw [Vol.resolvePath, Vol.resolvePath, htext, habs, hstart, pathStart_rel _ hne hrel, hsame.walkPath,
    hcomps, Vol.walkPath_append hpath, hwalk, Option.bind_some, Vol.walkPath_target hdir.1 hpath,
    hdir.2]

/-- What `abs_path` leaves in a slot that was cleared. -/
theorem absPath_text {cwd : Bytes} {i : ℕ} {files files' : ℕ → File} (hi : i < maxFiles)
    (habs : absPath cwd path i (Function.update files i File.zero) = some (true, files')) :
    (files' i).pathText = cString (absText cwd path) := by
  have hfit : PathFits cwd path := by
    by_contra hno
    have hlong : pathMax < (cwdPart cwd path).length + path.length + 1 := by
      simpa [PathFits, absText] using hno
    rw [absPath] at habs
    obtain ⟨files1, -, h1⟩ := Option.bind_eq_some_iff.1 habs
    rw [if_pos hlong] at h1
    cases h1
  rw [absPath_fits hfit hi] at habs
  cases habs
  refine pathText_store hfit ?_
  rw [Function.update_self, Function.update_self]

/-- `resolve` of an absolute path, wherever the working directory is. -/
theorem resolve_abs (hs : fs.Sane ps) {fault : Faults} {st : FatState}
    (h : (st.vol fs).Consistent fs) (parentOf : Bool) (text : Bytes)
    (hclean : NoAtaError fault (resolve fs parentOf (slash :: text) ⟨0, 0⟩) st) :
    ∃ st', (resolve fs parentOf (slash :: text) ⟨0, 0⟩).run (ataHandler fault) st
      = .ok (((st.vol fs).resolvePath fs parentOf (slash :: text)).map
          (fun r => (r.1, slotLoc fs r.2.1, r.2.2)), st') := by
  have hblind := @resolve_blind fs parentOf text ⟨0, 0⟩
  have hsame := st.sameContents_withCwd fs 0
  have hy := resolve_yields hs (hsame.consistent h) Vol.Live.root parentOf (slash :: text)
  obtain ⟨st0, hrun, -⟩ := hy.run_ok (hblind.noAtaError hclean 0)
  have hpath : ((st.withCwd 0).vol fs).resolvePath fs parentOf (slash :: text)
      = (st.vol fs).resolvePath fs parentOf (slash :: text) := by
    have hstart : ∀ cwd, pathStart cwd (slash :: text) = (0, text) := fun cwd => by simp [pathStart]
    simp only [Vol.resolvePath, hstart, hsame.walkPath]
  rw [hblind.run_withCwd, hpath] at hrun
  cases hres : (resolve fs parentOf (slash :: text) ⟨0, 0⟩).run (ataHandler fault) st with
  | error w =>
    rw [hres] at hrun
    cases hrun
  | ok r =>
    rw [hres] at hrun
    obtain ⟨a, st'⟩ := r
    cases hrun
    exact ⟨st', rfl⟩

/-- **Opening by a relative path is stable under `cd`.** -/
theorem absPath_stable (hs : fs.Sane ps) {fault fault' : Faults} {st st' : FatState}
    (hwf : (st.vol fs).WellFormed fs) (habsolute : st.cwdPath.head? = some slash)
    (hcwd : (st.vol fs).denote fs st.cwdPath = some (.dir st.cwdCluster))
    (hnul : ∀ b ∈ st.cwdPath ++ path, b ≠ 0) (hne : path ≠ []) (hrel : path.head? ≠ some slash)
    {i : ℕ} (hi : i < maxFiles) {files files' : ℕ → File}
    (habs : absPath st.cwdPath path i (Function.update files i File.zero) = some (true, files'))
    (hsame : (st.vol fs).SameContents (st'.vol fs)) (parentOf : Bool)
    (hclean : NoAtaError fault (resolve fs parentOf path ⟨0, 0⟩) st)
    (hclean' : NoAtaError fault' (resolve fs parentOf (files' i).pathText ⟨0, 0⟩) st') :
    ∃ r s r' s', (resolve fs parentOf path ⟨0, 0⟩).run (ataHandler fault) st = .ok (r, s) ∧
      (resolve fs parentOf (files' i).pathText ⟨0, 0⟩).run (fatHandler (ataFails fault')) st'
        = .ok (r', s') ∧
      r'.map (fun x => target x.1 x.2.2) = r.map (fun x => target x.1 x.2.2) := by
  have h := hwf.toConsistent
  obtain ⟨rest, htext⟩ := List.head?_eq_some_iff.1 habsolute
  obtain ⟨text, hform, -⟩ := components_absText rest hrel
  rw [← htext] at hform
  -- the slot holds the absolute form
  have hslot : (files' i).pathText = slash :: text := by
    rw [absPath_text hi habs, hform]
    refine List.takeWhile_eq_self_iff.2 (fun b hb => ?_)
    rw [← hform, absText, cwdPart, if_neg hrel] at hb
    have : b ≠ 0 := by
      split_ifs at hb
      · simp only [List.mem_append, List.mem_singleton] at hb
        rcases hb with (hb | rfl) | hb
        · exact hnul b (List.mem_append_left _ hb)
        · decide
        · exact hnul b (List.mem_append_right _ hb)
      · exact hnul b hb
    simpa using this
  -- the working directory is live, as the text leads there
  have hlive : (st.vol fs).Live fs (st.vol fs).cwd := by
    have hd := hcwd
    rw [htext, Vol.denote_eq_walk] at hd
    refine Vol.live_of_walk h ?_ hd
    rw [Vol.start, pathStart, if_pos rfl]
    exact Vol.Live.root
  have hres := Vol.resolvePath_absText htext hcwd hne hrel hsame parentOf
  obtain ⟨s, hrun, -⟩ := (resolve_yields hs h hlive parentOf path).run_ok hclean
  rw [hslot] at hclean' ⊢
  obtain ⟨s', hrun'⟩ := resolve_abs hs (hsame.consistent h) parentOf text hclean'
  refine ⟨_, s, _, s', hrun, hrun', ?_⟩
  rw [← hform, Option.map_map, Option.map_map]
  exact hres

end Names

/-- The disk with the directory `D`, after `cd D`. -/
def inOneDir : FatState := { oneDir with cwdPath := [slash, 0x44], cwdCluster := 2 }

/-- `..` in the directory `D`, resolved again from the root. -/
theorem absPath_stable_parent : ∃ r s r' s',
    (resolve smallFs false [dot, dot] ⟨0, 0⟩).run (ataHandler noFaults) inOneDir
      = .ok (r, s) ∧
    (resolve smallFs false [slash, 0x44, slash, dot, dot] ⟨0, 0⟩).run
      (ataHandler noFaults) oneDir = .ok (r', s') ∧
    r'.map (fun x => target x.1 x.2.2) = r.map (fun x => target x.1 x.2.2) := by
  have hres : ((absPath inOneDir.cwdPath [dot, dot] 0
      (Function.update (fun _ => File.zero) 0 File.zero)).map (fun r => (r.1, (r.2 0).pathText)))
        = some (true, [slash, 0x44, slash, dot, dot]) := by decide +kernel
  obtain ⟨⟨ok, files'⟩, habs, htext⟩ := Option.map_eq_some_iff.1 hres
  obtain ⟨rfl, htext⟩ := Prod.mk.inj htext
  simp only at htext
  have hwf : (inOneDir.vol smallFs).WellFormed smallFs := oneDir_wellFormed rfl
  have hsame : (inOneDir.vol smallFs).SameContents (oneDir.vol smallFs) := ⟨rfl, rfl⟩
  rw [← htext]
  refine absPath_stable smallFs_sane hwf rfl (by decide +kernel) (by decide)
    (by decide) (by decide) (by decide) habs hsame false ?_ ?_
  · decide +kernel
  · rw [htext]
    decide +kernel

end OctoOS
