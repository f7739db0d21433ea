import OctoOS.File.Owner
import OctoOS.Fat.Check

set_option autoImplicit false

/-! # Descriptors do not see each other

One lemma for each call of `file.h` says what it does to the table, the heap and the buffers, on any
volume and any device. From them: every call keeps `Owns`, answers on its own descriptor as
`Desc.answer` says and leaves all other descriptors alone. -/

namespace OctoOS

open Atomic Tiling

section Steps

variable {fs : Fs} {fails : Faults} {s s' : FileSys} {l : List Blk} {base : Blk → Prop}
  {b : Blk} {i mode pid : ℕ}

/-! ## `file_open` -/

theorem freeSlotLoop_eq_some {files : ℕ → File} {n j : ℕ} (h : freeSlotLoop files n i = some j) :
    j < i + n ∧ (files j).used = 0 := by
  induction n generalizing i with
  | zero => cases h
  | succ n ih =>
    rw [freeSlotLoop] at h
    split_ifs at h with hu
    · cases h
      exact ⟨by omega, hu⟩
    · obtain ⟨hj, hu'⟩ := ih h
      exact ⟨by omega, hu'⟩

/-- What `file_open` puts into a slot: `data` is what is in the buffer in the block `b`. -/
structure FreshFile (fs : Fs) (fails : Faults) (s : FileSys) (pid : ℕ) (path : Bytes) (mode : ℕ)
    (f : File) (b : Blk) (data : Bytes) : Prop where
  source : mode = oRdonly ∧ (∃ buf fat, (fatReadFile fs (cString (absText s.fat.cwdPath path))).run
      (fatHandler fails) s.fat = .ok (some (buf, data), fat)) ∨
    mode = oWronly ∧ data = [] ∧ writeCap ≤ b.size
  fits : data.length ≤ b.size
  used : f.used = 1
  pid : f.pid = pid
  mode : f.mode = mode
  path : f.pathText = cString (absText s.fat.cwdPath path)
  buf : f.buf = b.addr + blockHeader
  size : f.size = data.length
  pos : f.pos = 0

theorem FreshFile.owned {path data : Bytes} {f : File}
    (h : FreshFile fs fails s pid path mode f b data) : Owned f b where
  buf := h.buf
  size := by rw [h.size]; exact h.fits
  pos := by rw [h.pos]; exact Nat.zero_le _
  mode := by
    rw [h.mode]
    exact h.source.imp (fun h => h.1) (fun h => ⟨h.1, h.2.2⟩)

/-- The descriptor in a slot that was just filled. -/
theorem FreshFile.desc {path data : Bytes} {f : File}
    (h : FreshFile fs fails s pid path mode f b data)
    (hfiles : s'.files = Function.update s.files i f)
    (hram : s'.ram = storeBytes s.ram f.buf data) :
    s'.desc i = some ⟨pid, mode, cString (absText s.fat.cwdPath path), data, 0⟩ := by
  have hslot : s'.files i = f := by rw [hfiles, Function.update_self]
  have hu : (s'.files i).used ≠ 0 := by rw [hslot, h.used]; decide
  rw [FileSys.desc_eq hu, hslot, h.pid, h.mode, h.path, h.size, h.pos, hram, loadBytes_store]

/-- `file_open` fails and leaves the used slots and the heap alone, or it fills an unused slot. -/
def OpenPost (fs : Fs) (fails : Faults) (s : FileSys) (l : List Blk) (pid : ℕ) (path : Bytes)
    (mode : ℕ) (r : Int × FileSys) : Prop :=
  (r.1 = -1 ∧ r.2.fat.heap.blocks = some l ∧ SameUsed s.files r.2.files ∧ r.2.ram = s.ram) ∨
  ∃ i b l' f data, i < maxFiles ∧ (s.files i).used = 0 ∧ r.1 = i + fdBase ∧
    r.2.fat.heap.blocks = some l' ∧ Granted l b l' ∧ r.2.files = Function.update s.files i f ∧
    r.2.ram = storeBytes s.ram f.buf data ∧ FreshFile fs fails s pid path mode f b data

theorem fileOpen_defined (hspc : fs.sectorsPerCluster < 256) (hl : s.fat.heap.blocks = some l)
    {path : Bytes} (hfit : PathFits s.fat.cwdPath path)
    (hsize : (FileCall.open pid path mode).Loads fs fails s) :
    Defined (fileOpen fs fails pid path mode s) (OpenPost fs fails s l pid path mode) := by
  unfold fileOpen
  cases hslot : freeSlotLoop s.files maxFiles 0 with
  | none => exact Or.inl ⟨rfl, hl, fun _ => Or.inl rfl, rfl⟩
  | some i =>
    obtain ⟨hi, hfree⟩ := freeSlotLoop_eq_some hslot
    rw [Nat.zero_add] at hi
    simp only [absPath_fits hfit hi, Function.update_self, Function.update_idem]
    generalize hf0 : ({ File.zero with
      path := storeBytes File.zero.path 0 (absText s.fat.cwdPath path ++ [0]) } : File) = f0
    have hpath : f0.pathText = cString (absText s.fat.cwdPath path) := by
      rw [← hf0]
      exact pathText_store hfit rfl
    have hzero : f0.used = 0 := by rw [← hf0]; rfl
    -- a failing open leaves the cleared slot behind
    have hsame : SameUsed s.files (Function.update s.files i f0) := by
      intro j
      by_cases hji : j = i
      · subst hji
        rw [Function.update_self]
        exact Or.inr ⟨hfree, hzero⟩
      · exact Or.inl (Function.update_of_ne hji _ _)
    by_cases hr : mode = oRdonly
    · rw [if_pos hr]
      have hsmall : ∀ d st', (lookupFile fs f0.pathText).run (fatHandler fails) s.fat = .ok (some d, st') →
          d.size.toNat + 7 < 2 ^ 32 ∨ ∀ b ∈ l, b.used = true := by
        intro d st' hrun
        have hd := hsize hr
        rw [← hpath, hrun] at hd
        simp only at hd
        exact Or.inl (by omega)
      have hread := fatReadFile_defined hspc hsmall hl
      unfold Prog.Defined at hread
      cases hrun : (fatReadFile fs f0.pathText).run (fatHandler fails) s.fat with
      | error w =>
        rw [hrun] at hread
        exact hread
      | ok r =>
        rw [hrun] at hread
        obtain ⟨r, fat⟩ := r
        cases r with
        | none => exact Or.inl ⟨rfl, hread, hsame, rfl⟩
        | some x =>
          obtain ⟨buf, data⟩ := x
          obtain ⟨b, l', hl', hbuf, hfits, hg⟩ := hread
          refine Or.inr ⟨i, b, l', _, data, hi, hfree, rfl, hl', hg, Function.update_idem .., ?_, ?_⟩
          · rfl
          · rw [hpath] at hrun
            exact ⟨Or.inl ⟨hr, buf, fat, hrun⟩, hfits, rfl, rfl, rfl, pathText_store hfit rfl, hbuf,
              rfl, rfl⟩
    · rw [if_neg hr]
      by_cases hw : mode = oWronly
      · rw [if_pos hw]
        obtain ⟨h', hres, hb⟩ := Heap.kmalloc_blocks hl writeCap
        simp only [hres]
        by_cases hnull : (kmallocBlocks writeCap l).1 = 0
        · rw [if_pos hnull]
          rw [kmallocBlocks_null hnull] at hb
          exact Or.inl ⟨rfl, hb, hsame, rfl⟩
        · rw [if_neg hnull]
          obtain ⟨b, hptr, hbs, hg⟩ := kmallocBlocks_granted (Heap.blockList_of_blocks hl) hnull
          have hcap : writeCap ≤ b.size := le_trans (by decide) hbs
          refine Or.inr ⟨i, b, _, _, [], hi, hfree, rfl, hb, hg, Function.update_idem .., ?_, ?_⟩
          · exact (storeBytes_nil _ _).symm
          · exact ⟨Or.inr ⟨hw, rfl, hcap⟩, Nat.zero_le _, rfl, rfl, rfl, pathText_store hfit rfl, hptr,
              rfl, rfl⟩
      · rw [if_neg hw]
        exact Or.inl ⟨rfl, hl, hsame, rfl⟩

/-! ## `file_close` -/

/-- The write of a close leaves the heap as it was. -/
theorem closeWrite_defined (hspc : fs.sectorsPerCluster < 256) (hl : s.fat.heap.blocks = some l)
    (f : File) :
    Defined (closeWrite fs fails f s) (fun r => r.2.heap.blocks = some l ∧
      (f.mode = oWronly → (fatWriteFile fs (s.pending f).1 (s.pending f).2).run (fatHandler fails) s.fat
        = .ok r)) := by
  unfold closeWrite
  by_cases hw : f.mode = oWronly
  · rw [if_pos hw]
    exact Defined.and_eq (fatWriteFile_defined hspc _ _ hl) (fun r hr _ => hr)
  · rw [if_neg hw]
    exact ⟨hl, fun h => absurd h hw⟩

theorem closeSlot_defined (hspc : fs.sectorsPerCluster < 256) (hl : s.fat.heap.blocks = some l)
    (ho : Owns s.files l base) (hi : i < maxFiles) (hu : (s.files i).used ≠ 0) :
    Defined (closeSlot fs fails i s) (fun r => ∃ l', r.2.fat.heap.blocks = some l' ∧
      Owns r.2.files l' base ∧ r.2.ram = s.ram ∧
      r.2.files = Function.update s.files i { s.files i with used := 0 } ∧
      ((s.files i).mode = oWronly → ∃ fat, (fatWriteFile fs (s.pending (s.files i)).1
        (s.pending (s.files i)).2).run (fatHandler fails) s.fat = .ok (r.1, fat) ∧
        r.2.fat.disk = fat.disk)) := by
  obtain ⟨b, hb, hown, hbase⟩ := ho.slot i hi hu
  unfold closeSlot
  refine (closeWrite_defined hspc hl (s.files i)).bind (fun r hr => ?_)
  obtain ⟨rc, fat⟩ := r
  obtain ⟨hl1, hdisk⟩ := hr
  obtain ⟨h', hres, hl2⟩ := Heap.kfree_blocks hl1 hb
  rw [← hown.buf] at hres
  simp only [hres]
  exact ⟨_, hl2, ho.closed (Heap.blockList_of_blocks hl) hi hu hb hown hbase rfl, rfl, rfl,
    fun hw => ⟨fat, hdisk hw, rfl⟩⟩

/-! ## `file_close_all` -/

theorem fileCloseAllLoop_defined (hspc : fs.sectorsPerCluster < 256) {n : ℕ}
    (hin : i + n = maxFiles) (hl : s.fat.heap.blocks = some l) (ho : Owns s.files l base) :
    Defined (fileCloseAllLoop fs fails pid n i s) (fun s' => ∃ l', s'.fat.heap.blocks = some l' ∧
      Owns s'.files l' base ∧ s'.ram = s.ram ∧
      (∀ j, s'.files j = s.files j ∨ (s.files j).pid = pid ∧ (s'.files j).used = 0) ∧
      ∀ j, i ≤ j → j < maxFiles → (s'.files j).used ≠ 0 → (s'.files j).pid ≠ pid) := by
  induction n generalizing i s l with
  | zero => exact ⟨l, hl, ho, rfl, fun _ => Or.inl rfl, fun j hj hj' => absurd hj' (by omega)⟩
  | succ n ih =>
    rw [fileCloseAllLoop]
    by_cases hown : (s.files i).used ≠ 0 ∧ (s.files i).pid = pid
    · rw [if_pos hown]
      have hget : getFile s.files pid (i + fdBase) = some i := by
        rw [← hown.2]
        exact getFile_of_desc (s := s) (by omega) (FileSys.desc_eq hown.1)
      rw [fileClose, hget]
      refine (closeSlot_defined hspc hl ho (by omega) hown.1).bind (fun r hr => ?_)
      obtain ⟨l', hl', ho', hram, hfiles, -⟩ := hr
      refine (ih (by omega) hl' ho').mono (fun s' hs' => ?_)
      obtain ⟨l'', hl'', ho'', hram', hold, hnone⟩ := hs'
      have hslot : (r.2.files i).used = 0 := by rw [hfiles, Function.update_self]
      refine ⟨l'', hl'', ho'', hram'.trans hram, fun j => ?_, fun j hj hj' => ?_⟩
      · by_cases hji : j = i
        · subst hji
          refine Or.inr ⟨hown.2, ?_⟩
          rcases hold j with h | h
          · rw [h, hslot]
          · exact h.2
        · have hj : r.2.files j = s.files j := by rw [hfiles, Function.update_of_ne hji]
          rw [← hj]
          exact hold j
      · rcases Nat.eq_or_lt_of_le hj with rfl | hlt
        · intro hu
          rcases hold i with h | h
          · exact absurd (h ▸ hslot) hu
          · exact absurd h.2 hu
        · exact hnone j hlt hj'
    · rw [if_neg hown]
      refine (ih (by omega) hl ho).mono (fun s' hs' => ?_)
      obtain ⟨l'', hl'', ho'', hram', hold, hnone⟩ := hs'
      refine ⟨l'', hl'', ho'', hram', hold, fun j hj hj' => ?_⟩
      rcases Nat.eq_or_lt_of_le hj with rfl | hlt
      · intro hu hp
        rcases hold i with h | h
        · rw [h] at hu hp
          exact hown ⟨hu, hp⟩
        · exact hu h.2
      · exact hnone j hlt hj'

/-! ## `file_read` and `file_write` -/

theorem block_lt (hl : s.fat.heap.blocks = some l) (hb : b ∈ usedOf l) : b.size < 2 ^ 23 := by
  have hmem := (List.mem_filter.1 hb).1
  have hI := Heap.inv_of_blocks hl (List.ne_nil_of_mem hmem)
  have := (hI.tiles.mem_bounds hmem).2
  have := (hI.tiles.mem_bounds hmem).1
  have := hI.small
  unfold Blk.fin blockHeader at *
  unfold heapMaxSize at *
  omega

section

variable {i : ℕ} {d : Desc} (hl : s.fat.heap.blocks = some l) (ho : Owns s.files l base)
  (hi : i < maxFiles) (hd : s.desc i = some d)

include hl ho hi hd

/-- No file is larger than the heap. -/
theorem desc_length_lt : d.data.length < 2 ^ 23 := by
  have hu := FileSys.used_of_desc hd
  obtain ⟨b, hb, hown, -⟩ := ho.slot i hi hu
  have hlt := block_lt hl hb
  have hsize := hown.size
  rw [FileSys.desc_eq hu] at hd
  cases hd
  simp only [loadBytes_length]
  omega

theorem fileRead_eq (n : ℕ) :
    fileRead d.pid (i + fdBase) n s = .ok ((d.read n).1, { s with
      files := Function.update s.files i { s.files i with pos := (d.read n).2.pos } }) := by
  have hu := FileSys.used_of_desc hd
  obtain ⟨b, hb, hown, -⟩ := ho.slot i hi hu
  have hlt := block_lt hl hb
  have hsize := hown.size
  have hpos := hown.pos
  rw [fileRead, getFile_of_desc hi hd]
  rw [FileSys.desc_eq hu] at hd
  cases hd
  by_cases hm : (s.files i).mode ≠ oRdonly
  · simp only [Desc.read, if_pos hm, Function.update_eq_self]
  · have hsub : sub32 (s.files i).size (s.files i).pos = (s.files i).size - (s.files i).pos :=
      sub32_eq hpos (by omega)
    have hpay : s.fat.heap.payload (s.files i).buf = b.size := by
      rw [hown.buf]
      exact Heap.payload_eq hl (List.mem_filter.1 hb).1
    generalize hk : (if (s.files i).size - (s.files i).pos < n then
      (s.files i).size - (s.files i).pos else n) = k
    have hkle : (s.files i).pos + k ≤ (s.files i).size ∧
        k = min n ((s.files i).size - (s.files i).pos) := by
      rw [← hk]
      split_ifs <;> omega
    have hchunk : ((loadBytes s.ram (s.files i).buf (s.files i).size).drop (s.files i).pos).take n
        = loadBytes s.ram ((s.files i).buf + (s.files i).pos) k := by
      rw [loadBytes_sub s.ram hkle.1, List.take_eq_take_iff, List.length_drop, loadBytes_length]
      omega
    simp only [Desc.read, if_neg hm, hsub, hk, hpay, hchunk, loadBytes_length]
    rw [if_neg (by omega), toInt32, if_pos (by omega), w32_eq (by omega)]

theorem fileWrite_eq {src : Bytes} (hsrc : d.data.length + src.length < 2 ^ 32) :
    fileWrite d.pid (i + fdBase) src s = .ok ((d.write src).1.1,
      if d.mode ≠ oWronly ∨ writeCap < d.data.length + src.length then s
      else { s with
        files := Function.update s.files i { s.files i with size := (s.files i).size + src.length }
        ram := storeBytes s.ram ((s.files i).buf + (s.files i).size) src }) := by
  have hu := FileSys.used_of_desc hd
  obtain ⟨b, hb, hown, -⟩ := ho.slot i hi hu
  rw [fileWrite, getFile_of_desc hi hd]
  rw [FileSys.desc_eq hu] at hd
  cases hd
  simp only [loadBytes_length] at hsrc
  simp only [Desc.write, loadBytes_length]
  by_cases hm : (s.files i).mode ≠ oWronly
  · simp only [if_pos hm, if_pos (Or.inl hm : _ ∨ _)]
  · have hcap : writeCap ≤ b.size := by
      rcases hown.mode with h | h
      · rw [not_not.1 hm] at h
        cases h
      · exact h.2
    rw [if_neg hm, w32_eq (by omega)]
    by_cases hfull : writeCap < (s.files i).size + src.length
    · simp only [if_pos hfull, if_pos (Or.inr hfull : _ ∨ _)]
    · have hpay : s.fat.heap.payload (s.files i).buf = b.size := by
        rw [hown.buf]
        exact Heap.payload_eq hl (List.mem_filter.1 hb).1
      have hsmall : src.length < 2 ^ 31 := by
        unfold writeCap at hfull
        omega
      rw [if_neg hfull, hpay, if_neg (by omega), if_neg (by tauto), if_neg (by tauto), toInt32,
        if_pos hsmall]

end

end Steps

/-! ## One call -/

/-- What a call does: the ownership stays, its own descriptor answers and all others stay as they
    are. -/
structure FileStep (c : FileCall) (s : FileSys) (base : Blk → Prop) (r : Int × Bytes) (s' : FileSys) :
    Prop where
  owns : ∃ l, s'.fat.heap.blocks = some l ∧ Owns s'.files l base
  kept : ∀ i < maxFiles, ∀ d, s.desc i = some d → ¬ d.ClosedBy i c → d.answer i c = none →
    s'.desc i = some d
  answered : ∀ i < maxFiles, ∀ d r' d', s.desc i = some d → d.answer i c = some (r', d') →
    r = r' ∧ s'.desc i = some d'

section Step

variable {fs : Fs} {fails : Faults} {s s' : FileSys} {l : List Blk} {base : Blk → Prop}
  {fd : Int} {pid : ℕ}

/-- The payloads of two blocks do not meet. -/
theorem payload_apart (hl : BlockList l) {b c : Blk} (hb : b ∈ usedOf l) (hc : c ∈ usedOf l)
    (hne : b.addr ≠ c.addr) {k : ℕ} (hk : k < c.size) :
    c.addr + blockHeader + k < b.addr + blockHeader ∨
      b.addr + blockHeader + b.size ≤ c.addr + blockHeader + k := by
  rcases hl with rfl | ⟨lo, hi, ht, -⟩
  · exact absurd hb (by simp [usedOf])
  · have := ht.disjoint (List.mem_filter.1 hb).1 (List.mem_filter.1 hc).1 (fun h => hne (by rw [h]))
    unfold Blk.fin at this
    omega

/-- Stores into one block leave a slot with another block alone. -/
theorem desc_store (hl : BlockList l) {b c : Blk} (hb : b ∈ usedOf l) (hc : c ∈ usedOf l)
    (hne : b.addr ≠ c.addr) {i off : ℕ} {data : Bytes} (hown : Owned (s.files i) c)
    (hfits : off + data.length ≤ b.size) (hf : s'.files i = s.files i)
    (hr : s'.ram = storeBytes s.ram (b.addr + blockHeader + off) data) : s'.desc i = s.desc i := by
  refine FileSys.desc_congr hf (fun k hk => ?_)
  have hsize := hown.size
  rw [hr, hown.buf]
  rcases payload_apart hl hb hc hne (k := k) (by omega) with h | h
  · exact storeBytes_of_lt _ _ _ (by omega)
  · exact storeBytes_of_ge _ _ _ (by omega)

/-- A call on a descriptor that is not the caller's changes nothing. -/
theorem not_on_of_getFile_none (h : getFile s.files pid fd = none) {i : ℕ} (hi : i < maxFiles)
    {d : Desc} (hd : s.desc i = some d) : ¬ (pid = d.pid ∧ fd = i + fdBase) := by
  rintro ⟨rfl, rfl⟩
  rw [getFile_of_desc hi hd] at h
  cases h

theorem desc_of_getFile {j : ℕ} (h : getFile s.files pid fd = some j) :
    ∃ d, s.desc j = some d ∧ pid = d.pid ∧ fd = j + fdBase ∧ j < maxFiles := by
  obtain ⟨hj, hfd, hu, hp⟩ := getFile_eq_some h
  exact ⟨_, FileSys.desc_eq hu, hp.symm, hfd, hj⟩

theorem fileOpen_step (hspc : fs.sectorsPerCluster < 256) (hl : s.fat.heap.blocks = some l)
    (ho : Owns s.files l base) {mode : ℕ} {path : Bytes} (hfit : PathFits s.fat.cwdPath path)
    (hsize : (FileCall.open pid path mode).Loads fs fails s) :
    Defined ((FileCall.open pid path mode).exec fs fails s)
      (fun r => FileStep (.open pid path mode) s base r.1 r.2) := by
  refine (fileOpen_defined hspc hl hfit hsize).bind (fun r hr => ?_)
  obtain ⟨r, s'⟩ := r
  rcases hr with ⟨-, hl', hsame, hram⟩ | ⟨j, b, l', f, data, hj, hfree, -, hl', hg, hfiles, hram, hf⟩
  · refine ⟨⟨l, hl', ho.congr hsame⟩, fun i hi d hd _ _ => ?_, fun i hi d r' d' _ ha => ?_⟩
    · rw [← hd]
      refine FileSys.desc_congr ((hsame i).resolve_right (fun hz => ?_)) (fun _ _ => by rw [hram])
      exact FileSys.used_of_desc hd hz.1
    · cases ha
  · refine ⟨⟨l', hl', ?_⟩, fun i hi d hd _ _ => ?_, fun i hi d r' d' _ ha => ?_⟩
    · rw [hfiles]
      exact ho.opened hg hj hfree (by rw [hf.used]; decide) hf.owned
    · have hu := FileSys.used_of_desc hd
      obtain ⟨c, hc, hown, -⟩ := ho.slot i hi hu
      rw [← hd]
      have hfits : 0 + data.length ≤ b.size := by
        rw [Nat.zero_add]
        exact hf.fits
      refine desc_store (Heap.blockList_of_blocks hl') hg.mem ((hg.used c).2 (Or.inr hc))
        (fun h => hg.fresh c hc h.symm) hown hfits ?_ ?_
      · rw [hfiles, Function.update_of_ne]
        rintro rfl
        exact hu hfree
      · rw [Nat.add_zero, ← hf.buf]
        exact hram
    · cases ha

/-- `c` is a request on the descriptor `fd` of the process `pid`, and `f` is its effect there. -/
def FileCall.Requests (c : FileCall) (pid : ℕ) (fd : Int) (f : Desc → (Int × Bytes) × Desc) : Prop :=
  ∀ (d : Desc) (i : ℕ), d.answer i c = if pid = d.pid ∧ fd = i + fdBase then some (f d) else none

/-- A request on a descriptor that is not open does nothing. -/
theorem FileStep.refused {c : FileCall} {f : Desc → (Int × Bytes) × Desc} (hc : c.Requests pid fd f)
    (hl : s.fat.heap.blocks = some l) (ho : Owns s.files l base)
    (hget : getFile s.files pid fd = none) (r : Int × Bytes) : FileStep c s base r s := by
  refine ⟨⟨l, hl, ho⟩, fun i hi d hd _ _ => hd, fun i hi d r' d' hd ha => ?_⟩
  rw [hc, if_neg (not_on_of_getFile_none hget hi hd)] at ha
  cases ha

/-- A request on an open descriptor changes that one only. -/
theorem FileStep.of_slot {c : FileCall} {j : ℕ} {d : Desc} {f : Desc → (Int × Bytes) × Desc}
    (hc : c.Requests d.pid (j + fdBase) f) (hd : s.desc j = some d)
    (howns : ∃ l, s'.fat.heap.blocks = some l ∧ Owns s'.files l base)
    (hothers : ∀ i < maxFiles, i ≠ j → ∀ e, s.desc i = some e → s'.desc i = some e)
    (hslot : s'.desc j = some (f d).2) : FileStep c s base (f d).1 s' := by
  refine ⟨howns, fun i hi e he _ hno => hothers i hi ?_ e he, fun i hi e r' e' he ha => ?_⟩
  · rintro rfl
    obtain rfl := Option.some.inj (he.symm.trans hd)
    rw [hc, if_pos ⟨rfl, rfl⟩] at hno
    cases hno
  · rw [hc] at ha
    split_ifs at ha with hon
    obtain rfl : j = i := by
      have := hon.2
      omega
    obtain rfl := Option.some.inj (he.symm.trans hd)
    rw [Option.some.inj ha] at hslot ⊢
    exact ⟨rfl, hslot⟩

theorem fileRead_step (hl : s.fat.heap.blocks = some l) (ho : Owns s.files l base) {n : ℕ} :
    Defined (fileRead pid fd n s) (fun r => FileStep (.read pid fd n) s base r.1 r.2) := by
  have hon : (FileCall.read pid fd n).Requests pid fd (Desc.read · n) := fun _ _ => rfl
  cases hget : getFile s.files pid fd with
  | none =>
    have hres : fileRead pid fd n s = .ok ((-1, []), s) := by
      simp only [fileRead, hget]
    rw [hres]
    exact FileStep.refused hon hl ho hget _
  | some j =>
    obtain ⟨d, hd, rfl, rfl, hj⟩ := desc_of_getFile hget
    have hu := FileSys.used_of_desc hd
    obtain ⟨b, hb, hown, hbase⟩ := ho.slot j hj hu
    simp only [fileRead_eq hl ho hj hd]
    have hdesc := hd
    rw [FileSys.desc_eq hu] at hdesc
    have hd' := Option.some.inj hdesc
    have hpos : (d.read n).2.pos ≤ (s.files j).size := by
      have := hown.pos
      rw [← hd']
      unfold Desc.read
      split_ifs
      · exact this
      · simp only [List.length_take, List.length_drop, loadBytes_length]
        omega
    refine FileStep.of_slot hon hd ⟨l, hl, ?_⟩ (fun i hi hij e he => ?_) ?_
    · exact ho.edited hj hu hb hbase rfl hu ⟨hown.buf, hown.size, hpos, hown.mode⟩
    · rw [← he]
      exact FileSys.desc_congr (Function.update_of_ne hij _ _) (fun _ _ => rfl)
    · -- only the position moves
      have hmove : (d.read n).2 = { d with pos := (d.read n).2.pos } := by
        unfold Desc.read
        split_ifs <;> rfl
      refine (FileSys.desc_update ?_).trans ?_
      · exact hu
      · rw [hmove, ← hd']
        rfl

theorem fileWrite_step (hl : s.fat.heap.blocks = some l) (ho : Owns s.files l base) {src : Bytes}
    (hsrc : ∀ i d, getFile s.files pid fd = some i → s.desc i = some d →
      d.data.length + src.length < 2 ^ 32) :
    Defined (fileWrite pid fd src s)
      (fun r => FileStep (.write pid fd src) s base (r.1, []) r.2) := by
  have hon : (FileCall.write pid fd src).Requests pid fd (Desc.write · src) := fun _ _ => rfl
  cases hget : getFile s.files pid fd with
  | none =>
    have hres : fileWrite pid fd src s = .ok (-1, s) := by
      simp only [fileWrite, hget]
    rw [hres]
    exact FileStep.refused hon hl ho hget _
  | some j =>
    obtain ⟨d, hd, rfl, rfl, hj⟩ := desc_of_getFile hget
    have hu := FileSys.used_of_desc hd
    obtain ⟨b, hb, hown, hbase⟩ := ho.slot j hj hu
    have hdesc := hd
    rw [FileSys.desc_eq hu] at hdesc
    have hd' := Option.some.inj hdesc
    have hmode : d.mode = (s.files j).mode := by rw [← hd']
    have hlen : d.data.length = (s.files j).size := by rw [← hd', loadBytes_length]
    have hbytes : ((d.write src).1.1, []) = (d.write src).1 := by
      unfold Desc.write
      split_ifs <;> rfl
    rw [fileWrite_eq hl ho hj hd (hsrc j d hget hd)]
    simp only [Defined, hbytes]
    by_cases hfull : d.mode ≠ oWronly ∨ writeCap < d.data.length + src.length
    · rw [if_pos hfull]
      refine FileStep.of_slot hon hd ⟨l, hl, ho⟩ (fun i hi _ e he => he) ?_
      rw [hd, Desc.write, if_pos hfull]
    · rw [if_neg hfull]
      have hwrite := hfull
      rw [not_or, not_not, not_lt, hmode, hlen] at hfull
      have hcap : writeCap ≤ b.size := by
        rcases hown.mode with h | h
        · rw [hfull.1] at h
          cases h
        · exact h.2
      have hfits : (s.files j).size + src.length ≤ b.size := le_trans hfull.2 hcap
      refine FileStep.of_slot hon hd ⟨l, hl, ?_⟩ (fun i hi hij e he => ?_) ?_
      · refine ho.edited hj hu hb hbase rfl hu ⟨hown.buf, hfits, ?_, hown.mode⟩
        exact le_trans hown.pos (Nat.le_add_right _ _)
      · have hui := FileSys.used_of_desc he
        obtain ⟨c, hc, hownc, -⟩ := ho.slot i hi hui
        rw [← he]
        refine desc_store (Heap.blockList_of_blocks hl) hb hc (fun haddr => hij ?_) hownc hfits
          (Function.update_of_ne hij _ _) ?_
        · refine ho.apart i hi j hj hui hu ?_
          rw [hownc.buf, hown.buf, haddr]
        · rw [← hown.buf]
      · refine (FileSys.desc_update ?_).trans ?_
        · exact hu
        · rw [Desc.write, if_neg hwrite, loadBytes_store_append, ← hd']
          rfl

section

variable (hspc : fs.sectorsPerCluster < 256) (hl : s.fat.heap.blocks = some l)
  (ho : Owns s.files l base)

include hspc hl ho

theorem fileClose_step {pid : ℕ} {fd : Int} :
    Defined ((FileCall.close pid fd).exec fs fails s)
      (fun r => FileStep (.close pid fd) s base r.1 r.2) := by
  simp only [FileCall.exec, fileClose]
  cases hget : getFile s.files pid fd with
  | none =>
    refine ⟨⟨l, hl, ho⟩, fun i hi d hd _ _ => hd, fun i hi d r' d' _ ha => ?_⟩
    cases ha
  | some j =>
    obtain ⟨d, hd, rfl, rfl, hj⟩ := desc_of_getFile hget
    refine (closeSlot_defined hspc hl ho hj (FileSys.used_of_desc hd)).bind (fun r hr => ?_)
    obtain ⟨l', hl', ho', hram, hfiles, -⟩ := hr
    refine ⟨⟨l', hl', ho'⟩, fun i hi e he hcl _ => ?_, fun i hi e r' e' _ ha => ?_⟩
    · have hij : i ≠ j := by
        rintro rfl
        obtain rfl := Option.some.inj (he.symm.trans hd)
        exact hcl ⟨rfl, rfl⟩
      rw [← he]
      exact FileSys.desc_congr (by rw [hfiles, Function.update_of_ne hij]) (fun _ _ => by rw [hram])
    · cases ha

theorem fileCloseAll_step {pid : ℕ} :
    Defined ((FileCall.closeAll pid).exec fs fails s)
      (fun r => FileStep (.closeAll pid) s base r.1 r.2 ∧
        ∀ j < maxFiles, (r.2.files j).used ≠ 0 → (r.2.files j).pid ≠ pid) := by
  refine (fileCloseAllLoop_defined hspc (Nat.zero_add _) hl ho).bind (fun s' hs' => ?_)
  obtain ⟨l', hl', ho', hram, hold, hnone⟩ := hs'
  refine ⟨⟨⟨l', hl', ho'⟩, fun i hi d hd hcl _ => ?_, fun i hi d r' d' _ ha => ?_⟩,
    fun j hj => hnone j (Nat.zero_le j) hj⟩
  · rw [← hd]
    refine FileSys.desc_congr ((hold i).resolve_right (fun hp => hcl ?_)) (fun _ _ => by rw [hram])
    rw [FileSys.desc_eq (FileSys.used_of_desc hd)] at hd
    cases hd
    exact hp.1.symm
  · cases ha

/-- **Every call** on any volume: it stays defined, and it does what `FileStep` says. -/
theorem FileCall.exec_step (c : FileCall) (hfit : c.Fits s) (hload : c.Loads fs fails s) :
    Defined (c.exec fs fails s) (fun r => FileStep c s base r.1 r.2) := by
  cases c with
  | «open» pid path mode => exact fileOpen_step hspc hl ho hfit hload
  | read pid fd n => exact fileRead_step hl ho
  | write pid fd src =>
    have hsrc : src.length ≤ 4 * 1024 * 1024 := hfit
    refine (fileWrite_step hl ho (fun i d hget hd => ?_)).bind (fun r hr => hr)
    have := desc_length_lt hl ho (getFile_eq_some hget).1 hd
    omega
  | close pid fd => exact fileClose_step hspc hl ho
  | closeAll pid => exact (fileCloseAll_step hspc hl ho).mono (fun _ h => h.1)

end

end Step

/-! ## Runs -/

/-- Calls one after another, with their results; each call meets `ok`. -/
inductive FileRun (fs : Fs) (fails : Faults) (ok : FileSys → FileCall → Prop) :
    FileSys → List (FileCall × (Int × Bytes)) → FileSys → Prop where
  | nil {s : FileSys} : FileRun fs fails ok s [] s
  | cons {s s' s'' : FileSys} {c : FileCall} {r : Int × Bytes} {tr : List (FileCall × (Int × Bytes))} :
      ok s c → c.exec fs fails s = .ok (r, s') → FileRun fs fails ok s' tr s'' →
      FileRun fs fails ok s ((c, r) :: tr) s''

/-- The descriptor in slot `i` after calls, some of which may be on it. -/
def Desc.after (i : ℕ) : Desc → List FileCall → Desc
  | d, [] => d
  | d, c :: cs => Desc.after i (((d.answer i c).map Prod.snd).getD d) cs

/-- The results of the calls on the descriptor in slot `i`. -/
def Desc.replies (i : ℕ) : Desc → List FileCall → List (Int × Bytes)
  | _, [] => []
  | d, c :: cs =>
    match d.answer i c with
    | none => d.replies i cs
    | some (r, d') => r :: d'.replies i cs

/-- A read or a write of `pid` on the descriptor in slot `i`. -/
def FileCall.On (pid i : ℕ) : FileCall → Bool
  | .read p fd _ | .write p fd _ => p = pid ∧ fd = i + fdBase
  | _ => false

section Runs

variable {fs : Fs} {fails : Faults} {ok : FileSys → FileCall → Prop} {s s' : FileSys}
  {l : List Blk} {base : Blk → Prop}

theorem Desc.answer_isSome (d : Desc) (i : ℕ) (c : FileCall) :
    (d.answer i c).isSome = c.On d.pid i := by
  cases c with
  | read _ _ _ | write _ _ _ =>
    simp only [Desc.answer, FileCall.On]
    split_ifs with h <;> simp [h]
  | _ => rfl

theorem Desc.read_pid (d : Desc) (n : ℕ) : (d.read n).2.pid = d.pid := by
  unfold Desc.read
  split_ifs <;> rfl

theorem Desc.write_pid (d : Desc) (src : Bytes) : (d.write src).2.pid = d.pid := by
  unfold Desc.write
  split_ifs <;> rfl

theorem Desc.answer_pid {d d' : Desc} {i : ℕ} {c : FileCall} {r : Int × Bytes}
    (h : d.answer i c = some (r, d')) : d'.pid = d.pid := by
  cases c with
  | read p fd n =>
    simp only [Desc.answer] at h
    split_ifs at h
    rw [← d.read_pid n, Option.some.inj h]
  | write p fd src =>
    simp only [Desc.answer] at h
    split_ifs at h
    rw [← d.write_pid src, Option.some.inj h]
  | _ => cases h

theorem Desc.closedBy_iff {d d' : Desc} (h : d'.pid = d.pid) (i : ℕ) (c : FileCall) :
    d'.ClosedBy i c ↔ d.ClosedBy i c := by
  cases c <;> simp only [Desc.ClosedBy, h]

section

variable {tr : List (FileCall × (Int × Bytes))} (hspc : fs.sectorsPerCluster < 256)
  (hrun : FileRun fs fails (fun s c => c.Fits s ∧ c.Loads fs fails s) s tr s')
  (hl : s.fat.heap.blocks = some l) (ho : Owns s.files l base)

include hspc hrun hl ho

/-- The ownership along a run. -/
theorem FileRun.owns :
    ∃ l', s'.fat.heap.blocks = some l' ∧ Owns s'.files l' base := by
  induction hrun generalizing l with
  | nil => exact ⟨l, hl, ho⟩
  | cons hok hexec _ ih =>
    obtain ⟨l', hl', ho'⟩ := ((FileCall.exec_step hspc hl ho _ hok.1 hok.2).post hexec).owns
    exact ih hl' ho'

/-- A descriptor along a run in which it is not closed: only the calls on it count. -/
theorem FileRun.desc {i : ℕ} (hi : i < maxFiles) {d : Desc} (hd : s.desc i = some d)
    (hopen : ∀ cr ∈ tr, ¬ d.ClosedBy i cr.1) :
    s'.desc i = some (d.after i ((tr.filter (fun cr => cr.1.On d.pid i)).map Prod.fst)) ∧
      (tr.filter (fun cr => cr.1.On d.pid i)).map Prod.snd
        = d.replies i ((tr.filter (fun cr => cr.1.On d.pid i)).map Prod.fst) := by
  induction hrun generalizing l d with
  | nil => exact ⟨hd, rfl⟩
  | @cons s s1 s2 c r tr hok hexec _ ih =>
    have hstep := (FileCall.exec_step hspc hl ho c hok.1 hok.2).post hexec
    obtain ⟨l', hl', ho'⟩ := hstep.owns
    have hsome := d.answer_isSome i c
    cases ha : d.answer i c with
    | none =>
      rw [ha] at hsome
      have hd1 := hstep.kept i hi d hd (hopen _ (List.mem_cons_self ..)) ha
      rw [List.filter_cons_of_neg (by simp [← hsome])]
      exact ih hl' ho' hd1 (fun cr hcr => hopen cr (List.mem_cons_of_mem _ hcr))
    | some x =>
      obtain ⟨r', d'⟩ := x
      rw [ha] at hsome
      obtain ⟨rfl, hd1⟩ := hstep.answered i hi d r' d' hd ha
      have hpid := Desc.answer_pid ha
      have hclosed : ∀ cr ∈ tr, ¬ d'.ClosedBy i cr.1 := fun cr hcr hcl =>
        hopen cr (List.mem_cons_of_mem _ hcr) ((Desc.closedBy_iff hpid i cr.1).1 hcl)
      obtain ⟨hdesc, hreplies⟩ := ih hl' ho' hd1 hclosed
      rw [hpid] at hdesc hreplies
      rw [List.filter_cons_of_pos (by simp [← hsome]), List.map_cons, List.map_cons]
      refine ⟨?_, ?_⟩
      · rw [hdesc, Desc.after, ha]
        rfl
      · rw [hreplies, Desc.replies, ha]

end

end Runs

/-- What holds of the files in a state, with the heap blocks `l₀` of other users. -/
structure FilesSound (fs : Fs) (fails : Faults) (l₀ : List Blk) (s : FileSys) : Prop where
  /-- A used slot has a live block of its own, its cursor is inside it, and no other block is
      live. -/
  owns : ∃ l, s.fat.heap.blocks = some l ∧ Owns s.files l (· ∈ usedOf l₀)
  /-- No call leaves what the language defines. -/
  defined : ∀ c : FileCall, c.Fits s → c.Loads fs fails s → c.exec fs fails s ≠ .error .undefined
  /-- A new descriptor holds the contents of the file at that time, or nothing yet. -/
  opened : ∀ pid path mode fd s', PathFits s.fat.cwdPath path →
    (FileCall.open pid path mode).Loads fs fails s →
    fileOpen fs fails pid path mode s = .ok (fd, s') → 0 ≤ fd →
    ∃ i < maxFiles, ∃ data, fd = i + fdBase ∧
      s'.desc i = some ⟨pid, mode, cString (absText s.fat.cwdPath path), data, 0⟩ ∧
      (mode = oRdonly ∧ (∃ buf fat, (fatReadFile fs (cString (absText s.fat.cwdPath path))).run
          (fatHandler fails) s.fat = .ok (some (buf, data), fat)) ∨
        mode = oWronly ∧ data = [])
  /-- Until it is closed, only the calls on a descriptor count for it. -/
  isolated : ∀ tr s' i d, FileRun fs fails (fun s c => c.Fits s ∧ c.Loads fs fails s) s tr s' →
    i < maxFiles → s.desc i = some d → (∀ cr ∈ tr, ¬ d.ClosedBy i cr.1) →
    s'.desc i = some (d.after i ((tr.filter (fun cr => cr.1.On d.pid i)).map Prod.fst)) ∧
      (tr.filter (fun cr => cr.1.On d.pid i)).map Prod.snd
        = d.replies i ((tr.filter (fun cr => cr.1.On d.pid i)).map Prod.fst)
  /-- A close writes the bytes of the descriptor to its path. -/
  closed : ∀ i < maxFiles, ∀ d rc s', s.desc i = some d → d.mode = oWronly →
    fileClose fs fails d.pid (i + fdBase) s = .ok (rc, s') →
    ∃ fat, (fatWriteFile fs d.path d.data).run (fatHandler fails) s.fat = .ok (rc, fat) ∧
      s'.fat.disk = fat.disk
  /-- `file_close_all` leaves no slot to the process. -/
  closedAll : ∀ pid s', fileCloseAll fs fails pid s = .ok s' →
    ∀ i < maxFiles, (s'.files i).used ≠ 0 → (s'.files i).pid ≠ pid

/-- **Descriptors are isolated.** In every state that calls of any processes lead to from an empty
    table, where each call finds a file whose size `kmalloc` can round up, the files are sound. -/
theorem fileRun_isolated {fs : Fs} {fails : Faults} (hspc : fs.sectorsPerCluster < 256)
    {s0 s : FileSys} {l0 : List Blk} (hfree : ∀ i < maxFiles, (s0.files i).used = 0)
    (hheap : s0.fat.heap.blocks = some l0) {tr : List (FileCall × (Int × Bytes))}
    (hrun : FileRun fs fails (fun s c => c.Fits s ∧ c.Loads fs fails s) s0 tr s) :
    FilesSound fs fails l0 s := by
  obtain ⟨l, hl, ho⟩ := hrun.owns hspc hheap (Owns.init hfree)
  refine ⟨⟨l, hl, ho⟩, fun c hfit hload => ?_, fun pid path mode fd s' hfit hload hopen hfd => ?_,
    fun tr' s' i d hrun' hi hd hcl => hrun'.desc hspc hl ho hi hd hcl,
    fun i hi d rc s' hd hw hclose => ?_, fun pid s' hclose => ?_⟩
  · exact (FileCall.exec_step hspc hl ho c hfit hload).ne_undefined
  · rcases (fileOpen_defined hspc hl hfit hload).post hopen with ⟨hneg, -⟩ |
      ⟨i, b, l', f, data, hi, -, hres, -, -, hfiles, hram, hf⟩
    · simp only at hneg
      omega
    · exact ⟨i, hi, data, hres, hf.desc hfiles hram, hf.source.imp id (fun h => ⟨h.1, h.2.1⟩)⟩
  · have hu := FileSys.used_of_desc hd
    have hget := getFile_of_desc hi hd
    rw [FileSys.desc_eq hu] at hd
    cases hd
    rw [fileClose, hget] at hclose
    obtain ⟨l', -, -, -, -, hwrite⟩ := (closeSlot_defined hspc hl ho hi hu).post hclose
    exact hwrite hw
  · have hexec : (FileCall.closeAll pid).exec fs fails s = .ok ((0, []), s') := by
      simp only [FileCall.exec, hclose]
      rfl
    exact ((fileCloseAll_step hspc hl ho).post hexec).2

/-! ## Two runs -/

instance (s : FileSys) (c : FileCall) : Decidable (c.Fits s) := by
  cases c <;> unfold FileCall.Fits <;> infer_instance

instance (fs : Fs) (fails : Faults) (s : FileSys) : (c : FileCall) → Decidable (c.Loads fs fails s)
  | .open _ path mode =>
    match hr : (lookupFile fs (cString (absText s.fat.cwdPath path))).run (fatHandler fails) s.fat with
    | .ok (some d, _) => decidable_of_iff (mode = oRdonly → d.size.toNat ≤ 0xFFFFFFF8)
        (by rw [FileCall.Loads, hr])
    | .ok (none, _) => isTrue (by rw [FileCall.Loads, hr]; exact fun _ => trivial)
    | .error _ => isTrue (by rw [FileCall.Loads, hr]; exact fun _ => trivial)
  | .read _ _ _ | .write _ _ _ | .close _ _ | .closeAll _ => isTrue trivial

/-- The results of calls, while each of them meets its conditions. -/
def FileCall.execs (fs : Fs) (fails : Faults) :
    List FileCall → FileSys → Option (List (Int × Bytes) × FileSys)
  | [], s => some ([], s)
  | c :: cs, s =>
    if c.Fits s ∧ c.Loads fs fails s then
      match c.exec fs fails s with
      | .ok (r, s') => (execs fs fails cs s').map (fun x => (r :: x.1, x.2))
      | .error _ => none
    else none

theorem FileRun.of_execs {fs : Fs} {fails : Faults} {cs : List FileCall} {s s' : FileSys}
    {rs : List (Int × Bytes)} (h : FileCall.execs fs fails cs s = some (rs, s')) :
    ∃ tr, tr.map Prod.snd = rs ∧ FileRun fs fails (fun s c => c.Fits s ∧ c.Loads fs fails s) s tr s' := by
  induction cs generalizing s rs with
  | nil =>
    cases h
    exact ⟨[], rfl, .nil⟩
  | cons c cs ih =>
    rw [FileCall.execs] at h
    split_ifs at h with hok
    split at h
    next r s1 hexec =>
      obtain ⟨⟨rs', _⟩, hrest, heq⟩ := Option.map_eq_some_iff.1 h
      cases heq
      obtain ⟨tr, rfl, hrun⟩ := ih hrest
      exact ⟨_ :: tr, rfl, .cons hok hexec hrun⟩
    · cases h

/-- A heap of 128 KiB. -/
def filesHeap : Heap := heapInit [⟨0x100000, 0x20000, 1⟩] (fun _ => 0)

theorem filesHeap_blocks : filesHeap.blocks = some [⟨0x100000, 0x1FFF4, false⟩] := by
  have hI : filesHeap.Inv [⟨filesHeap.head, filesHeap.total - blockHeader, false⟩] :=
    heapInit_inv rfl (by decide) (by decide) (by decide)
  exact hI.blocks_eq

/-- The small volume with that heap and no open file. -/
def smallFiles (fat : List UInt16) (root : List Dirent) (clusters : List Sector) : FileSys where
  fat := { smallState fat root clusters with heap := filesHeap }
  files := fun _ => File.zero
  ram := fun _ => 0

/-- A volume with the file `A` of two bytes. -/
def twoBytes : FileSys := smallFiles [0xFFF8, 0xFFFF, 0xFFFF]
  [{ Dirent.zero with name := name83 (str "A") [], clusterLo := 2, size := 2 }]
  [fun i => if i = 0 then 0x58 else 0x59]

/-- A process writes `B` while another one reads `A`; the second cannot use the descriptor of the first,
    and reads `B` when it is closed. -/
theorem fileRun_isolated_write : ∃ tr s, FileRun smallFs noFaults
      (fun s c => c.Fits s ∧ c.Loads smallFs noFaults s) twoBytes tr s ∧
    tr.map Prod.snd = [(3, []), (4, []), (2, []), (1, str "X"), (-1, []), (0, []), (3, []),
      (2, str "ab"), (1, str "Y")] ∧
    FilesSound smallFs noFaults [⟨0x100000, 0x1FFF4, false⟩] s := by
  have hres : (FileCall.execs smallFs noFaults
      [.open 1 (str "B") oWronly, .open 2 (str "A") oRdonly, .write 1 3 (str "ab"), .read 2 4 1,
        .write 2 3 (str "x"), .close 1 3, .open 2 (str "B") oRdonly, .read 2 3 9, .read 2 4 9]
      twoBytes).map Prod.fst = some [(3, []), (4, []), (2, []), (1, str "X"), (-1, []), (0, []), (3, []),
        (2, str "ab"), (1, str "Y")] := by decide +kernel
  obtain ⟨⟨rs, s⟩, hexecs, rfl⟩ := Option.map_eq_some_iff.1 hres
  obtain ⟨tr, htr, hrun⟩ := FileRun.of_execs hexecs
  exact ⟨tr, s, hrun, htr, fileRun_isolated (by decide) (fun _ _ => rfl) filesHeap_blocks hrun⟩

/-- A file of 4 GiB less one byte: `kmalloc` rounds its size up to 0, and the first cluster is
    copied over the header of the next block. -/
theorem fileOpen_overruns :
    (FileCall.open 1 (str "A") oRdonly).Fits (smallFiles [0xFFF8, 0xFFFF, 0xFFFF]
      [{ Dirent.zero with name := name83 (str "A") [], clusterLo := 2, size := 0xFFFFFFFF }] []) ∧
    ((FileCall.open 1 (str "A") oRdonly).exec smallFs noFaults
      (smallFiles [0xFFF8, 0xFFFF, 0xFFFF]
        [{ Dirent.zero with name := name83 (str "A") [], clusterLo := 2, size := 0xFFFFFFFF }]
        [])).map (fun r => r.1) = .error .undefined ∧
    (filesHeap.kmalloc 0xFFFFFFFF).map (fun r => (r.1, r.2.payload r.1))
      = .ok (0x10000C, 0) := by decide +kernel

end OctoOS
