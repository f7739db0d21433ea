import OctoOS.Fat.Look
import OctoOS.Heap.Runs
import Mathlib.Tactic.Ring

set_option autoImplicit false

/-! # The volume behind the sectors

`Vol` is what a mounted volume means: the FAT as a function on cluster numbers (its first copy)
and the bytes of each area, where area 0 is the root directory and area `c ≥ 2` is cluster `c`.
`FatState.vol` reads it off the disk. For a sane geometry every primitive of the driver computes a
simple update of the `Vol`, whatever `sector_buf` holds; this file proves those, and nothing
behind it mentions sector addresses again. -/

namespace OctoOS

open Atomic Tiling

variable {α β : Type} {p : Sector} {i : ℕ}

/-! ## Geometry -/

/-- The FAT copies, the root area and the data area lie in this order and disjoint inside a
    partition of `partSectors` sectors that does not wrap, and every cluster number has its FAT
    entry inside a copy and below the reserved values. `fat_mount` takes the cluster size from a
    byte. -/
structure Fs.Sane (fs : Fs) (partSectors : ℕ) : Prop where
  mounted : fs.mounted = true
  partLe : fs.partLba ≤ fs.fatLba
  fatsLe : fs.fatLba + fs.numFats * fs.fatSectors ≤ fs.rootLba
  rootLe : fs.rootLba + fs.rootSectors ≤ fs.dataLba
  dataLe : fs.dataLba + (fs.maxCluster - 1) * fs.sectorsPerCluster ≤ fs.partLba + partSectors
  noWrap : fs.partLba + partSectors ≤ 2 ^ 32
  numFats : 1 ≤ fs.numFats
  spcPos : 1 ≤ fs.sectorsPerCluster
  spcLe : fs.sectorsPerCluster ≤ 255
  maxFat : fs.maxCluster < 256 * fs.fatSectors
  maxReserved : fs.maxCluster < 0xFFF7

/-- The clusters of the data area. -/
def Fs.IsCluster (fs : Fs) (c : UInt16) : Prop := 2 ≤ c.toNat ∧ c.toNat ≤ fs.maxCluster
  deriving Decidable

/-- The areas: the root directory and the clusters of the data area. -/
def Fs.IsArea (fs : Fs) (c : UInt16) : Prop := c = 0 ∨ (2 ≤ c.toNat ∧ c.toNat ≤ fs.maxCluster)
  deriving Decidable

/-- The first sector of an area. -/
def Fs.areaLba (fs : Fs) (c : UInt16) : ℕ :=
  if c = 0 then fs.rootLba else fs.dataLba + (c.toNat - 2) * fs.sectorsPerCluster

/-- The bytes of a cluster. -/
def Fs.clusterBytes (fs : Fs) : ℕ := fs.sectorsPerCluster * sectorSize

section Geometry

variable {fs : Fs} {ps : ℕ} {c : UInt16} {k : ℕ}

theorem mul_add_inj {a b n l : ℕ} (h : a * n + k = b * n + l) (hk : k < n) (hl : l < n) :
    a = b ∧ k = l := by
  have h1 : (k + a * n) / n = (l + b * n) / n := by rw [add_comm k, add_comm l, h]
  have hn : 0 < n := by omega
  rw [Nat.add_mul_div_right _ _ hn, Nat.add_mul_div_right _ _ hn, Nat.div_eq_of_lt hk,
    Nat.div_eq_of_lt hl] at h1
  have hab : a = b := by omega
  subst hab
  exact ⟨rfl, by omega⟩

theorem Fs.IsCluster.ne_zero (h : fs.IsCluster c) : c ≠ 0 := by
  rintro rfl
  exact absurd h.1 (by decide)

theorem Fs.IsCluster.isArea (h : fs.IsCluster c) : fs.IsArea c := Or.inr h

theorem Fs.IsCluster.areaSectors (h : fs.IsCluster c) : fs.areaSectors c = fs.sectorsPerCluster :=
  if_neg h.ne_zero

theorem Fs.IsCluster.areaLba (h : fs.IsCluster c) :
    fs.areaLba c = fs.dataLba + (c.toNat - 2) * fs.sectorsPerCluster := if_neg h.ne_zero

theorem Fs.areaSectors_pos_of_ne (hs : fs.Sane ps) (hc : c ≠ 0) : 0 < fs.areaSectors c := by
  rw [Fs.areaSectors, if_neg hc]
  exact hs.spcPos

/-- The sectors of an area lie behind the FAT copies and inside the partition. -/
theorem Fs.area_bounds (hs : fs.Sane ps) (hc : fs.IsArea c) (hk : k < fs.areaSectors c) :
    fs.rootLba ≤ fs.areaLba c + k ∧ fs.areaLba c + k < fs.partLba + ps := by
  have h1 := hs.rootLe
  have h2 := hs.dataLe
  rcases hc with rfl | hc
  · simp only [Fs.areaSectors, Fs.areaLba, if_true] at hk ⊢
    omega
  · rw [Fs.IsCluster.areaSectors hc] at hk
    rw [Fs.IsCluster.areaLba hc]
    have hmul : (c.toNat - 2 + 1) * fs.sectorsPerCluster
        ≤ (fs.maxCluster - 1) * fs.sectorsPerCluster :=
      Nat.mul_le_mul_right _ (by omega)
    rw [Nat.add_mul, Nat.one_mul] at hmul
    omega

/-- Sectors of different areas differ. -/
theorem Fs.area_inj (hs : fs.Sane ps) {c' : UInt16} (hc : fs.IsArea c) (hc' : fs.IsArea c') {k' : ℕ}
    (hk : k < fs.areaSectors c) (hk' : k' < fs.areaSectors c')
    (h : fs.areaLba c + k = fs.areaLba c' + k') : c = c' ∧ k = k' := by
  have h1 := hs.rootLe
  have hroot : fs.areaLba 0 = fs.rootLba ∧ fs.areaSectors 0 = fs.rootSectors := ⟨if_pos rfl, if_pos rfl⟩
  rcases hc with rfl | hc <;> rcases hc' with rfl | hc'
  · exact ⟨rfl, by omega⟩
  · rw [hroot.1, Fs.IsCluster.areaLba hc'] at h
    omega
  · rw [hroot.1, Fs.IsCluster.areaLba hc] at h
    omega
  · rw [Fs.IsCluster.areaLba hc, Fs.IsCluster.areaLba hc'] at h
    rw [Fs.IsCluster.areaSectors hc] at hk
    rw [Fs.IsCluster.areaSectors hc'] at hk'
    obtain ⟨heq, hkk⟩ := mul_add_inj (a := c.toNat - 2) (b := c'.toNat - 2) (by omega) hk hk'
    exact ⟨UInt16.toNat_inj.1 (by omega), hkk⟩

/-- On a cluster of the data area, `cluster_lba` does not wrap. -/
theorem clusterLba_eq (hs : fs.Sane ps) (hc : fs.IsCluster c) : clusterLba fs c = fs.areaLba c := by
  have hb := Fs.area_bounds hs hc.isArea (Fs.areaSectors_pos_of_ne hs hc.ne_zero)
  have hnw := hs.noWrap
  have hlt := c.toNat_lt
  rw [hc.areaLba] at hb ⊢
  rw [clusterLba, sub32_eq hc.1 (by omega)]
  exact w32_eq (by omega)

theorem Fs.Sane.clusterBytes_eq (hs : fs.Sane ps) :
    w32 (fs.sectorsPerCluster * sectorSize) = fs.clusterBytes := by
  have := hs.spcLe
  unfold Fs.clusterBytes sectorSize
  exact w32_eq (by omega)

theorem Fs.Sane.clusterBytes_pos (hs : fs.Sane ps) : 0 < fs.clusterBytes :=
  Nat.mul_pos hs.spcPos (by decide)

end Geometry

/-! ## Volumes -/

/-- The contents of a mounted volume, with the working directory and the block list of the kernel
    heap. -/
structure Vol where
  fat : UInt16 → UInt16
  area : UInt16 → Sector
  cwd : UInt16
  cwdPath : Bytes
  heap : Option (List Blk)

/-- The entry of cluster `c` in the first FAT copy. -/
def Fs.fatOf (fs : Fs) (disk : Disk) (c : UInt16) : UInt16 :=
  if c.toNat ≤ fs.maxCluster then
    rd16 (disk (fs.fatLba + c.toNat * 2 / sectorSize)) (c.toNat * 2 % sectorSize)
  else 0

/-- Byte `k` of area `c`. -/
def Fs.areaOf (fs : Fs) (disk : Disk) (c : UInt16) (k : ℕ) : UInt8 :=
  if fs.IsArea c ∧ k < fs.areaSectors c * sectorSize then
    disk (fs.areaLba c + k / sectorSize) (k % sectorSize)
  else 0

/-- The volume a state holds. -/
noncomputable def FatState.vol (fs : Fs) (st : FatState) : Vol where
  fat := fs.fatOf st.disk
  area := fs.areaOf st.disk
  cwd := st.cwdCluster
  cwdPath := st.cwdPath
  heap := st.heap.blocks

/-- The place of a directory entry: entry `idx` of an area. -/
structure Slot where
  area : UInt16
  idx : ℕ
  deriving DecidableEq

/-- The entries of an area. -/
def Fs.slotCount (fs : Fs) (c : UInt16) : ℕ := fs.areaSectors c * 16

def Fs.IsSlot (fs : Fs) (s : Slot) : Prop := fs.IsArea s.area ∧ s.idx < fs.slotCount s.area

/-- The disk location of a slot. -/
def Slot.loc (fs : Fs) (s : Slot) : Loc := ⟨fs.areaLba s.area + s.idx / 16, s.idx % 16 * 32⟩

namespace Vol

def entry (v : Vol) (s : Slot) : Dirent := readDirent (v.area s.area) (s.idx * 32)

def setFat (v : Vol) (c value : UInt16) : Vol := { v with fat := Function.update v.fat c value }

def setArea (v : Vol) (c : UInt16) (content : Sector) : Vol :=
  { v with area := Function.update v.area c content }

def setEntry (v : Vol) (s : Slot) (d : Dirent) : Vol :=
  v.setArea s.area (storeBytes (v.area s.area) (s.idx * 32) d.bytes)

end Vol

/-! ## Entries and bytes -/

theorem storeBytes_of_lt (s : Sector) (o : ℕ) (data : Bytes) (h : i < o) :
    storeBytes s o data i = s i := if_neg (by omega)

theorem storeBytes_of_ge (s : Sector) (o : ℕ) (data : Bytes) (h : o + data.length ≤ i) :
    storeBytes s o data i = s i := if_neg (by omega)

theorem storeBytes_congr {s t : Sector} {o : ℕ} {data : Bytes} (h : s i = t i) :
    storeBytes s o data i = storeBytes t o data i := by
  rw [storeBytes, storeBytes, h]

theorem storeBytes_add (s : Sector) (o : ℕ) (data : Bytes) {k : ℕ} (h : k < data.length) :
    storeBytes s o data (o + k) = data.getD k 0 := by
  rw [storeBytes, if_pos (by omega), Nat.add_sub_cancel_left]

@[simp] theorem Dirent.bytes_length (d : Dirent) : d.bytes.length = 32 := by simp [Dirent.bytes]

theorem Dirent.bytes_getD (d : Dirent) {k : ℕ} (h : k < 32) : d.bytes.getD k 0 = d.byte k := by
  simp [Dirent.bytes, List.getD_eq_getElem?_getD, h]

theorem leByte_toNat (v k : ℕ) : (leByte v k).toNat = v / 256 ^ k % 256 := by
  simp [leByte]

theorem rd16_of_leByte (v : UInt16) (h0 : p i = leByte v.toNat 0)
    (h1 : p (i + 1) = leByte v.toNat 1) : rd16 p i = v := by
  have hlt := v.toNat_lt
  apply UInt16.toNat_inj.1
  rw [rd16, h0, h1, leByte_toNat, leByte_toNat, UInt16.toNat_ofNat']
  omega

theorem rd32_of_leByte (v : UInt32) (h0 : p i = leByte v.toNat 0)
    (h1 : p (i + 1) = leByte v.toNat 1) (h2 : p (i + 2) = leByte v.toNat 2)
    (h3 : p (i + 3) = leByte v.toNat 3) : rd32 p i = v := by
  have hlt := v.toNat_lt
  apply UInt32.toNat_inj.1
  rw [rd32, h0, h1, h2, h3, leByte_toNat, leByte_toNat, leByte_toNat, leByte_toNat,
    UInt32.toNat_ofNat']
  omega

/-- Reading an entry depends on its 32 bytes only. -/
theorem readDirent_congr {q : Sector} {o o' : ℕ} (h : ∀ k < 32, p (o + k) = q (o' + k)) :
    readDirent p o = readDirent q o' := by
  have h16 : ∀ k, k + 1 < 32 → rd16 p (o + k) = rd16 q (o' + k) := by
    intro k hk
    rw [rd16, rd16, add_assoc, add_assoc, h k (by omega), h (k + 1) hk]
  have h32 : rd32 p (o + 28) = rd32 q (o' + 28) := by
    simp only [rd32, add_assoc, Nat.reduceAdd]
    rw [h 28 (by decide), h 29 (by decide), h 30 (by decide), h 31 (by decide)]
  rw [readDirent, readDirent, h16 20 (by decide), h16 22 (by decide), h16 24 (by decide),
    h16 26 (by decide), h32, h 11 (by decide)]
  congr 2
  · funext i
    exact h i (by omega)
  · funext i
    rw [add_assoc, add_assoc]
    exact h (12 + i) (by omega)

/-- An entry that was stored is read back. -/
theorem readDirent_storeBytes (p : Sector) (o : ℕ) (d : Dirent) :
    readDirent (storeBytes p o d.bytes) o = d := by
  have hb : ∀ k < 32, storeBytes p o d.bytes (o + k) = d.byte k := fun k hk => by
    rw [storeBytes_add _ _ _ (by simpa using hk), Dirent.bytes_getD _ hk]
  have h16 : ∀ (k : ℕ) (v : UInt16), k + 1 < 32 → d.byte k = leByte v.toNat 0 →
      d.byte (k + 1) = leByte v.toNat 1 → rd16 (storeBytes p o d.bytes) (o + k) = v := by
    intro k v hk h0 h1
    exact rd16_of_leByte v (by rw [hb k (by omega), h0]) (by rw [add_assoc, hb _ hk, h1])
  cases d with
  | mk name attr reserved hi mt md lo size =>
    rw [readDirent]
    congr 1
    · ext i hi
      rw [Vector.getElem_ofFn, hb i (by omega)]
      simp [Dirent.byte, hi]
    · rw [hb 11 (by decide)]; rfl
    · ext i hi
      rw [Vector.getElem_ofFn, add_assoc, hb (12 + i) (by omega), Dirent.byte,
        dif_neg (by omega), if_neg (by omega), dif_pos (by omega)]
      simp
    · exact h16 20 _ (by decide) rfl rfl
    · exact h16 22 _ (by decide) rfl rfl
    · exact h16 24 _ (by decide) rfl rfl
    · exact h16 26 _ (by decide) rfl rfl
    · refine rd32_of_leByte _ ?_ ?_ ?_ ?_
      · rw [hb 28 (by decide)]; rfl
      · rw [add_assoc, hb 29 (by decide)]; rfl
      · rw [add_assoc, hb 30 (by decide)]; rfl
      · rw [add_assoc, hb 31 (by decide)]; rfl

namespace Vol

@[simp] theorem setFat_fat (v : Vol) (c x : UInt16) :
    (v.setFat c x).fat = Function.update v.fat c x := rfl
@[simp] theorem setFat_area (v : Vol) (c x : UInt16) : (v.setFat c x).area = v.area := rfl
@[simp] theorem setFat_entry (v : Vol) (c x : UInt16) : (v.setFat c x).entry = v.entry := rfl
@[simp] theorem setArea_fat (v : Vol) (c : UInt16) (b : Sector) : (v.setArea c b).fat = v.fat := rfl
@[simp] theorem setEntry_fat (v : Vol) (s : Slot) (d : Dirent) : (v.setEntry s d).fat = v.fat := rfl

variable {s : Slot} {c : UInt16}

theorem setArea_area_of_ne (v : Vol) {c' : UInt16} (b : Sector) (h : c' ≠ c) :
    (v.setArea c b).area c' = v.area c' := Function.update_of_ne h _ _

@[simp] theorem setArea_area_self (v : Vol) (c : UInt16) (b : Sector) :
    (v.setArea c b).area c = b := Function.update_self ..

theorem setArea_entry_of_ne (v : Vol) (b : Sector) (h : s.area ≠ c) :
    (v.setArea c b).entry s = v.entry s := by
  rw [entry, setArea_area_of_ne v b h, entry]

@[simp] theorem setEntry_entry_self (v : Vol) (s : Slot) (d : Dirent) :
    (v.setEntry s d).entry s = d := by
  rw [entry, setEntry, setArea_area_self, readDirent_storeBytes]

theorem setEntry_entry_of_ne (v : Vol) {t : Slot} (d : Dirent) (h : t ≠ s) :
    (v.setEntry s d).entry t = v.entry t := by
  by_cases ha : t.area = s.area
  · have hidx : t.idx ≠ s.idx := fun hi => h (by cases t; cases s; simp_all)
    rw [entry, setEntry, ha, setArea_area_self, entry, ha]
    refine readDirent_congr (fun k hk => ?_)
    rcases lt_or_gt_of_ne hidx with hlt | hgt
    · exact storeBytes_of_lt _ _ _ (by omega)
    · exact storeBytes_of_ge _ _ _ (by rw [Dirent.bytes_length]; omega)
  · exact setArea_entry_of_ne v _ ha

/-- A cluster other than the slot's own keeps its bytes. -/
theorem setEntry_area_of_ne (v : Vol) (d : Dirent) (h : c ≠ s.area) :
    (v.setEntry s d).area c = v.area c := setArea_area_of_ne v _ h

end Vol

/-! ## The primitives on volumes -/

/-- Without device errors, `p` takes every state that holds the volume `v` to the result `a` and
    a state that holds `v'`. -/
def Fs.Yields (fs : Fs) (p : Fat α) (v : Vol) (a : α) (v' : Vol) : Prop :=
  p.Computes (fatHandler noFaults) (FatState.vol fs) v a v'

section Primitives

variable {fs : Fs} {ps : ℕ} {v v1 v2 : Vol} {b : Blk} {l : List Blk} {s : Slot} {c : UInt16}
  {f i : ℕ}

theorem Fs.Yields.pure (a : α) : fs.Yields (pure a) v a v := Prog.Computes.pure a

theorem Fs.Yields.bind {p : Fat α} {f : α → Fat β} {a : α} {b : β} (hp : fs.Yields p v a v1)
    (hf : fs.Yields (f a) v1 b v2) : fs.Yields (p >>= f) v b v2 := Prog.Computes.bind hp hf

/-- A statement that is executed under a condition. -/
theorem Fs.Yields.when {c : Prop} [Decidable c] {p : Fat Unit} {q : Fat β} {b : β} (v1 : Vol)
    (hp : c → fs.Yields p v () v1) (hn : ¬ c → v1 = v) (hq : fs.Yields q v1 b v2) :
    fs.Yields (if c then p >>= fun _ => q else q) v b v2 := by
  split_ifs with hc
  · exact (hp hc).bind hq
  · rwa [hn hc] at hq

theorem print_yields (text : Bytes) : fs.Yields (print text) v () v :=
  Prog.Computes.perform (fun _ hst => ⟨_, rfl, hst⟩)

theorem getCwdCluster_yields : fs.Yields getCwdCluster v v.cwd v := by
  refine Prog.Computes.perform (fun st hst => ⟨st, ?_, hst⟩)
  rw [← hst]
  rfl

theorem setCwdCluster_yields (c : UInt16) : fs.Yields (setCwdCluster c) v () { v with cwd := c } :=
  Prog.Computes.perform (fun st hst => ⟨{ st with cwdCluster := c }, rfl, by rw [← hst]; rfl⟩)

theorem getCwdPath_yields : fs.Yields getCwdPath v v.cwdPath v := by
  refine Prog.Computes.perform (fun st hst => ⟨st, ?_, hst⟩)
  rw [← hst]
  rfl

theorem setCwdPath_yields (path : Bytes) :
    fs.Yields (setCwdPath path) v () { v with cwdPath := path } :=
  Prog.Computes.perform (fun st hst => ⟨{ st with cwdPath := path }, rfl, by rw [← hst]; rfl⟩)

/-! ### Heap calls -/

theorem kmalloc_yields (hl : v.heap = some l) (size : ℕ) :
    fs.Yields (kmalloc size) v (kmallocBlocks size l).1
      { v with heap := some (kmallocBlocks size l).2 } := by
  refine Prog.Computes.perform (fun st hst => ?_)
  subst hst
  obtain ⟨h', hres, hb⟩ := Heap.kmalloc_blocks hl size
  refine ⟨{ st with heap := h' }, ?_, ?_⟩
  · simp only [fatHandler, hres]
  · simp only [FatState.vol, hb]

theorem kfree_yields (hl : v.heap = some l) (hu : b ∈ usedOf l) :
    fs.Yields (kfree (b.addr + blockHeader)) v ()
      { v with heap := some (coalesce blockHeader (release b.addr l)) } := by
  refine Prog.Computes.perform (fun st hst => ?_)
  subst hst
  obtain ⟨h', hres, hb⟩ := Heap.kfree_blocks hl hu
  refine ⟨{ st with heap := h' }, ?_, ?_⟩
  · simp only [fatHandler, hres]
  · simp only [FatState.vol, hb]

theorem Heap.payload_eq {h : Heap} (hl : h.blocks = some l) (hb : b ∈ l) :
    h.payload (b.addr + blockHeader) = b.size := by
  have hI := Heap.inv_of_blocks hl (List.ne_nil_of_mem hb)
  have hbd := (hI.tiles.mem_bounds hb).2
  have hnw := hI.noWrap
  unfold Blk.fin at hbd
  rw [Heap.payload, sub32_eq (by omega) (by omega), Nat.add_sub_cancel, hI.chained.mem_size hb]

theorem heapStore_yields (hl : v.heap = some l) (hu : b ∈ usedOf l) {off len : ℕ}
    (hfit : off + len ≤ b.size) : fs.Yields (heapStore (b.addr + blockHeader) off len) v () v := by
  refine Prog.Computes.perform (fun st hst => ⟨st, ?_, hst⟩)
  subst hst
  have hp := Heap.payload_eq (h := st.heap) hl (List.mem_filter.1 hu).1
  simp only [fatHandler, hp, if_neg (not_lt.2 hfit)]

/-! ### Sectors -/

theorem transfer_transfer (s b : Sector) : transfer s (transfer b s) = s := by
  funext i
  unfold transfer
  split_ifs <;> rfl

theorem transfer_storeBytes (s t : Sector) {o : ℕ} {data : Bytes} (h : o + data.length ≤ sectorSize) :
    transfer s (storeBytes t o data) = storeBytes (transfer s t) o data := by
  funext i
  simp only [transfer, storeBytes]
  split_ifs <;> first | rfl | omega

/-- The FAT behind disks that agree in front of the root area. -/
theorem Fs.fatOf_congr (hs : fs.Sane ps) {d d' : Disk} (h : ∀ lba < fs.rootLba, d' lba = d lba) :
    fs.fatOf d' = fs.fatOf d := by
  funext c
  unfold Fs.fatOf
  split_ifs with hc
  · have h1 := hs.fatsLe
    have h2 := hs.maxFat
    have h3 : fs.fatSectors ≤ fs.numFats * fs.fatSectors := Nat.le_mul_of_pos_left _ hs.numFats
    rw [h _ (by unfold sectorSize; omega)]
  · rfl

/-- The areas behind disks that agree from the root area on. -/
theorem Fs.areaOf_congr (hs : fs.Sane ps) {d d' : Disk} (h : ∀ lba, fs.rootLba ≤ lba → d' lba = d lba) :
    fs.areaOf d' = fs.areaOf d := by
  funext c k
  unfold Fs.areaOf
  split_ifs with hc
  · rw [h _ (Fs.area_bounds hs hc.1 ((Nat.div_lt_iff_lt_mul (by decide)).2 hc.2)).1]
  · rfl

/-- A change of the sectors of one area. -/
theorem FatState.vol_setArea (hs : fs.Sane ps) (hc : fs.IsArea c) (st : FatState) (d' : Disk)
    (hd : ∀ lba, (∀ k < fs.areaSectors c, lba ≠ fs.areaLba c + k) → d' lba = st.disk lba)
    (b : Sector) (n : ℕ) :
    ({ st with disk := d', sectorBuf := b, ataCount := n } : FatState).vol fs
      = (st.vol fs).setArea c (fs.areaOf d' c) := by
  have hfat : fs.fatOf d' = fs.fatOf st.disk := Fs.fatOf_congr hs (fun lba hlba => hd lba (by
    intro k hk heq
    have := (Fs.area_bounds hs hc hk).1
    omega))
  have harea : fs.areaOf d' = Function.update (fs.areaOf st.disk) c (fs.areaOf d' c) := by
    funext c'
    by_cases hcc : c' = c
    · rw [hcc, Function.update_self]
    · rw [Function.update_of_ne hcc]
      funext k
      unfold Fs.areaOf
      split_ifs with hk
      · have hk' : k / sectorSize < fs.areaSectors c' :=
          (Nat.div_lt_iff_lt_mul (by decide)).2 hk.2
        rw [hd]
        intro j hj heq
        exact hcc (Fs.area_inj hs hk.1 hc hk' hj heq).1
      · rfl
  simp only [FatState.vol, Vol.setArea, hfat, ← harea]

/-! ### FAT entries -/

/-- A FAT sector with the entry of `c` set to `x`. -/
def fatEdit (c x : UInt16) (s : Sector) : Sector :=
  storeBytes (storeBytes s (c.toNat * 2 % sectorSize) [leByte x.toNat 0])
    (c.toNat * 2 % sectorSize + 1) [leByte x.toNat 1]

/-- The sector of the entry of `c` in FAT copy `f`. -/
def Fs.copyLba (fs : Fs) (c : UInt16) (f : ℕ) : ℕ :=
  fs.fatLba + f * fs.fatSectors + c.toNat * 2 / sectorSize

theorem Fs.copyLba_lt (hs : fs.Sane ps) (hc : c.toNat ≤ fs.maxCluster) (hf : f < fs.numFats) :
    fs.copyLba c f < fs.rootLba := by
  have h1 := hs.fatsLe
  have h2 := hs.maxFat
  have h3 : (f + 1) * fs.fatSectors ≤ fs.numFats * fs.fatSectors := Nat.mul_le_mul_right _ hf
  rw [Nat.add_mul, Nat.one_mul] at h3
  unfold Fs.copyLba sectorSize
  omega

theorem Fs.copyLba_inj (hs : fs.Sane ps) {c' : UInt16} (hc : c.toNat ≤ fs.maxCluster)
    (hc' : c'.toNat ≤ fs.maxCluster) {f' : ℕ} (h : fs.copyLba c f = fs.copyLba c' f') :
    f = f' ∧ c.toNat * 2 / sectorSize = c'.toNat * 2 / sectorSize := by
  have h2 := hs.maxFat
  unfold Fs.copyLba sectorSize at *
  exact mul_add_inj (a := f) (b := f') (n := fs.fatSectors) (by omega) (by omega) (by omega)

theorem Fs.copyLba_w32 (hs : fs.Sane ps) (hc : c.toNat ≤ fs.maxCluster) (hf : f < fs.numFats) :
    w32 (fs.copyLba c f) = fs.copyLba c f := by
  have h1 := Fs.copyLba_lt hs hc hf
  have h2 := hs.rootLe
  have h3 := hs.dataLe
  have h4 := hs.noWrap
  exact w32_eq (by omega)

theorem rd16_transfer (b s : Sector) (h : i + 1 < sectorSize) :
    rd16 (transfer b s) i = rd16 s i := by
  rw [rd16, rd16, transfer, transfer, if_pos (by omega), if_pos h]

/-- The bytes of the sector that are not the entry of `c`. -/
theorem fatEdit_of_ne (c x : UInt16) (s : Sector) (h0 : i ≠ c.toNat * 2 % sectorSize)
    (h1 : i ≠ c.toNat * 2 % sectorSize + 1) : fatEdit c x s i = s i := by
  unfold fatEdit storeBytes
  rw [if_neg (by simp only [List.length_singleton]; omega),
    if_neg (by simp only [List.length_singleton]; omega)]

theorem rd16_fatEdit (c c' x : UInt16) (s : Sector)
    (hsec : c.toNat * 2 / sectorSize = c'.toNat * 2 / sectorSize) :
    rd16 (fatEdit c x s) (c'.toNat * 2 % sectorSize)
      = if c' = c then x else rd16 s (c'.toNat * 2 % sectorSize) := by
  by_cases hcc : c' = c
  · subst hcc
    rw [if_pos rfl]
    refine rd16_of_leByte x ?_ ?_
    · rw [fatEdit, storeBytes_of_lt _ _ _ (by omega)]
      exact storeBytes_add _ _ _ (k := 0) (by simp)
    · exact storeBytes_add _ _ _ (k := 0) (by simp)
  · rw [if_neg hcc]
    have hne : c.toNat ≠ c'.toNat := fun h => hcc (UInt16.toNat_inj.1 h.symm)
    unfold sectorSize at hsec
    rw [rd16, rd16, fatEdit_of_ne _ _ _ (by unfold sectorSize; omega) (by unfold sectorSize; omega),
      fatEdit_of_ne _ _ _ (by unfold sectorSize; omega) (by unfold sectorSize; omega)]

theorem linkOn_eq_fatOf (hs : fs.Sane ps) (hc : c.toNat ≤ fs.maxCluster) (disk : Disk) :
    linkOn fs disk c = fs.fatOf disk c := by
  have hlba := Fs.copyLba_w32 hs hc hs.numFats
  rw [Fs.copyLba, Nat.zero_mul, Nat.add_zero] at hlba
  rw [linkOn, hlba, Fs.fatOf, if_pos hc]

/-- A program that only looks computes what it answers. -/
theorem Fs.Yields.of_looks {p : Fat α} (hp : p.Only FatOp.Looks) {a : α}
    (h : ∀ st, st.vol fs = v → p.Ends (fatHandler noFaults) st (fun r _ => r = a)) :
    fs.Yields p v a v := by
  intro st hst
  obtain ⟨r, st', hrun, rfl⟩ := h st hst
  obtain ⟨n, buf, rfl⟩ := looked_of_run (hp.mono fun _ => FatOp.Looks.reads) hrun
  exact ⟨_, hrun, hst⟩

theorem fatGet_yields (hs : fs.Sane ps) (hc : c.toNat ≤ fs.maxCluster) :
    fs.Yields (fatGet fs c) v (v.fat c) v := by
  refine Fs.Yields.of_looks (fatGet_looks c) (fun st hst => (fatGet_readsFat c st).mono ?_)
  rintro r st' ⟨-, -, hr⟩
  rw [hr (fun _ _ => rfl), linkOn_eq_fatOf hs hc, ← hst]
  rfl

theorem transfer_fatEdit (c x : UInt16) (s b : Sector) :
    transfer s (fatEdit c x (transfer b s)) = fatEdit c x s := by
  unfold fatEdit
  rw [transfer_storeBytes, transfer_storeBytes, transfer_transfer]
  all_goals simp only [List.length_singleton, sectorSize]; omega

/-- One round of the loop of `fat_set`: read, two stores, write. -/
theorem fatSetLoop_succ_run (fs : Fs) (c x : UInt16) (n f : ℕ) (st : FatState) :
    (fatSetLoop fs c x (n + 1) f).run (fatHandler noFaults) st
      = (fatSetLoop fs c x n (f + 1)).run (fatHandler noFaults) { st with
          ataCount := st.ataCount + 1 + 1
          sectorBuf := fatEdit c x (transfer st.sectorBuf (st.disk (w32 (fs.copyLba c f))))
          disk := Function.update st.disk (w32 (fs.copyLba c f))
            (fatEdit c x (st.disk (w32 (fs.copyLba c f)))) } := by
  rw [← transfer_fatEdit c x (st.disk (w32 (fs.copyLba c f))) st.sectorBuf]
  rfl

section

variable {c : UInt16} (hs : fs.Sane ps) (hc : c.toNat ≤ fs.maxCluster)

include hs hc

/-- The loop of `fat_set` edits the sector in each FAT copy it visits, and no other. -/
theorem fatSetLoop_run (x : UInt16) (n f : ℕ) (hnf : f + n ≤ fs.numFats) (st : FatState) :
    ∃ d' b k, (fatSetLoop fs c x n f).run (fatHandler noFaults) st
        = .ok (true, { st with disk := d', sectorBuf := b, ataCount := k }) ∧
      (∀ j, f ≤ j → j < f + n → d' (fs.copyLba c j) = fatEdit c x (st.disk (fs.copyLba c j))) ∧
      (∀ lba, (∀ j, f ≤ j → j < f + n → lba ≠ fs.copyLba c j) → d' lba = st.disk lba) := by
  induction n generalizing f st with
  | zero => exact ⟨st.disk, st.sectorBuf, st.ataCount, rfl, fun j _ _ => by omega, fun _ _ => rfl⟩
  | succ n ih =>
    have hf : f < fs.numFats := by omega
    obtain ⟨d', b, k, hrun, hin, hout⟩ := ih (f + 1) (by omega) { st with
      ataCount := st.ataCount + 1 + 1
      sectorBuf := fatEdit c x (transfer st.sectorBuf (st.disk (fs.copyLba c f)))
      disk := Function.update st.disk (fs.copyLba c f) (fatEdit c x (st.disk (fs.copyLba c f))) }
    refine ⟨d', b, k, ?_, fun j hj hjn => ?_, fun lba hl => ?_⟩
    · rw [fatSetLoop_succ_run, Fs.copyLba_w32 hs hc hf]
      exact hrun
    · rcases Nat.eq_or_lt_of_le hj with rfl | hlt
      · rw [hout _ (fun j hj' _ heq => by have := (Fs.copyLba_inj hs hc hc heq).1; omega)]
        exact Function.update_self ..
      · rw [hin j hlt (by omega)]
        congr 1
        exact Function.update_of_ne (fun heq => by
          have := (Fs.copyLba_inj hs hc hc heq).1
          omega) _ _
    · rw [hout lba (fun j hj hjn => hl j (by omega) (by omega))]
      exact Function.update_of_ne (hl f (le_refl _) (by omega)) _ _

/-- `fat_set` without device errors: its sector of every copy is edited. -/
theorem fatSet_disk {x : UInt16} {st st' : FatState} {b : Bool}
    (hrun : (fatSet fs c x).run (fatHandler noFaults) st = .ok (b, st')) :
    (∀ j < fs.numFats, st'.disk (fs.copyLba c j) = fatEdit c x (st.disk (fs.copyLba c j))) ∧
    ∀ lba, (∀ j < fs.numFats, lba ≠ fs.copyLba c j) → st'.disk lba = st.disk lba := by
  obtain ⟨d', buf, k, hrun', hin, hout⟩ :=
    fatSetLoop_run hs hc x fs.numFats 0 (le_of_eq (Nat.zero_add _)) st
  rw [Nat.zero_add] at hin hout
  obtain ⟨-, rfl⟩ := Prod.mk.inj (Except.ok.inj (hrun.symm.trans hrun'))
  exact ⟨fun j hj => hin j (Nat.zero_le j) hj, fun lba hne => hout lba (fun j _ hj => hne j hj)⟩

/-- The view holds the first copy: it sees the new entry once that copy is written. -/
theorem fatSetLoop_yields (x : UInt16) {n : ℕ} (hpos : 0 < n) (hn : n ≤ fs.numFats) :
    fs.Yields (fatSetLoop fs c x n 0) v true (v.setFat c x) := by
  intro st hst
  subst hst
  obtain ⟨d', b, k, hrun, hin, hout⟩ := fatSetLoop_run hs hc x n 0 (by omega) st
  rw [Nat.zero_add] at hin hout
  refine ⟨_, hrun, ?_⟩
  have harea : fs.areaOf d' = fs.areaOf st.disk := Fs.areaOf_congr hs (fun lba hlba =>
    hout lba (fun j _ hj heq => by have := Fs.copyLba_lt hs hc (lt_of_lt_of_le hj hn); omega))
  have hfat : fs.fatOf d' = Function.update (fs.fatOf st.disk) c x := by
    funext c'
    by_cases hm : c'.toNat ≤ fs.maxCluster
    · have hcopy : fs.fatLba + c'.toNat * 2 / sectorSize = fs.copyLba c' 0 := by
        rw [Fs.copyLba, Nat.zero_mul, Nat.add_zero]
      rw [Fs.fatOf, if_pos hm, hcopy]
      by_cases hsec : c.toNat * 2 / sectorSize = c'.toNat * 2 / sectorSize
      · have hsame : fs.copyLba c' 0 = fs.copyLba c 0 := by rw [Fs.copyLba, Fs.copyLba, hsec]
        rw [hsame, hin 0 (le_refl _) hpos, rd16_fatEdit c c' x _ hsec, Function.update_apply,
          Fs.fatOf, if_pos hm, hcopy, hsame]
      · rw [hout _ (fun j _ _ heq => hsec (Fs.copyLba_inj hs hm hc heq).2.symm),
          Function.update_of_ne (fun h => hsec (by rw [h])), Fs.fatOf, if_pos hm, hcopy]
    · rw [Function.update_of_ne (fun h => hm (by rw [h]; exact hc)), Fs.fatOf, Fs.fatOf, if_neg hm,
        if_neg hm]
  simp only [FatState.vol, Vol.setFat, harea, hfat]

theorem fatSet_yields (x : UInt16) : fs.Yields (fatSet fs c x) v true (v.setFat c x) :=
  fatSetLoop_yields hs hc x hs.numFats (le_refl _)

end

/-! ### Directory entries -/

/-- Storing an entry in its sector stores it in its area. -/
theorem Fs.areaOf_setEntry (hsl : fs.IsSlot s) (disk : Disk) (d : Dirent) :
    fs.areaOf (Function.update disk (s.loc fs).lba
        (storeBytes (disk (s.loc fs).lba) (s.loc fs).off d.bytes)) s.area
      = storeBytes (fs.areaOf disk s.area) (s.idx * 32) d.bytes := by
  have hidx : s.idx < fs.areaSectors s.area * 16 := hsl.2
  have hlen := Dirent.bytes_length d
  funext k
  by_cases hk : k < fs.areaSectors s.area * sectorSize
  · rw [Fs.areaOf, if_pos ⟨hsl.1, hk⟩]
    simp only [Slot.loc]
    unfold sectorSize at *
    by_cases hsec : k / 512 = s.idx / 16
    · rw [hsec, Function.update_self]
      unfold storeBytes
      by_cases hin : s.idx * 32 ≤ k ∧ k < s.idx * 32 + 32
      · rw [if_pos (by omega), if_pos (by omega)]
        congr 1
        omega
      · rw [if_neg (by omega), if_neg (by omega), Fs.areaOf, if_pos ⟨hsl.1, hk⟩]
        unfold sectorSize
        rw [hsec]
    · rw [Function.update_of_ne (by omega), storeBytes, if_neg (by omega), Fs.areaOf,
        if_pos ⟨hsl.1, hk⟩]
      rfl
  · rw [Fs.areaOf, if_neg (fun h => hk h.2), storeBytes_of_ge, Fs.areaOf, if_neg (fun h => hk h.2)]
    unfold sectorSize at hk
    omega

theorem Fs.IsSlot.sector_lt (hsl : fs.IsSlot s) : s.idx / 16 < fs.areaSectors s.area := by
  have : s.idx < fs.areaSectors s.area * 16 := hsl.2
  omega

/-- `loc_update` stores the entry in its sector. -/
theorem locUpdate_run {loc : Loc} (hoff : loc.off + 32 ≤ sectorSize) (d : Dirent) (st : FatState) :
    (locUpdate loc d).run (fatHandler noFaults) st = .ok (true, { st with
      ataCount := st.ataCount + 1 + 1
      sectorBuf := storeBytes (transfer st.sectorBuf (st.disk loc.lba)) loc.off d.bytes
      disk := Function.update st.disk loc.lba (storeBytes (st.disk loc.lba) loc.off d.bytes) }) := by
  have hlen : loc.off + d.bytes.length ≤ sectorSize := by rwa [Dirent.bytes_length]
  rw [← transfer_transfer (st.disk loc.lba) st.sectorBuf, ← transfer_storeBytes _ _ hlen,
    transfer_transfer]
  rfl

theorem Slot.loc_off_le (fs : Fs) (s : Slot) : (s.loc fs).off + 32 ≤ sectorSize := by
  unfold Slot.loc sectorSize
  simp only
  omega

theorem locUpdate_yields (hs : fs.Sane ps) (hsl : fs.IsSlot s) (d : Dirent) :
    fs.Yields (locUpdate (s.loc fs) d) v true (v.setEntry s d) := by
  intro st hst
  subst hst
  refine ⟨_, locUpdate_run (s.loc_off_le fs) d st, ?_⟩
  rw [FatState.vol_setArea hs hsl.1 st _ _ _ _, Fs.areaOf_setEntry hsl]
  · rfl
  · intro lba hlba
    exact Function.update_of_ne (hlba _ hsl.sector_lt) _ _

/-! ### Clusters -/

theorem Fs.clusterLba_add (hs : fs.Sane ps) (hc : fs.IsCluster c) {k : ℕ}
    (hk : k < fs.sectorsPerCluster) : w32 (clusterLba fs c + k) = fs.areaLba c + k := by
  have hb := Fs.area_bounds hs hc.isArea (k := k) (by rwa [hc.areaSectors])
  have := hs.noWrap
  rw [clusterLba_eq hs hc]
  exact w32_eq (by omega)

/-- A change of the sectors of a cluster. -/
theorem FatState.vol_setCluster (hs : fs.Sane ps) (hc : fs.IsCluster c) (st : FatState) {d' : Disk}
    {content : Sector} (hend : ∀ k, fs.clusterBytes ≤ k → content k = 0)
    (hin : ∀ j < fs.sectorsPerCluster, ∀ i < sectorSize,
      d' (fs.areaLba c + j) i = content (j * sectorSize + i))
    (hout : ∀ lba, (∀ j < fs.sectorsPerCluster, lba ≠ fs.areaLba c + j) → d' lba = st.disk lba)
    (b : Sector) (n : ℕ) :
    ({ st with disk := d', sectorBuf := b, ataCount := n } : FatState).vol fs
      = (st.vol fs).setArea c content := by
  have hcontent : fs.areaOf d' c = content := by
    funext k
    unfold Fs.areaOf
    rw [hc.areaSectors]
    split_ifs with hk
    · rw [hin _ ((Nat.div_lt_iff_lt_mul (by decide)).2 hk.2) _ (Nat.mod_lt _ (by decide)),
        Nat.div_add_mod']
    · exact (hend k (not_lt.1 (fun h => hk ⟨hc.isArea, h⟩))).symm
  rw [← hcontent]
  refine FatState.vol_setArea hs hc.isArea st d' ?_ b n
  rw [hc.areaSectors]
  exact hout

theorem storeBytes_zeros (b : Sector) {n : ℕ} (hi : i < n) :
    storeBytes b 0 (List.replicate n 0) i = 0 := by
  rw [storeBytes, if_pos ⟨Nat.zero_le _, by simpa using hi⟩, List.getD_eq_getElem?_getD,
    List.getElem?_replicate]
  split_ifs <;> rfl

/-- The loop of `cluster_zero` writes the zeros of `sector_buf` to the sectors it visits. -/
theorem clusterZeroLoop_run (hs : fs.Sane ps) (hc : fs.IsCluster c) (n s : ℕ)
    (hns : s + n = fs.sectorsPerCluster) (st : FatState)
    (hz : ∀ i < sectorSize, st.sectorBuf i = 0) :
    ∃ d' k, (clusterZeroLoop fs c n s).run (fatHandler noFaults) st
        = .ok (true, { st with disk := d', ataCount := k }) ∧
      (∀ j, s ≤ j → j < fs.sectorsPerCluster → ∀ i < sectorSize, d' (fs.areaLba c + j) i = 0) ∧
      (∀ lba, (∀ j, s ≤ j → j < fs.sectorsPerCluster → lba ≠ fs.areaLba c + j) →
        d' lba = st.disk lba) := by
  induction n generalizing s st with
  | zero => exact ⟨st.disk, st.ataCount, rfl, fun j _ _ => by omega, fun _ _ => rfl⟩
  | succ n ih =>
    have hlba := Fs.clusterLba_add hs hc (k := s) (by omega)
    obtain ⟨d', k, hrun, hin, hout⟩ := ih (s + 1) (by omega) { st with
      ataCount := st.ataCount + 1
      disk := Function.update st.disk (fs.areaLba c + s)
        (transfer (st.disk (fs.areaLba c + s)) st.sectorBuf) } hz
    refine ⟨d', k, ?_, fun j hj hjn i hi => ?_, fun lba hl => ?_⟩
    · rw [← hrun, ← hlba]
      rfl
    · rcases Nat.eq_or_lt_of_le hj with rfl | hlt
      · rw [hout _ (fun j _ _ heq => by omega)]
        simp only [Function.update_self, transfer, hi, if_true, hz i hi]
      · exact hin j hlt hjn i hi
    · rw [hout lba (fun j hj hjn => hl j (by omega) hjn)]
      exact Function.update_of_ne (hl s (le_refl _) (by omega)) _ _

theorem clusterZero_yields (hs : fs.Sane ps) (hc : fs.IsCluster c) :
    fs.Yields (clusterZero fs c) v true (v.setArea c (fun _ => 0)) := by
  intro st hst
  subst hst
  obtain ⟨b, hb⟩ : ∃ b, b = storeBytes st.sectorBuf 0 (List.replicate sectorSize 0) := ⟨_, rfl⟩
  have hz : ∀ i < sectorSize, b i = 0 := fun i hi => by rw [hb]; exact storeBytes_zeros _ hi
  obtain ⟨d', k, hrun, hin, hout⟩ := clusterZeroLoop_run hs hc fs.sectorsPerCluster 0
    (Nat.zero_add _) { st with sectorBuf := b } hz
  rw [hb] at hrun
  refine ⟨_, hrun, ?_⟩
  refine FatState.vol_setCluster hs hc st (fun _ _ => rfl) (fun j hj => ?_)
    (fun lba hl => hout lba (fun j _ => hl j)) _ _
  exact hin j (Nat.zero_le _) hj

/-- The loop of `ata_write` without errors. -/
theorem writeSectors_run (count n lba : ℕ) (data : Bytes) (disk : Disk) :
    ∃ d', writeSectors noFaults count n lba data disk = (true, n + count, d') ∧
      (∀ j < count, ∀ i < sectorSize, d' (lba + j) i = data.getD (j * sectorSize + i) 0) ∧
      (∀ l, (∀ j < count, l ≠ lba + j) → d' l = disk l) := by
  induction count generalizing n lba data disk with
  | zero => exact ⟨disk, rfl, fun j hj => absurd hj (by omega), fun _ _ => rfl⟩
  | succ count ih =>
    obtain ⟨d', hrun, hin, hout⟩ := ih (n + 1) (lba + 1) (data.drop sectorSize)
      (Function.update disk lba (transfer (disk lba) (toSector data)))
    refine ⟨d', ?_, fun j hj i hi => ?_, fun l hl => ?_⟩
    · rw [writeSectors, if_neg (by simp), hrun, Nat.add_assoc, Nat.add_comm 1]
    · rcases Nat.eq_zero_or_pos j with rfl | hpos
      · rw [Nat.add_zero, hout lba (fun j _ => by omega)]
        simp [transfer, toSector, hi]
      · obtain ⟨j, rfl⟩ : ∃ j', j = j' + 1 := ⟨j - 1, by omega⟩
        have := hin j (by omega) i hi
        rw [show lba + (j + 1) = lba + 1 + j by omega, this]
        simp only [List.getD_eq_getElem?_getD, List.getElem?_drop]
        congr 2
        ring
    · rw [hout l (fun j hj => by have := hl (j + 1) (by omega); omega)]
      exact Function.update_of_ne (by simpa using hl 0 (by omega)) _ _

/-- A whole cluster written from a buffer. -/
theorem ataWriteFrom_yields (hs : fs.Sane ps) (hc : fs.IsCluster c) {data : Bytes}
    (hlen : data.length = fs.clusterBytes) :
    fs.Yields (ataWriteFrom (clusterLba fs c) fs.sectorsPerCluster data) v true
      (v.setArea c (toSector data)) := by
  refine Prog.Computes.perform (fun st hst => ?_)
  subst hst
  obtain ⟨d', hrun, hin, hout⟩ := writeSectors_run fs.sectorsPerCluster st.ataCount (fs.areaLba c)
    data st.disk
  refine ⟨{ st with disk := d', ataCount := st.ataCount + fs.sectorsPerCluster }, ?_, ?_⟩
  · simp only [fatHandler, clusterLba_eq hs hc, hrun]
  · refine FatState.vol_setCluster hs hc st (fun k hk => ?_) hin hout _ _
    rw [toSector, List.getD_eq_getElem?_getD, List.getElem?_eq_none (hlen ▸ hk)]
    rfl

/-- The bytes of cluster `c`. -/
def Vol.clusterData (fs : Fs) (v : Vol) (c : UInt16) : Bytes :=
  (List.range fs.clusterBytes).map (v.area c)

/-- The loop of `ata_read` without errors. -/
theorem readSectors_run (disk : Disk) (count n lba : ℕ) :
    readSectors noFaults disk count n lba
      = (some ((List.range (count * sectorSize)).map
          (fun k => disk (lba + k / sectorSize) (k % sectorSize))), n + count) := by
  induction count generalizing n lba with
  | zero => simp [readSectors]
  | succ count ih =>
    have hsplit : (count + 1) * sectorSize = sectorSize + count * sectorSize := by ring
    have h0 : ∀ k < sectorSize, k / sectorSize = 0 := fun k hk => Nat.div_eq_of_lt hk
    have hd : ∀ k, (sectorSize + k) / sectorSize = k / sectorSize + 1 :=
      fun k => Nat.add_div_left k (by decide)
    have hmod : ∀ k, (sectorSize + k) % sectorSize = k % sectorSize :=
      fun k => Nat.add_mod_left ..
    rw [readSectors, if_neg (by simp), ih, hsplit, List.range_add, List.map_append]
    simp only [Option.map_some, List.map_map, Prod.mk.injEq, Option.some.injEq, sectorBytes]
    refine ⟨congrArg₂ _ (List.map_congr_left (fun k hk => ?_))
      (List.map_congr_left (fun k _ => ?_)), by omega⟩
    · have hk' := List.mem_range.1 hk
      rw [h0 k hk', Nat.mod_eq_of_lt hk', Nat.add_zero]
    · simp only [Function.comp_apply, hd, hmod]
      congr 1
      omega

/-- A whole cluster read into a heap block that can hold it. -/
theorem ataReadTo_yields (hs : fs.Sane ps) (hc : fs.IsCluster c) (hl : v.heap = some l)
    (hu : b ∈ usedOf l) (hfit : fs.clusterBytes ≤ b.size) :
    fs.Yields (ataReadTo (clusterLba fs c) fs.sectorsPerCluster (b.addr + blockHeader)) v
      (some (v.clusterData fs c)) v := by
  refine Prog.Computes.perform (fun st hst => ?_)
  subst hst
  refine ⟨{ st with ataCount := st.ataCount + fs.sectorsPerCluster }, ?_, rfl⟩
  have hp := Heap.payload_eq (h := st.heap) hl (List.mem_filter.1 hu).1
  have hdata : (st.vol fs).clusterData fs c = (List.range (fs.sectorsPerCluster * sectorSize)).map
      (fun k => st.disk (fs.areaLba c + k / sectorSize) (k % sectorSize)) := by
    refine List.map_congr_left (fun k hk => ?_)
    exact if_pos ⟨hc.isArea, by rw [hc.areaSectors]; exact List.mem_range.1 hk⟩
  unfold Fs.clusterBytes at hfit
  rw [hdata]
  simp only [fatHandler, hp, clusterLba_eq hs hc, readSectors_run, if_neg (not_lt.2 hfit)]

/-- The end of `fat_mkdir` on a cluster of zeros. -/
theorem makeDir_yields (hs : fs.Sane ps) {parent : Dirent} {name : Name83} (hsl : fs.IsSlot s)
    (hc : fs.IsCluster c) (hz : v.area c = fun _ => 0) :
    fs.Yields (makeDir fs parent name (s.loc fs) c) v 0
      (((v.setEntry ⟨c, 0⟩ (dotEntry c)).setEntry ⟨c, 1⟩ (dotdotEntry parent.clusterLo)).setEntry s
        { dirEntry c with name := name }) := by
  intro st hst
  subst hst
  have hpos : 0 < fs.areaSectors c := Fs.areaSectors_pos_of_ne hs hc.ne_zero
  obtain ⟨b, hb⟩ : ∃ b, b = storeBytes (storeBytes (storeBytes st.sectorBuf 0
      (List.replicate sectorSize 0)) 0 (dotEntry c).bytes) 32 (dotdotEntry parent.clusterLo).bytes :=
    ⟨_, rfl⟩
  obtain ⟨st1, hst1⟩ : ∃ st1 : FatState, st1 = { st with
      sectorBuf := b, ataCount := st.ataCount + 1,
      disk := Function.update st.disk (fs.areaLba c) (transfer (st.disk (fs.areaLba c)) b) } :=
    ⟨_, rfl⟩
  have hvol : st1.vol fs = ((st.vol fs).setEntry ⟨c, 0⟩ (dotEntry c)).setEntry ⟨c, 1⟩
      (dotdotEntry parent.clusterLo) := by
    have hstep := FatState.vol_setArea hs hc.isArea st
      (Function.update st.disk (fs.areaLba c) (transfer (st.disk (fs.areaLba c)) b))
      (fun lba hl => Function.update_of_ne (by simpa using hl 0 hpos) _ _) b (st.ataCount + 1)
    rw [hst1, hstep]
    have hcontent : fs.areaOf (Function.update st.disk (fs.areaLba c)
        (transfer (st.disk (fs.areaLba c)) b)) c
        = storeBytes (storeBytes ((st.vol fs).area c) 0 (dotEntry c).bytes) 32
          (dotdotEntry parent.clusterLo).bytes := by
      rw [hz]
      funext k
      unfold Fs.areaOf
      by_cases hk : k < sectorSize
      · have hin : k < fs.areaSectors c * sectorSize :=
          lt_of_lt_of_le hk (Nat.le_mul_of_pos_left _ hpos)
        rw [if_pos ⟨hc.isArea, hin⟩, Nat.div_eq_of_lt hk, Nat.mod_eq_of_lt hk, Nat.add_zero,
          Function.update_self, transfer, if_pos hk, hb]
        exact storeBytes_congr (storeBytes_congr (storeBytes_zeros _ hk))
      · have hold : (st.vol fs).area c k = 0 := by rw [hz]
        have hlen : 32 + 32 ≤ sectorSize := by decide
        rw [storeBytes_of_ge _ _ _ (by rw [Dirent.bytes_length]; omega),
          storeBytes_of_ge _ _ _ (by rw [Dirent.bytes_length]; omega)]
        split_ifs with hin
        · have hpos' : 0 < k / sectorSize := Nat.div_pos (not_lt.1 hk) (by decide)
          rw [Function.update_of_ne (by omega)]
          exact (if_pos hin).symm.trans hold
        · rfl
    rw [hcontent]
    simp [Vol.setEntry, Vol.setArea]
  obtain ⟨st2, hrun, hvol2⟩ := locUpdate_yields hs hsl { dirEntry c with name := name } st1 hvol
  refine ⟨st2, ?_, hvol2⟩
  rw [hst1, hb, ← clusterLba_eq hs hc] at hrun
  have hmake : (makeDir fs parent name (s.loc fs) c).run (fatHandler noFaults) st
      = (locUpdate (s.loc fs) { dirEntry c with name := name } >>= fun ok =>
          pure (if ok = true then (0 : Int) else -1)).run (fatHandler noFaults) _ := rfl
  rw [hmake, Prog.run_bind_ok _ hrun]
  rfl

end Primitives

end OctoOS
