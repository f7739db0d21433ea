import OctoOS.Fat.Check

set_option autoImplicit false

/-! # The geometry `fat_mount` accepts

`fat_mount` takes the layout of the volume from the partition table and the boot sector and checks
little of it. `Fs.Usable` says what the driver needs of the geometry, `BpbFits` what that asks of
the two sectors. -/

namespace OctoOS

open Atomic

/-- What the rest of the driver needs of a mounted geometry on a partition of `ps` sectors. -/
structure Fs.Usable (fs : Fs) (ps : ℕ) : Prop where
  /-- reserved sectors, FAT copies, root area and data area are in order inside the partition -/
  order : fs.partLba ≤ fs.fatLba ∧ fs.fatLba + fs.numFats * fs.fatSectors ≤ fs.rootLba ∧
    fs.rootLba + fs.rootSectors ≤ fs.dataLba ∧ fs.dataLba ≤ fs.partLba + ps
  /-- a cluster has its FAT entry inside a copy -/
  fatEntry : fs.maxCluster < 256 * fs.fatSectors
  /-- a cluster has its sectors inside the partition -/
  sectors : ∀ c : UInt16, 2 ≤ c.toNat → c.toNat ≤ fs.maxCluster →
    fs.dataLba ≤ clusterLba fs c ∧ clusterLba fs c + fs.sectorsPerCluster ≤ fs.partLba + ps
  /-- cluster numbers are below the reserved values -/
  reserved : fs.maxCluster < 0xFFF7

/-- No cluster of the data area is free in the first FAT copy. -/
def Fs.DiskFull (fs : Fs) (disk : Disk) : Prop :=
  ∀ c : UInt16, 2 ≤ c.toNat → c.toNat ≤ fs.maxCluster →
    rd16 (disk (w32 (fs.fatLba + c.toNat * 2 / sectorSize))) (c.toNat * 2 % sectorSize) ≠ clusterFree

/-- `cluster_alloc` always ends: with a cluster of the data area or with 0, and without device
    errors with 0 just when none is free. -/
def Fs.AllocEnds (fs : Fs) : Prop :=
  ∀ (fails : Faults) (st : FatState), (clusterAlloc fs).Ends (fatHandler fails) st
    (fun r _ => (r = 0 ∨ (2 ≤ r.toNat ∧ r.toNat ≤ fs.maxCluster)) ∧ (fs.DiskFull st.disk → r = 0) ∧
      ((∀ n lba, fails n lba = false) → r = 0 → fs.DiskFull st.disk))

/-- The sectors in front of the data area, by the fields of the boot sector. -/
def bpbUsed (bpb : Sector) : ℕ :=
  (rd16 bpb 14).toNat + (bpb 16).toNat * (rd16 bpb 22).toNat
    + ((rd16 bpb 17).toNat * 32 + sectorSize - 1) / sectorSize

/-- The areas fit into the partition, and the FAT has entries for all clusters of the rest, whose
    numbers are below the reserved values. -/
def BpbFits (partSectors : ℕ) (bpb : Sector) : Prop :=
  bpbUsed bpb ≤ partSectors ∧
    1 + (partSectors - bpbUsed bpb) / (bpb 13).toNat < 256 * (rd16 bpb 22).toNat ∧
    1 + (partSectors - bpbUsed bpb) / (bpb 13).toNat < 0xFFF7

instance (partSectors : ℕ) (bpb : Sector) : Decidable (BpbFits partSectors bpb) :=
  inferInstanceAs (Decidable (_ ∧ _ ∧ _))

/-! ## `cluster_alloc` -/

section Alloc

variable {fails : Faults} {fs : Fs} {st : FatState}

theorem fatGet_ends (fs : Fs) (c : UInt16) (st : FatState) :
    (fatGet fs c).Ends (fatHandler fails) st (fun r st' => st'.disk = st.disk ∧
      (r = clusterEoc ∨ r = rd16 (st.disk (w32 (fs.fatLba + c.toNat * 2 / sectorSize)))
        (c.toNat * 2 % sectorSize)) ∧
      ((∀ n lba, fails n lba = false) → r = rd16 (st.disk (w32 (fs.fatLba + c.toNat * 2 / sectorSize)))
        (c.toNat * 2 % sectorSize))) := by
  have hoff : c.toNat * 2 % sectorSize + 1 < sectorSize := by
    unfold sectorSize
    omega
  unfold fatGet
  by_cases hf : fails st.ataCount (w32 (fs.fatLba + c.toNat * 2 / sectorSize)) = true
  · refine Prog.Ends.step (if_pos hf) (Prog.Ends.pure ⟨rfl, Or.inl rfl, fun hno => ?_⟩)
    rw [hno] at hf
    cases hf
  · refine Prog.Ends.step (if_neg hf) (Prog.Ends.step rfl (Prog.Ends.pure ?_))
    refine ⟨rfl, Or.inr ?_, fun _ => ?_⟩ <;> exact rd16_transfer _ _ hoff

theorem fatSetLoop_ends (fs : Fs) (c x : UInt16) (n f : ℕ) (st : FatState) :
    (fatSetLoop fs c x n f).Ends (fatHandler fails) st
      (fun b _ => (∀ n lba, fails n lba = false) → b = true) := by
  induction n generalizing f st with
  | zero => exact Prog.Ends.pure (fun _ => rfl)
  | succ n ih =>
    rw [fatSetLoop]
    by_cases hr : fails st.ataCount (w32 (fs.fatLba + f * fs.fatSectors + c.toNat * 2 / sectorSize)) = true
    · refine Prog.Ends.step (if_pos hr) (Prog.Ends.pure (fun hno => ?_))
      rw [hno] at hr
      cases hr
    · refine Prog.Ends.step (if_neg hr) (Prog.Ends.step rfl (Prog.Ends.step rfl ?_))
      by_cases hw : fails (st.ataCount + 1)
          (w32 (fs.fatLba + f * fs.fatSectors + c.toNat * 2 / sectorSize)) = true
      · refine Prog.Ends.step (if_pos hw) (Prog.Ends.pure (fun hno => ?_))
        rw [hno] at hw
        cases hw
      · exact Prog.Ends.step (if_neg hw) (ih (f + 1) _)

/-- The loop of `cluster_alloc` does not wrap around when cluster numbers stay below 0xFFFF. -/
theorem clusterAllocLoop_ends (hmax : fs.maxCluster < 0xFFF7) (fuel : ℕ) (c : UInt16)
    (hc : 2 ≤ c.toNat) (hfuel : fs.maxCluster + 1 ≤ c.toNat + fuel)
    (hbelow : (∀ n lba, fails n lba = false) → ∀ b : UInt16, 2 ≤ b.toNat → b.toNat < c.toNat →
      rd16 (st.disk (w32 (fs.fatLba + b.toNat * 2 / sectorSize))) (b.toNat * 2 % sectorSize)
        ≠ clusterFree) {st1 : FatState} (hdisk : st1.disk = st.disk) :
    (clusterAllocLoop fs (fuel + 1) c).Ends (fatHandler fails) st1
      (fun r _ => (r = 0 ∨ (2 ≤ r.toNat ∧ r.toNat ≤ fs.maxCluster)) ∧ (fs.DiskFull st.disk → r = 0) ∧
        ((∀ n lba, fails n lba = false) → r = 0 → fs.DiskFull st.disk)) := by
  have hend : ¬ c.toNat ≤ fs.maxCluster → (∀ n lba, fails n lba = false) → fs.DiskFull st.disk :=
    fun hgt hno b h2 hb => hbelow hno b h2 (by omega)
  induction fuel generalizing c st1 with
  | zero =>
    rw [clusterAllocLoop, if_neg (by omega)]
    exact Prog.Ends.pure ⟨Or.inl rfl, fun _ => rfl, fun hno _ => hend (by omega) hno⟩
  | succ fuel ih =>
    rw [clusterAllocLoop]
    by_cases hle : c.toNat ≤ fs.maxCluster
    · rw [if_pos hle]
      refine (fatGet_ends fs c st1).bind ?_
      rintro r st2 ⟨hdisk2, hr, hexact⟩
      rw [hdisk] at hr hexact
      have hnz : c ≠ 0 := by
        rintro rfl
        cases hc
      by_cases hfree : r = clusterFree
      · rw [if_pos hfree]
        -- the entry read is that of a free cluster: an error answers with an end mark
        have hentry := hr.resolve_left (by rw [hfree]; decide)
        refine (fatSetLoop_ends fs c clusterEoc fs.numFats 0 st2).bind ?_
        intro b st3 hb
        have hnot : ¬ fs.DiskFull st.disk := fun hfull => hfull c hc hle (hentry.symm.trans hfree)
        cases b with
        | true =>
          exact Prog.Ends.pure ⟨Or.inr ⟨hc, hle⟩, fun hfull => absurd hfull hnot,
            fun _ h0 => absurd h0 hnz⟩
        | false =>
          exact Prog.Ends.pure ⟨Or.inl rfl, fun _ => rfl, fun hno => absurd (hb hno) (by decide)⟩
      · rw [if_neg hfree]
        have hnext : (c + 1).toNat = c.toNat + 1 := by
          rw [UInt16.toNat_add]
          exact Nat.mod_eq_of_lt (by change c.toNat + 1 < 65536; omega)
        have hbelow' : (∀ n lba, fails n lba = false) → ∀ b : UInt16, 2 ≤ b.toNat →
            b.toNat < (c + 1).toNat →
            rd16 (st.disk (w32 (fs.fatLba + b.toNat * 2 / sectorSize))) (b.toNat * 2 % sectorSize)
              ≠ clusterFree := by
          intro hno b h2 hlt
          rcases Nat.lt_or_ge b.toNat c.toNat with hb | hb
          · exact hbelow hno b h2 hb
          · obtain rfl : b = c := UInt16.toNat_inj.1 (by omega)
            rw [← hexact hno]
            exact hfree
        exact ih (c + 1) (by omega) (by omega) hbelow' (hdisk2.trans hdisk)
          (fun hgt hno b h2 hb => hbelow' hno b h2 (by omega))
    · rw [if_neg hle]
      exact Prog.Ends.pure ⟨Or.inl rfl, fun _ => rfl, fun hno _ => hend hle hno⟩

theorem Fs.allocEnds_of_reserved (hmax : fs.maxCluster < 0xFFF7) : fs.AllocEnds := by
  intro fails st
  exact clusterAllocLoop_ends hmax (clusterLoopBound - 1) 2 (by decide)
    (by have : (0xFFF7 : ℕ) ≤ clusterLoopBound - 1 := by decide
        omega)
    (fun _ b h2 hlt => absurd h2 (Nat.not_le.2 hlt)) rfl

end Alloc

/-! ## `fat_mount` -/

section Mount

theorem transfer_apply (b s : Sector) {i : ℕ} (h : i < sectorSize) : transfer b s i = s i := if_pos h

theorem rd32_transfer (b s : Sector) {i : ℕ} (h : i + 3 < sectorSize) :
    rd32 (transfer b s) i = rd32 s i := by
  rw [rd32, rd32, transfer_apply b s (by omega), transfer_apply b s (by omega),
    transfer_apply b s (by omega), transfer_apply b s h]

theorem findPartition_transfer (b s : Sector) (n i : ℕ) (h : i + n ≤ 4) :
    findPartition (transfer b s) n i = findPartition s n i := by
  induction n generalizing i with
  | zero => rfl
  | succ n ih =>
    have hb : 446 + i * 16 + 15 < sectorSize := by
      unfold sectorSize
      omega
    rw [findPartition, findPartition, transfer_apply b s (by omega), rd32_transfer b s (by omega),
      rd32_transfer b s (by omega), ih (i + 1) (by omega)]

theorem bpbGeometry_transfer (part : ℕ × ℕ) (b s : Sector) :
    bpbGeometry part (transfer b s) = bpbGeometry part s := by
  have h : ∀ i, i < 100 → i + 1 < sectorSize := fun i hi => by
    unfold sectorSize
    omega
  unfold bpbGeometry
  simp only [rd16_transfer b s (h 14 (by decide)), rd16_transfer b s (h 17 (by decide)),
    rd16_transfer b s (h 22 (by decide)), transfer_apply b s (i := 13) (by decide),
    transfer_apply b s (i := 16) (by decide)]

theorem ataRead_true {fails : Faults} {lba : ℕ} {st st' : FatState} {b : Bool}
    (h : (ataRead lba).run (fatHandler fails) st = .ok (b, st')) (hb : b = true) :
    fails st.ataCount lba = false ∧ st' = { st with
      ataCount := st.ataCount + 1, sectorBuf := transfer st.sectorBuf (st.disk lba) } := by
  have hstep : fatHandler fails (.ataRead lba) st = .ok (b, st') :=
    (Prog.run_perform _ _ _).symm.trans h
  simp only [fatHandler] at hstep
  split_ifs at hstep with hf
  · exact absurd ((Prod.mk.inj (Except.ok.inj hstep)).1.trans hb) Bool.false_ne_true
  · exact ⟨Bool.eq_false_iff.2 hf, (Prod.mk.inj (Except.ok.inj hstep)).2.symm⟩

/-- The partition `fat_mount` looks at, on a disk. -/
def Disk.partition (disk : Disk) : ℕ × ℕ := findPartition (disk 0) 4 0

section

variable {fs : Fs} {fails : Faults} {st st' : FatState}
  (hrun : fatMount.run (fatHandler fails) st = .ok (some fs, st'))

include hrun

/-- A `fat_mount` that answers 0 has read its two sectors, stores their geometry and starts in the
    root directory. It changes neither disk nor heap. -/
theorem fatMount_inv :
    ∃ bpb, bpb = st.disk (Disk.partition st.disk).1 ∧ fs = bpbGeometry (Disk.partition st.disk) bpb ∧
      (∃ n, fails n (Disk.partition st.disk).1 = false) ∧ (bpb 13 ≠ 0 ∧ bpb 16 ≠ 0 ∧ rd16 bpb 22 ≠ 0) ∧
      st'.cwdCluster = 0 ∧ st'.disk = st.disk ∧ st'.heap = st.heap := by
  refine ⟨_, rfl, ?_⟩
  unfold fatMount at hrun
  obtain ⟨b, st1, h1, hrun⟩ := Prog.run_bind_inv _ hrun
  split_ifs at hrun with hb
  · obtain ⟨mbr, st2, h2, hrun⟩ := Prog.run_bind_inv _ hrun
    cases h2
    obtain ⟨-, hst1⟩ := ataRead_true h1 hb
    subst hst1
    simp only [findPartition_transfer _ _ 4 0 (Nat.le_refl _)] at hrun
    split_ifs at hrun with hsig hpart
    · cases hrun
    · cases hrun
    · obtain ⟨b', st3, h3, hrun⟩ := Prog.run_bind_inv _ hrun
      split_ifs at hrun with hb'
      · obtain ⟨bpb, st4, h4, hrun⟩ := Prog.run_bind_inv _ hrun
        cases h4
        obtain ⟨hok, hst3⟩ := ataRead_true h3 hb'
        subst hst3
        split_ifs at hrun with hbad
        · cases hrun
        · obtain ⟨hfs, hst'⟩ := Prod.mk.inj (Except.ok.inj hrun)
          simp only [not_or] at hbad
          obtain ⟨-, h13, h16, h22⟩ := hbad
          rw [transfer_apply _ _ (by decide)] at h13 h16
          rw [rd16_transfer _ _ (by decide)] at h22
          rw [bpbGeometry_transfer] at hfs
          rw [← hst']
          exact ⟨(Option.some.inj hfs).symm, ⟨_, hok⟩, ⟨h13, h16, h22⟩, rfl, rfl, rfl⟩
      · cases hrun
  · cases hrun

theorem fatMount_run :
    st'.cwdCluster = 0 ∧ st'.disk = st.disk ∧ st'.heap = st.heap := by
  obtain ⟨-, -, -, -, -, hst'⟩ := fatMount_inv hrun
  exact hst'

end

/-- The numbers `fat_mount` stores, for a partition that starts below 2^28: nothing wraps around in
    front of the data area. -/
theorem bpbGeometry_eq {part : ℕ × ℕ} (bpb : Sector) (hpart : part.1 < 2 ^ 28) :
    (bpbGeometry part bpb).fatLba = part.1 + (rd16 bpb 14).toNat ∧
    (bpbGeometry part bpb).rootLba
      = part.1 + (rd16 bpb 14).toNat + (bpb 16).toNat * (rd16 bpb 22).toNat ∧
    (bpbGeometry part bpb).dataLba = part.1 + bpbUsed bpb ∧ part.1 + bpbUsed bpb < 2 ^ 29 := by
  have h16 := (bpb 16).toNat_lt
  have h14 := (rd16 bpb 14).toNat_lt
  have h17 := (rd16 bpb 17).toNat_lt
  have hmul : (bpb 16).toNat * (rd16 bpb 22).toNat ≤ 255 * 65535 :=
    Nat.mul_le_mul (by omega) (by have := (rd16 bpb 22).toNat_lt; omega)
  have hroot : ((rd16 bpb 17).toNat * 32 + sectorSize - 1) / sectorSize ≤ 4096 := by
    unfold sectorSize
    omega
  have hfat : w32 (part.1 + (rd16 bpb 14).toNat) = part.1 + (rd16 bpb 14).toNat := w32_eq (by omega)
  have hrootLba : w32 (part.1 + (rd16 bpb 14).toNat + (bpb 16).toNat * (rd16 bpb 22).toNat)
      = part.1 + (rd16 bpb 14).toNat + (bpb 16).toNat * (rd16 bpb 22).toNat := w32_eq (by omega)
  refine ⟨hfat, ?_, ?_, ?_⟩
  · simp only [bpbGeometry, hfat, hrootLba]
  · simp only [bpbGeometry, hfat, hrootLba]
    rw [w32_eq (by omega)]
    unfold bpbUsed
    omega
  · unfold bpbUsed
    omega

/-- When the areas fit, the number of clusters is what is left of the partition. -/
theorem bpbGeometry_maxCluster {part : ℕ × ℕ} {bpb : Sector} (hpart : part.1 < 2 ^ 28)
    (hsec : part.2 < 2 ^ 32) (hfits : bpbUsed bpb ≤ part.2) (hnum : bpb 16 ≠ 0) (hfat : rd16 bpb 22 ≠ 0) :
    (bpbGeometry part bpb).maxCluster = 1 + (part.2 - bpbUsed bpb) / (bpb 13).toNat := by
  obtain ⟨-, -, hdata, hlim⟩ := bpbGeometry_eq bpb hpart
  have hpos : 1 ≤ (bpb 16).toNat * (rd16 bpb 22).toNat := by
    refine Nat.mul_pos (Nat.pos_of_ne_zero (fun h => hnum ?_)) (Nat.pos_of_ne_zero (fun h => hfat ?_))
    · exact UInt8.toNat_inj.1 h
    · exact UInt16.toNat_inj.1 h
  have hused : 1 ≤ bpbUsed bpb := Nat.le_trans hpos
    (Nat.le_trans (Nat.le_add_left ..) (Nat.le_add_right ..))
  have hmax : (bpbGeometry part bpb).maxCluster
      = w32 (1 + sub32 part.2 (sub32 (bpbGeometry part bpb).dataLba part.1) / (bpb 13).toNat) := rfl
  rw [hmax, hdata, sub32_eq (a := part.1 + bpbUsed bpb) (by omega) (by omega), Nat.add_sub_cancel_left,
    sub32_eq hfits hsec]
  have hdiv := Nat.div_le_self (part.2 - bpbUsed bpb) (bpb 13).toNat
  exact w32_eq (by omega)

theorem findPartition_lt (mbr : Sector) (n i : ℕ) : (findPartition mbr n i).2 < 2 ^ 32 := by
  induction n generalizing i with
  | zero => exact Nat.two_pow_pos 32
  | succ n ih =>
    rw [findPartition]
    split_ifs
    · exact (rd32 mbr _).toNat_lt
    · exact ih (i + 1)

end Mount

/-- The geometry that `fat_mount` stores when it answers 0 is usable just when the areas of the
    boot sector fit into the partition and its FAT covers the clusters. -/
theorem fatMount_usable_iff {fs : Fs} {fault : Faults} {st st' : FatState}
    (hrun : fatMount.run (ataHandler fault) st = .ok (some fs, st')) :
    (fs.Usable (Disk.partition st.disk).2 ∧ fs.AllocEnds) ↔
      BpbFits (Disk.partition st.disk).2 (st.disk (Disk.partition st.disk).1) := by
  obtain ⟨bpb, hbpb, rfl, ⟨n, hok⟩, ⟨h13, h16, h22⟩, -⟩ := fatMount_inv hrun
  rw [← hbpb]
  have hpart : (Disk.partition st.disk).1 < 2 ^ 28 := by
    simp only [ataFails, Bool.or_eq_false_iff, decide_eq_false_iff_not] at hok
    omega
  have hsec : (Disk.partition st.disk).2 < 2 ^ 32 := findPartition_lt ..
  obtain ⟨hfat, hroot, hdata, hlim⟩ := bpbGeometry_eq bpb hpart
  generalize Disk.partition st.disk = part at *
  have hspc : 0 < (bpb 13).toNat := Nat.pos_of_ne_zero (fun h => h13 (UInt8.toNat_inj.1 h))
  constructor
  · rintro ⟨hu, -⟩
    have hfits : bpbUsed bpb ≤ part.2 := by
      have hle := hu.order.2.2.2
      rw [hdata] at hle
      exact Nat.le_of_add_le_add_left hle
    have hmax := bpbGeometry_maxCluster hpart hsec hfits h16 h22
    exact ⟨hfits, hmax ▸ hu.fatEntry, hmax ▸ hu.reserved⟩
  · rintro ⟨hfits, hentry, hres⟩
    have hmax := bpbGeometry_maxCluster hpart hsec hfits h16 h22
    refine ⟨⟨⟨?_, ?_, ?_, ?_⟩, hmax ▸ hentry, fun c h2 hc => ?_, hmax ▸ hres⟩,
      Fs.allocEnds_of_reserved (hmax ▸ hres)⟩
    · rw [hfat]
      exact Nat.le_add_right ..
    · rw [hfat, hroot]
      exact Nat.le_refl _
    · rw [hroot, hdata]
      change _ + ((rd16 bpb 17).toNat * 32 + sectorSize - 1) / sectorSize ≤ _
      unfold bpbUsed
      omega
    · rw [hdata]
      exact Nat.add_le_add_left hfits _
    · -- the last sector of cluster `c` is in front of the end of the partition
      rw [hmax] at hc
      have hc' : c.toNat - 1 ≤ (part.2 - bpbUsed bpb) / (bpb 13).toNat := by omega
      have hend : (c.toNat - 1) * (bpb 13).toNat ≤ part.2 - bpbUsed bpb :=
        (Nat.le_div_iff_mul_le hspc).1 hc'
      have hrow : (c.toNat - 1) * (bpb 13).toNat = (c.toNat - 2) * (bpb 13).toNat + (bpb 13).toNat := by
        rw [← Nat.succ_mul]
        congr 1
        omega
      have hsmall : (c.toNat - 2) * (bpb 13).toNat ≤ 65535 * 255 :=
        Nat.mul_le_mul (by have := c.toNat_lt; omega) (by have := (bpb 13).toNat_lt; omega)
      have hlba : clusterLba (bpbGeometry part bpb) c
          = part.1 + bpbUsed bpb + (c.toNat - 2) * (bpb 13).toNat := by
        have hdef : clusterLba (bpbGeometry part bpb) c
            = w32 ((bpbGeometry part bpb).dataLba + sub32 c.toNat 2 * (bpb 13).toNat) := rfl
        rw [hdef, hdata, sub32_eq h2 (by have := c.toNat_lt; omega)]
        exact w32_eq (by omega)
      change _ ∧ _ + (bpb 13).toNat ≤ part.1 + part.2
      rw [hlba, hdata]
      omega

/-- The small volume is mounted with its seven sectors. -/
theorem fatMount_usable_small : ∃ st', fatMount.run (ataHandler noFaults)
    (smallState [0xFFF8, 0xFFFF] [] []) = .ok (some smallFs, st') ∧ smallFs.Usable 7 := by
  have hends : fatMount.Ends (ataHandler noFaults) (smallState [0xFFF8, 0xFFFF] [] [])
      (fun r _ => r = some smallFs) := by decide +kernel
  obtain ⟨r, st', hrun, rfl⟩ := hends
  exact ⟨st', hrun, ((fatMount_usable_iff hrun).2 (by decide +kernel)).1⟩

/-- The boot sector of the small volume in a partition of two sectors. -/
def shortState : FatState :=
  { smallState [0xFFF8, 0xFFFF] [] [] with
    disk := fun lba => if lba = 0 then fun i => if i = 458 then 2 else smallMbr i
      else (smallState [0xFFF8, 0xFFFF] [] []).disk lba }

/-- It is mounted as well: the size of the data area wraps around, and so there are more clusters
    than cluster numbers. -/
theorem fatMount_accepts_short : ∃ fs st', fatMount.run (ataHandler noFaults)
    shortState = .ok (some fs, st') ∧ fs.maxCluster = 0xFFFFFFFF ∧
    ¬ fs.Usable (Disk.partition shortState.disk).2 := by
  have hends : fatMount.Ends (ataHandler noFaults) shortState
      (fun r _ => (r.map Fs.maxCluster) = some 0xFFFFFFFF) := by decide +kernel
  obtain ⟨r, st', hrun, hr⟩ := hends
  obtain ⟨fs, rfl, hmax⟩ := Option.map_eq_some_iff.1 hr
  refine ⟨fs, st', hrun, hmax, fun hu => ?_⟩
  have hres := hu.reserved
  rw [hmax] at hres
  exact absurd hres (by decide)

end OctoOS
