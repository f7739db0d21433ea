import OctoOS.Fat.Iterate
import OctoOS.Fat.Mount

set_option autoImplicit false

/-! # `chain_free` on any FAT

`chain_free` follows the links it is destroying. Every round zeroes the entry it has read, in all
copies, so a cluster that is met again reads as free and ends the loop: the number of links that are
not zero is a measure, whatever the FAT holds. The entries that were zeroed are those of the clusters
reached along the original links; as long as these are inside the FAT, no entry overlaps the copy of
another one. -/

namespace OctoOS

open Atomic Linked

/-! ## Zeroed bytes -/

/-- `d'` is `d` with zeros in the bytes `E`, given by sector and offset. -/
structure Zeroed (E : ℕ → ℕ → Prop) (d d' : Disk) : Prop where
  zero : ∀ lba i, E lba i → d' lba i = 0
  same : ∀ lba i, ¬ E lba i → d' lba i = d lba i

/-- Byte `i` of sector `lba` belongs to the entry of `c` in FAT copy `f`. -/
def EntryByte (fs : Fs) (c : UInt16) (f lba i : ℕ) : Prop :=
  lba = w32 (fs.copyLba c f) ∧ (i = c.toNat * 2 % sectorSize ∨ i = c.toNat * 2 % sectorSize + 1)

/-- The bytes of the entries of the clusters `F`, in every FAT copy. -/
def EntryBytes (fs : Fs) (F : UInt16 → Prop) (lba i : ℕ) : Prop :=
  ∃ f < fs.numFats, ∃ c, F c ∧ EntryByte fs c f lba i

/-- The entry of `c` in FAT copy `f`. -/
def entryOn (fs : Fs) (disk : Disk) (f : ℕ) (c : UInt16) : UInt16 :=
  rd16 (disk (w32 (fs.copyLba c f))) (c.toNat * 2 % sectorSize)

section Zeroed

variable {E E' : ℕ → ℕ → Prop} {d d' d'' : Disk} {fs : Fs} {c x : UInt16}

theorem Zeroed.trans (h : Zeroed E d d') (h' : Zeroed E' d' d'') :
    Zeroed (fun lba i => E lba i ∨ E' lba i) d d'' where
  zero lba i hE := by
    by_cases hE' : E' lba i
    · exact h'.zero lba i hE'
    · rw [h'.same lba i hE']
      exact h.zero lba i (hE.resolve_right hE')
  same lba i hE := by
    rw [h'.same lba i (fun hE' => hE (Or.inr hE')), h.same lba i (fun hE' => hE (Or.inl hE'))]

theorem Zeroed.congr (h : Zeroed E d d') (hE : ∀ lba i, E lba i ↔ E' lba i) : Zeroed E' d d' where
  zero lba i hi := h.zero lba i ((hE lba i).2 hi)
  same lba i hi := h.same lba i (fun hi' => hi ((hE lba i).1 hi'))

theorem fatEdit_free (c : UInt16) (s : Sector) (i : ℕ) :
    fatEdit c clusterFree s i
      = if i = c.toNat * 2 % sectorSize ∨ i = c.toNat * 2 % sectorSize + 1 then 0 else s i := by
  have hbyte : ∀ k, leByte clusterFree.toNat k = 0 := by
    intro k
    rw [leByte, show clusterFree.toNat = 0 from rfl, Nat.zero_div]
    rfl
  unfold fatEdit storeBytes
  simp only [hbyte, List.length_singleton]
  split_ifs with h1 h2 h3
  · rw [show i - (c.toNat * 2 % sectorSize + 1) = 0 by omega]
    rfl
  · omega
  · rw [show i - c.toNat * 2 % sectorSize = 0 by omega]
    rfl
  · omega
  · omega
  · rfl

/-- The loop of `fat_set` with the value `CLUSTER_FREE`. -/
theorem fatSetLoop_zeroed (fs : Fs) (c : UInt16) (n f : ℕ) (st : FatState) :
    ∃ st', (fatSetLoop fs c clusterFree n f).run (fatHandler noFaults) st = .ok (true, st') ∧
      Zeroed (fun lba i => ∃ j, f ≤ j ∧ j < f + n ∧ EntryByte fs c j lba i) st.disk st'.disk := by
  induction n generalizing f st with
  | zero =>
    refine ⟨st, rfl, ?_, fun _ _ _ => rfl⟩
    rintro lba i ⟨j, h1, h2, -⟩
    omega
  | succ n ih =>
    rw [fatSetLoop_succ_run]
    obtain ⟨st', hrun, hz⟩ := ih (f + 1) { st with
      ataCount := st.ataCount + 1 + 1
      sectorBuf := fatEdit c clusterFree (transfer st.sectorBuf (st.disk (w32 (fs.copyLba c f))))
      disk := Function.update st.disk (w32 (fs.copyLba c f))
        (fatEdit c clusterFree (st.disk (w32 (fs.copyLba c f)))) }
    refine ⟨st', hrun, ?_⟩
    have hround : Zeroed (EntryByte fs c f) st.disk (Function.update st.disk (w32 (fs.copyLba c f))
        (fatEdit c clusterFree (st.disk (w32 (fs.copyLba c f))))) := by
      constructor
      · rintro lba i ⟨rfl, hi⟩
        rw [Function.update_self, fatEdit_free, if_pos hi]
      · intro lba i hE
        by_cases hlba : lba = w32 (fs.copyLba c f)
        · subst hlba
          rw [Function.update_self, fatEdit_free, if_neg (fun hi => hE ⟨rfl, hi⟩)]
        · rw [Function.update_of_ne hlba]
    refine (hround.trans hz).congr (fun lba i => ?_)
    constructor
    · rintro (h | ⟨j, h1, h2, h⟩)
      · exact ⟨f, le_refl f, by omega, h⟩
      · exact ⟨j, by omega, by omega, h⟩
    · rintro ⟨j, h1, h2, h⟩
      rcases Nat.eq_or_lt_of_le h1 with rfl | h1
      · exact Or.inl h
      · exact Or.inr ⟨j, h1, by omega, h⟩

/-- `fat_set` with the value `CLUSTER_FREE`, whatever the geometry is. -/
theorem fatSet_zeroed (fs : Fs) (c : UInt16) (st : FatState) :
    ∃ st', (fatSet fs c clusterFree).run (fatHandler noFaults) st = .ok (true, st') ∧
      Zeroed (EntryBytes fs (fun x => x = c)) st.disk st'.disk := by
  obtain ⟨st', hrun, hz⟩ := fatSetLoop_zeroed fs c fs.numFats 0 st
  refine ⟨st', hrun, hz.congr (fun lba i => ?_)⟩
  constructor
  · rintro ⟨f, -, hf, hi⟩
    exact ⟨f, by omega, c, rfl, hi⟩
  · rintro ⟨f, hf, x, rfl, hi⟩
    exact ⟨f, Nat.zero_le f, by omega, hi⟩

theorem linkOn_eq (fs : Fs) (d : Disk) (c : UInt16) : linkOn fs d c = entryOn fs d 0 c := by
  rw [linkOn, entryOn, Fs.copyLba, Nat.zero_mul, Nat.add_zero]

/-- Entries begin at even offsets: the two bytes of one are zeroed together. -/
theorem entryByte_iff (f : ℕ) (lba : ℕ) :
    EntryByte fs c f lba (x.toNat * 2 % sectorSize + 1) ↔
      EntryByte fs c f lba (x.toNat * 2 % sectorSize) := by
  unfold EntryByte sectorSize
  constructor
  · rintro ⟨h, hi⟩
    exact ⟨h, by omega⟩
  · rintro ⟨h, hi⟩
    exact ⟨h, by omega⟩

/-- An entry is zero after some entries were zeroed, or it is what it was. -/
theorem Zeroed.entry {F : UInt16 → Prop} (h : Zeroed (EntryBytes fs F) d d') (f : ℕ) (x : UInt16) :
    (EntryBytes fs F (w32 (fs.copyLba x f)) (x.toNat * 2 % sectorSize) ∧
      entryOn fs d' f x = clusterFree) ∨
    (¬ EntryBytes fs F (w32 (fs.copyLba x f)) (x.toNat * 2 % sectorSize) ∧
      entryOn fs d' f x = entryOn fs d f x) := by
  have hboth : EntryBytes fs F (w32 (fs.copyLba x f)) (x.toNat * 2 % sectorSize + 1) ↔
      EntryBytes fs F (w32 (fs.copyLba x f)) (x.toNat * 2 % sectorSize) := by
    simp only [EntryBytes, entryByte_iff]
  by_cases hE : EntryBytes fs F (w32 (fs.copyLba x f)) (x.toNat * 2 % sectorSize)
  · refine Or.inl ⟨hE, ?_⟩
    rw [entryOn, rd16, h.zero _ _ hE, h.zero _ _ (hboth.2 hE)]
    rfl
  · refine Or.inr ⟨hE, ?_⟩
    rw [entryOn, entryOn, rd16, rd16, h.same _ _ hE, h.same _ _ (fun h' => hE (hboth.1 h'))]

theorem entryBytes_self {F : UInt16 → Prop} {f : ℕ} (hf : f < fs.numFats) (hc : F c) :
    EntryBytes fs F (w32 (fs.copyLba c f)) (c.toNat * 2 % sectorSize) :=
  ⟨f, hf, c, hc, rfl, Or.inl rfl⟩

end Zeroed

/-! ## Termination -/

section Loop

variable {fs : Fs} {c : UInt16}

/-- One round: the link is read, the entry zeroed, and the loop goes on with the link. -/
theorem chainFreeLoop_succ_run (fuel : ℕ) (hc : IsLink c) (st : FatState) :
    ∃ st', (chainFreeLoop fs (fuel + 1) c).run (fatHandler noFaults) st
        = (chainFreeLoop fs fuel (linkOn fs st.disk c)).run (fatHandler noFaults) st' ∧
      Zeroed (EntryBytes fs (fun x => x = c)) st.disk st'.disk := by
  obtain ⟨next, st1, hget, hdisk, -, hlink⟩ :=
    @fatGet_readsFat fs noFaults c st
  obtain ⟨st2, hset, hz⟩ := fatSet_zeroed fs c st1
  have hcond : 2 ≤ c ∧ ¬ isEoc c := hc
  rw [hdisk] at hz
  refine ⟨st2, ?_, hz⟩
  rw [chainFreeLoop, if_pos hcond, Prog.run_bind_ok _ hget, Prog.run_bind_ok _ hset,
    hlink (fun _ _ => rfl)]

/-- The links that are not zero. -/
def liveLinks (fs : Fs) (d : Disk) : Finset ℕ :=
  (Finset.range 65536).filter (fun n => linkOn fs d (UInt16.ofNat n) ≠ 0)

theorem mem_liveLinks {d : Disk} : c.toNat ∈ liveLinks fs d ↔ linkOn fs d c ≠ 0 := by
  rw [liveLinks, Finset.mem_filter, UInt16.ofNat_toNat, Finset.mem_range]
  exact and_iff_right c.toNat_lt

/-- A round takes at least the link of its cluster away, and adds none. -/
theorem card_liveLinks_lt (hn : 1 ≤ fs.numFats) {d d' : Disk} (hc : linkOn fs d c ≠ 0)
    (h : Zeroed (EntryBytes fs (fun x => x = c)) d d') :
    (liveLinks fs d').card < (liveLinks fs d).card := by
  apply Finset.card_lt_card
  constructor
  · intro n hmem
    obtain ⟨hrange, hne⟩ := Finset.mem_filter.1 hmem
    refine Finset.mem_filter.2 ⟨hrange, fun hzero => hne ?_⟩
    rw [linkOn_eq] at hzero ⊢
    rcases h.entry 0 (UInt16.ofNat n) with ⟨-, hfree⟩ | ⟨-, hsame⟩
    · exact hfree
    · rw [hsame, hzero]
  · intro hsub
    have hmem := hsub (mem_liveLinks.2 hc)
    rw [mem_liveLinks, linkOn_eq] at hmem
    rcases h.entry 0 c with ⟨-, hfree⟩ | ⟨hnot, -⟩
    · exact hmem hfree
    · exact hnot (entryBytes_self hn rfl)

/-- The measure is the number of links that are not zero; a link that is zero ends the loop. -/
theorem chainFreeLoop_ends (hn : 1 ≤ fs.numFats) (fuel : ℕ) (c : UInt16) (st : FatState)
    (hfuel : (liveLinks fs st.disk).card + 2 ≤ fuel) :
    ∃ st', (chainFreeLoop fs fuel c).run (fatHandler noFaults) st = .ok ((), st') := by
  induction fuel generalizing c st with
  | zero => omega
  | succ fuel ih =>
    by_cases hc : IsLink c
    · obtain ⟨st', hrun, hz⟩ := @chainFreeLoop_succ_run fs c fuel hc st
      rw [hrun]
      by_cases hlink : linkOn fs st.disk c = 0
      · obtain ⟨fuel, rfl⟩ : ∃ k, fuel = k + 1 := ⟨fuel - 1, by omega⟩
        rw [hlink]
        exact ⟨st', rfl⟩
      · have hless := card_liveLinks_lt hn hlink hz
        exact ih _ st' (by omega)
    · have hcond : ¬ (2 ≤ c ∧ ¬ isEoc c) := hc
      rw [chainFreeLoop, if_neg hcond]
      exact ⟨st, rfl⟩

theorem chainFree_ends (hn : 1 ≤ fs.numFats) (c : UInt16) (st : FatState) :
    ∃ st', (chainFree fs c).run (fatHandler noFaults) st = .ok ((), st') := by
  apply chainFreeLoop_ends hn
  have hcard : (liveLinks fs st.disk).card ≤ 65536 := by
    have := Finset.card_filter_le (Finset.range 65536) (fun n => linkOn fs st.disk (UInt16.ofNat n) ≠ 0)
    rwa [Finset.card_range] at this
  exact Nat.le_trans (Nat.add_le_add_right hcard 2) (by decide)

end Loop

/-! ## Which entries are freed -/

/-- The FAT copies do not overlap, even where sector numbers wrap. `fat_mount` takes their number
    from a byte and their size from 16 bits, and refuses zeros. -/
structure Fs.Copies (fs : Fs) : Prop where
  numFats : 1 ≤ fs.numFats
  apart : fs.numFats * fs.fatSectors ≤ 2 ^ 32

/-- The entry of `c` is inside the FAT. -/
def Fs.InFat (fs : Fs) (c : UInt16) : Prop := c.toNat * 2 / sectorSize < fs.fatSectors

instance Fs.InFat.decidable (fs : Fs) (c : UInt16) : Decidable (fs.InFat c) :=
  inferInstanceAs (Decidable (c.toNat * 2 / sectorSize < fs.fatSectors))

section Exact

variable {fs : Fs} {c x : UInt16} {f f' : ℕ}

theorem w32_add_left_inj {a p q : ℕ} (hp : p < 2 ^ 32) (hq : q < 2 ^ 32)
    (h : w32 (a + p) = w32 (a + q)) : p = q := by
  unfold w32 at h
  omega

/-- Entries inside the FAT do not overlap. -/
theorem Fs.Copies.entry_inj (hg : fs.Copies) (hc : fs.InFat c) (hx : fs.InFat x)
    (hf : f < fs.numFats) (hf' : f' < fs.numFats)
    (h : EntryByte fs x f' (w32 (fs.copyLba c f)) (c.toNat * 2 % sectorSize)) : c = x := by
  obtain ⟨hlba, hoff⟩ := h
  have hle : ∀ {f : ℕ} {c : UInt16}, f < fs.numFats → fs.InFat c →
      f * fs.fatSectors + c.toNat * 2 / sectorSize < 2 ^ 32 := by
    intro f c hf hc
    have hmul : (f + 1) * fs.fatSectors ≤ fs.numFats * fs.fatSectors := Nat.mul_le_mul_right _ hf
    have hap := hg.apart
    unfold Fs.InFat at hc
    rw [Nat.add_mul, Nat.one_mul] at hmul
    omega
  have hsum : f * fs.fatSectors + c.toNat * 2 / sectorSize
      = f' * fs.fatSectors + x.toNat * 2 / sectorSize := by
    apply w32_add_left_inj (hle hf hc) (hle hf' hx) (a := fs.fatLba)
    rw [← Nat.add_assoc, ← Nat.add_assoc]
    exact hlba
  obtain ⟨-, hsec⟩ := mul_add_inj hsum hc hx
  apply UInt16.toNat_inj.1
  unfold sectorSize at hsec hoff
  omega

/-- The loop between two rounds: `F` was freed, and `c` is next. -/
structure FreeState (fs : Fs) (d0 : Disk) (start : UInt16) (F : UInt16 → Prop) (c : UInt16) (d : Disk) :
    Prop where
  zeroed : Zeroed (EntryBytes fs F) d0 d
  reached : ∀ x, F x → Reached (linkOn fs d0) IsLink start x
  current : IsLink c → Reached (linkOn fs d0) IsLink start c
  begun : IsLink start → F start ∨ start = c
  closed : ∀ x, F x → IsLink (linkOn fs d0 x) → F (linkOn fs d0 x) ∨ linkOn fs d0 x = c

variable {d0 d d' : Disk} {start : UInt16} {F : UInt16 → Prop}

/-- At the end everything that is reached was freed. -/
theorem FreeState.all (h : FreeState fs d0 start F c d) (hc : ¬ IsLink c) (x : UInt16) :
    F x ↔ Reached (linkOn fs d0) IsLink start x := by
  refine ⟨h.reached x, fun hx => ?_⟩
  induction hx with
  | start hok =>
    rcases h.begun hok with hF | heq
    · exact hF
    · exact absurd (heq ▸ hok) hc
  | step _ hok ih =>
    rcases h.closed _ ih hok with hF | heq
    · exact hF
    · exact absurd (heq ▸ hok) hc

/-- One round frees `c` and goes on with its original link, or with 0 if it was freed before. -/
theorem FreeState.round (hg : fs.Copies) (h : FreeState fs d0 start F c d) (hc : IsLink c)
    (hin : ∀ x, Reached (linkOn fs d0) IsLink start x → fs.InFat x)
    (hz : Zeroed (EntryBytes fs (fun x => x = c)) d d') :
    FreeState fs d0 start (fun x => F x ∨ x = c) (linkOn fs d c) d' := by
  have hzero : Zeroed (EntryBytes fs (fun x => F x ∨ x = c)) d0 d' := by
    refine (h.zeroed.trans hz).congr (fun lba i => ?_)
    unfold EntryBytes
    constructor
    · rintro (⟨f, hf, x, hx, hi⟩ | ⟨f, hf, x, hx, hi⟩)
      · exact ⟨f, hf, x, Or.inl hx, hi⟩
      · exact ⟨f, hf, x, Or.inr hx, hi⟩
    · rintro ⟨f, hf, x, hx | hx, hi⟩
      · exact Or.inl ⟨f, hf, x, hx, hi⟩
      · exact Or.inr ⟨f, hf, x, hx, hi⟩
  have hreached : ∀ x, F x ∨ x = c → Reached (linkOn fs d0) IsLink start x := by
    rintro x (hx | rfl)
    · exact h.reached x hx
    · exact h.current hc
  have hbegun : IsLink start → (F start ∨ start = c) ∨ start = linkOn fs d c :=
    fun hok => Or.inl (h.begun hok)
  by_cases hF : F c
  · -- met again: the link reads as 0
    have hlink : linkOn fs d c = 0 := by
      rw [linkOn_eq]
      rcases h.zeroed.entry 0 c with ⟨-, hfree⟩ | ⟨hnot, -⟩
      · exact hfree
      · exact absurd (entryBytes_self hg.numFats hF) hnot
    refine ⟨hzero, hreached, ?_, hbegun, ?_⟩
    · rw [hlink]
      exact fun h0 => absurd h0.1 (by decide)
    · intro x hx hok
      have hfreed : F x := hx.elim id (fun heq => heq ▸ hF)
      exact Or.inl (h.closed x hfreed hok)
  · have hlink : linkOn fs d c = linkOn fs d0 c := by
      rw [linkOn_eq, linkOn_eq]
      rcases h.zeroed.entry 0 c with ⟨⟨f, hf, x, hx, hbyte⟩, -⟩ | ⟨-, hsame⟩
      · have heq := hg.entry_inj (hin c (h.current hc)) (hin x (h.reached x hx)) hg.numFats hf hbyte
        exact absurd (heq ▸ hx) hF
      · exact hsame
    rw [hlink] at hbegun ⊢
    refine ⟨hzero, hreached, fun hok => Reached.step (h.current hc) hok, hbegun, ?_⟩
    rintro x (hx | rfl) hok
    · exact Or.inl (h.closed x hx hok)
    · exact Or.inr rfl

theorem chainFreeLoop_exact (hg : fs.Copies)
    (hin : ∀ x, Reached (linkOn fs d0) IsLink start x → fs.InFat x) (fuel : ℕ) {st st' : FatState}
    (h : FreeState fs d0 start F c st.disk)
    (hrun : (chainFreeLoop fs fuel c).run (fatHandler noFaults) st = .ok ((), st')) :
    Zeroed (EntryBytes fs (Reached (linkOn fs d0) IsLink start)) d0 st'.disk := by
  induction fuel generalizing c F st with
  | zero => exact absurd hrun (by simp [chainFreeLoop])
  | succ fuel ih =>
    by_cases hc : IsLink c
    · obtain ⟨st1, hround, hz⟩ := @chainFreeLoop_succ_run fs c fuel hc st
      rw [hround] at hrun
      exact ih (h.round hg hc hin hz) hrun
    · have hcond : ¬ (2 ≤ c ∧ ¬ isEoc c) := hc
      rw [chainFreeLoop, if_neg hcond] at hrun
      obtain rfl : st = st' := (Prod.mk.inj (Except.ok.inj hrun)).2
      refine h.zeroed.congr (fun lba i => ?_)
      simp only [EntryBytes, h.all hc]

theorem fatMount_copies {fails : Faults} {st st' : FatState}
    (hrun : fatMount.run (fatHandler fails) st = .ok (some fs, st')) : fs.Copies := by
  obtain ⟨bpb, -, rfl, -, ⟨-, h16, -⟩, -⟩ := fatMount_inv hrun
  have hnum : (bpb 16).toNat ≠ 0 := fun h => h16 (UInt8.toNat_inj.1 h)
  have hbyte := (bpb 16).toNat_lt
  have hmul : (bpb 16).toNat * (rd16 bpb 22).toNat ≤ 255 * 65535 :=
    Nat.mul_le_mul (by omega) (by have := (rd16 bpb 22).toNat_lt; omega)
  exact ⟨Nat.pos_of_ne_zero hnum, Nat.le_trans hmul (by decide)⟩

/-- **`chain_free` ends on every FAT, and frees exactly the clusters that are reached along the
    original links**, in every copy, if their entries are inside the FAT. The geometry is any that
    `fat_mount` accepts. -/
theorem chainFree_frees {fs : Fs} {fails0 : Faults} {st0 st1 : FatState}
    (hmount : fatMount.run (fatHandler fails0) st0 = .ok (some fs, st1)) (start : UInt16)
    {fault : Faults} {st : FatState} (hclean : NoAtaError fault (chainFree fs start) st) :
    ∃ st', (chainFree fs start).run (ataHandler fault) st = .ok ((), st') ∧
      ((∀ x, Reached (linkOn fs st.disk) IsLink start x → fs.InFat x) →
        (∀ f < fs.numFats, ∀ x, Reached (linkOn fs st.disk) IsLink start x →
          entryOn fs st'.disk f x = clusterFree) ∧
        (∀ f < fs.numFats, ∀ x, fs.InFat x → ¬ Reached (linkOn fs st.disk) IsLink start x →
          entryOn fs st'.disk f x = entryOn fs st.disk f x) ∧
        ∀ lba i, (∀ f < fs.numFats, ∀ x, Reached (linkOn fs st.disk) IsLink start x →
          ¬ EntryByte fs x f lba i) → st'.disk lba i = st.disk lba i) := by
  have hg := fatMount_copies hmount
  obtain ⟨st', hrun⟩ := chainFree_ends hg.numFats start st
  rw [Prog.run_eq_of_clean fatHandler_eq_of_not_ataError _ _ hclean]
  refine ⟨st', hrun, fun hin => ?_⟩
  have hstate : FreeState fs st.disk start (fun _ => False) start st.disk :=
    ⟨⟨fun _ _ h => (by obtain ⟨_, _, _, h, _⟩ := h; exact h.elim), fun _ _ _ => rfl⟩,
      fun _ h => h.elim, Reached.start, fun _ => Or.inr rfl, fun _ h => h.elim⟩
  have hz := chainFreeLoop_exact hg hin clusterLoopBound hstate hrun
  refine ⟨?_, ?_, ?_⟩
  · intro f hf x hx
    rcases hz.entry f x with ⟨-, hfree⟩ | ⟨hnot, -⟩
    · exact hfree
    · exact absurd (entryBytes_self hf hx) hnot
  · intro f hf x hx hr
    rcases hz.entry f x with ⟨⟨f', hf', y, hy, hbyte⟩, -⟩ | ⟨-, hsame⟩
    · exact absurd (hg.entry_inj hx (hin y hy) hf hf' hbyte ▸ hy) hr
    · exact hsame
  · intro lba i hout
    apply hz.same
    rintro ⟨f, hf, x, hx, hbyte⟩
    exact hout f hf x hx hbyte

end Exact

/-- Clusters 2 and 3 are linked to each other. -/
def cycleState : FatState := smallState [0xFFF8, 0xFFFF, 3, 2] [] []

theorem cycleState_links : linkOn smallFs cycleState.disk 2 = 3 ∧ linkOn smallFs cycleState.disk 3 = 2 := by
  decide +kernel

theorem cycleState_reached {x : UInt16} (h : Reached (linkOn smallFs cycleState.disk) IsLink 2 x) :
    x = 2 ∨ x = 3 := by
  induction h with
  | start => exact Or.inl rfl
  | step _ _ ih =>
    rcases ih with rfl | rfl
    · exact Or.inr cycleState_links.1
    · exact Or.inl cycleState_links.2

/-- Both clusters of a cycle are freed, in both copies. -/
theorem chainFree_frees_cycle :
    ∃ st', (chainFree smallFs 2).run (ataHandler noFaults) cycleState
        = .ok ((), st') ∧
      ∀ f < 2, entryOn smallFs st'.disk f 2 = clusterFree ∧ entryOn smallFs st'.disk f 3 = clusterFree := by
  have hmount : fatMount.Ends (ataHandler noFaults) cycleState
      (fun r _ => r = some smallFs) := by decide +kernel
  have hclean : NoAtaError noFaults (chainFree smallFs 2) cycleState := by decide +kernel
  have h2 : Reached (linkOn smallFs cycleState.disk) IsLink 2 2 :=
    Reached.start ⟨by decide, by decide⟩
  have h3 : Reached (linkOn smallFs cycleState.disk) IsLink 2 3 := by
    have hnext := h2.step (by rw [cycleState_links.1]; exact ⟨by decide, by decide⟩)
    rwa [cycleState_links.1] at hnext
  obtain ⟨r, st1, hmount, rfl⟩ := hmount
  obtain ⟨st', hrun, hfrees⟩ := chainFree_frees hmount 2 hclean
  obtain ⟨hfree, -⟩ := hfrees (fun x hx => by rcases cycleState_reached hx with rfl | rfl <;> decide)
  exact ⟨st', hrun, fun f hf => ⟨hfree f hf 2 h2, hfree f hf 3 h3⟩⟩

end OctoOS
