import OctoOS.Lib.Protect
import OctoOS.Isr
import Mathlib.Tactic.IntervalCases

set_option autoImplicit false

/-! # Segments, gates and the task state segment (`kernel/gdt.c`, `kernel/idt.c`)

The tables that `gdt_init` and `idt_init` leave in memory, as the processor reads them. Ring 3 can load
the user segments and nothing of the kernel, and the only gate it can call is that of vector 128. The
task state segment is one word longer in `gdt.c` than the processor's, so the offset of the permission
map is not where the processor reads it: there it finds 0, and the bytes of the segment itself are the
map that says which ports ring 3 may use. -/

namespace OctoOS

open X86

/-- `sizeof(struct tss)`: `prev`, `esp0`, `ss0`, `pad0`, 23 unused words, `trap` and `iomap`. -/
def tssSize : ℕ := 4 + 4 + 2 + 2 + 23 * 4 + 2 + 2

/-- Where `gdt`, `tss` and `idt` lie; they are different objects. -/
structure GdtLayout where
  gdt : ℕ
  tss : ℕ
  idt : ℕ
  tssApart : gdt + 48 ≤ tss ∨ tss + tssSize ≤ gdt
  idtApart : gdt + 48 ≤ idt ∨ idt + 2048 ≤ gdt
  tssIdtApart : tss + tssSize ≤ idt ∨ idt + 2048 ≤ tss
  fits : tss + tssSize < 2 ^ 32

/-- `gdt_set`. -/
def gdtSet (gdt n : ℕ) (base limit : UInt32) (access gran : UInt8) (m : Mem) : Mem :=
  let a := gdt + 8 * n
  let m := m.setHalf a limit.toUInt16.toNat
  let m := m.setHalf (a + 2) base.toUInt16.toNat
  let m := Function.update m (a + 4) (base >>> 16).toUInt8
  let m := Function.update m (a + 5) access
  let m := Function.update m (a + 6) (((limit >>> 16) &&& 0x0F).toUInt8 ||| (gran &&& 0xF0))
  Function.update m (a + 7) (base >>> 24).toUInt8

/-- `tss_set_esp0`. -/
def tssSetEsp0 (lay : GdtLayout) (esp0 : UInt32) (m : Mem) : Mem := m.setWord (lay.tss + 4) esp0.toNat

/-- `gdt_init`, up to the load of the tables. -/
def gdtInit (lay : GdtLayout) (m : Mem) : Mem :=
  let m := gdtSet lay.gdt 0 0 0 0 0 m
  let m := gdtSet lay.gdt 1 0 0xFFFFF 0x9A 0xC0 m
  let m := gdtSet lay.gdt 2 0 0xFFFFF 0x92 0xC0 m
  let m := gdtSet lay.gdt 3 0 0xFFFFF 0xFA 0xC0 m
  let m := gdtSet lay.gdt 4 0 0xFFFFF 0xF2 0xC0 m
  let m := m.fill lay.tss 0 tssSize
  let m := m.setHalf (lay.tss + 8) selKdata
  let m := m.setWord (lay.tss + 4) 0x90000
  let m := m.setHalf (lay.tss + 106) tssSize
  gdtSet lay.gdt 5 (UInt32.ofNat lay.tss) (UInt32.ofNat (tssSize - 1)) 0x89 0x00 m

/-- `gdtp`. -/
def GdtLayout.gdtr (lay : GdtLayout) : TableReg := ⟨lay.gdt, 6 * 8 - 1⟩

/-- `idt_set`. -/
def idtSet (idt n : ℕ) (handler : UInt32) (m : Mem) : Mem :=
  let a := idt + 8 * n
  let m := m.setHalf a (handler &&& 0xFFFF).toNat
  let m := m.setHalf (a + 2) 0x08
  let m := Function.update m (a + 4) 0
  let m : Mem := Function.update m (a + 5) 0x8E
  m.setHalf (a + 6) ((handler >>> 16) &&& 0xFFFF).toNat

/-- `idt_init` behind `pic_remap`; `isr n` is the address of the stub of vector `n`. -/
def idtInit (lay : GdtLayout) (isr : ℕ → UInt32) (m : Mem) : Mem :=
  let m := (List.range 48).foldl (fun m n => idtSet lay.idt n (isr n) m) m
  let m := idtSet lay.idt 128 (isr 128) m
  Function.update m (lay.idt + 8 * 128 + 5) 0xEE

/-- `idtp`. -/
def GdtLayout.idtr (lay : GdtLayout) : TableReg := ⟨lay.idt, 256 * 8 - 1⟩

/-- The memory behind `gdt_init`, `idt_init` and the last `tss_set_esp0`. -/
def protectedMem (lay : GdtLayout) (isr : ℕ → UInt32) (esp0 : UInt32) (m : Mem) : Mem :=
  tssSetEsp0 lay esp0 (idtInit lay isr (gdtInit lay m))

/-! ## One descriptor -/

section Set

variable {gdt n k : ℕ} {base limit : UInt32} {access gran : UInt8} {m : Mem}

theorem sameOff_update (m : Mem) (a : ℕ) (b : UInt8) : Mem.SameOff a 1 m (Function.update m a b) := by
  intro i hi
  refine Function.update_of_ne ?_ b m
  omega

theorem sameOff_gdtSet : Mem.SameOff (gdt + 8 * n) 8 m (gdtSet gdt n base limit access gran m) := by
  intro i hi
  simp only [gdtSet, Mem.setHalf, Function.update_apply]
  split_ifs <;> first | rfl | omega

theorem toNat_shift (x : UInt32) {k : UInt32} (hk : k < 32) :
    (x >>> k).toNat = x.toNat / 2 ^ k.toNat := by
  have hlt : k.toNat < 32 := hk
  rw [UInt32.toNat_shiftRight, Nat.shiftRight_eq_div_pow, Nat.mod_eq_of_lt hlt]

theorem toNat_low (x : UInt32) : (x &&& 0xFFFF).toNat = x.toNat % 65536 := by
  rw [UInt32.toNat_and]
  exact Nat.and_two_pow_sub_one_eq_mod _ 16

/-- `((limit >> 16) & 0x0F) | (gran & 0xF0)`. -/
theorem granByte (limit : UInt32) (gran : UInt8) :
    (((limit >>> 16) &&& 0x0F).toUInt8 ||| (gran &&& 0xF0)).toNat % 16 = limit.toNat / 65536 % 16 ∧
      bit (((limit >>> 16) &&& 0x0F).toUInt8 ||| (gran &&& 0xF0)) 7 = bit gran 7 := by
  have hlow : ((limit >>> 16) &&& 0x0F).toUInt8.toNat = limit.toNat / 65536 % 16 := by
    have hshift : (limit >>> 16).toNat = limit.toNat / 65536 := toNat_shift limit (by decide)
    have hmask : (limit.toNat / 65536) &&& 15 = limit.toNat / 65536 % 16 :=
      Nat.and_two_pow_sub_one_eq_mod _ 4
    rw [UInt32.toNat_toUInt8, UInt32.toNat_and, hshift]
    show (limit.toNat / 65536 &&& 15) % 256 = _
    rw [hmask]
    omega
  have hgran : (gran &&& 0xF0).toNat = gran.toNat &&& 240 := UInt8.toNat_and ..
  constructor
  · have hzero : (gran.toNat &&& 240) % 2 ^ 4 = 0 := by
      rw [Nat.and_mod_two_pow]
      exact Nat.and_zero _
    have hmod := Nat.or_mod_two_pow (a := ((limit >>> 16) &&& 0x0F).toUInt8.toNat)
      (b := gran.toNat &&& 240) (n := 4)
    rw [hzero, Nat.or_zero, hlow] at hmod
    rw [UInt8.toNat_or, hgran, hlow]
    exact hmod.trans (Nat.mod_mod _ _)
  · have hno : (limit.toNat / 65536 % 16).testBit 7 = false :=
      Nat.testBit_lt_two_pow (lt_of_lt_of_le (Nat.mod_lt _ (by decide)) (by decide))
    rw [bit, UInt8.toNat_or, hgran, hlow, Nat.testBit_or, hno, Nat.testBit_and, bit]
    have h240 : Nat.testBit 240 7 = true := by decide
    rw [h240, Bool.and_true, Bool.false_or]

/-- **What `gdt_set` encodes is what the processor decodes.** -/
theorem descriptor_gdtSet : descriptor (gdtSet gdt n base limit access gran m) (gdt + 8 * n) =
    ⟨base.toNat, segLimit (bit gran 7) (limit.toNat % 2 ^ 20), bit access 7, access.toNat / 32 % 4,
      .ofAccess access⟩ := by
  generalize ha : gdt + 8 * n = a
  have hlimit : (gdtSet gdt n base limit access gran m).half a = limit.toNat % 2 ^ 16 := by
    rw [← UInt32.toNat_toUInt16, ← Mem.half_setHalf m a (UInt16.toNat_lt _)]
    refine Mem.half_congr (fun i h1 h2 => ?_)
    simp only [gdtSet, ha, Function.update_apply, Mem.setHalf]
    split_ifs <;> first | rfl | omega
  have hbase : (gdtSet gdt n base limit access gran m).half (a + 2) = base.toNat % 2 ^ 16 := by
    rw [← UInt32.toNat_toUInt16, ← Mem.half_setHalf m (a + 2) (UInt16.toNat_lt _)]
    refine Mem.half_congr (fun i h1 h2 => ?_)
    simp only [gdtSet, ha, Function.update_apply, Mem.setHalf]
    split_ifs <;> first | rfl | omega
  have h4 : gdtSet gdt n base limit access gran m (a + 4) = (base >>> 16).toUInt8 := by
    simp [gdtSet, ha]
  have h5 : gdtSet gdt n base limit access gran m (a + 5) = access := by
    simp [gdtSet, ha]
  have h6 : gdtSet gdt n base limit access gran m (a + 6)
      = ((limit >>> 16) &&& 0x0F).toUInt8 ||| (gran &&& 0xF0) := by
    simp [gdtSet, ha]
  have h7 : gdtSet gdt n base limit access gran m (a + 7) = (base >>> 24).toUInt8 := by
    simp [gdtSet, ha]
  have hmid : (base >>> 16).toUInt8.toNat = base.toNat / 65536 % 256 :=
    congrArg (· % 256) (toNat_shift base (by decide))
  have hhi : (base >>> 24).toUInt8.toNat = base.toNat / 16777216 % 256 :=
    congrArg (· % 256) (toNat_shift base (by decide))
  have hlt := base.toNat_lt
  obtain ⟨hgran, hpages⟩ := granByte limit gran
  unfold descriptor
  rw [hlimit, hbase, h4, h5, h6, h7, hmid, hhi, hgran, hpages]
  ext
  · simp only
    omega
  · simp only
    congr 1
    omega
  all_goals rfl

/-- The other descriptors stay. -/
theorem descriptor_gdtSet_at : descriptor (gdtSet gdt n base limit access gran m) (gdt + 8 * k) =
    if k = n then ⟨base.toNat, segLimit (bit gran 7) (limit.toNat % 2 ^ 20), bit access 7,
      access.toNat / 32 % 4, .ofAccess access⟩ else descriptor m (gdt + 8 * k) := by
  split_ifs with hk
  · rw [hk, descriptor_gdtSet]
  · refine descriptor_congr (fun i h1 h2 => sameOff_gdtSet i ?_)
    omega

end Set

/-! ## The segments -/

/-- All 4 GiB. -/
def flatSegment (dpl : ℕ) (kind : SegKind) : Descriptor := ⟨0, 2 ^ 32 - 1, true, dpl, kind⟩

/-- The six entries of `gdt`: null, the code and the data of the kernel, those of the user, the task state
    segment. -/
def gdtTable (tss : ℕ) : ℕ → Descriptor
  | 1 => flatSegment 0 (.code false true)
  | 2 => flatSegment 0 (.data false true)
  | 3 => flatSegment 3 (.code false true)
  | 4 => flatSegment 3 (.data false true)
  | 5 => ⟨tss, tssSize - 1, true, 0, .system 9⟩
  | _ => ⟨0, 0, false, 0, .system 0⟩

section Tables

variable {lay : GdtLayout} {isr : ℕ → UInt32} {esp0 handler : UInt32} {m : Mem} {i k n idt : ℕ}

theorem sameOff_gdtInit_tss : Mem.SameOff lay.tss tssSize m
    (Mem.setHalf (Mem.setWord (Mem.setHalf (m.fill lay.tss 0 tssSize) (lay.tss + 8) selKdata) (lay.tss + 4)
      0x90000) (lay.tss + 106) tssSize) := by
  have hsize : tssSize = 108 := rfl
  refine (((Mem.sameOff_fill m lay.tss 0 tssSize).trans ((Mem.sameOff_setHalf _ _ _).mono ?_ ?_)).trans
    ((Mem.sameOff_setWord _ _ _).mono ?_ ?_)).trans ((Mem.sameOff_setHalf _ _ _).mono ?_ ?_) <;> omega

theorem descriptor_gdtInit (hi : i < 6) :
    descriptor (gdtInit lay m) (lay.gdt + 8 * i) = gdtTable lay.tss i := by
  have hfits := lay.fits
  have htss : (UInt32.ofNat lay.tss).toNat = lay.tss :=
    UInt32.toNat_ofNat_of_lt' (lt_of_le_of_lt (Nat.le_add_right _ _) hfits)
  -- the stores into `tss` are elsewhere
  have hskip : ∀ m : Mem, descriptor (Mem.setHalf (Mem.setWord (Mem.setHalf (m.fill lay.tss 0 tssSize)
      (lay.tss + 8) selKdata) (lay.tss + 4) 0x90000) (lay.tss + 106) tssSize) (lay.gdt + 8 * i)
      = descriptor m (lay.gdt + 8 * i) := by
    intro m
    have hapart := lay.tssApart
    refine descriptor_congr (fun j h1 h2 => sameOff_gdtInit_tss j ?_)
    omega
  simp only [gdtInit, descriptor_gdtSet_at, hskip, htss]
  interval_cases i <;> rfl

theorem sameOff_idtSet : Mem.SameOff (idt + 8 * n) 8 m (idtSet idt n handler m) := by
  intro i hi
  simp only [idtSet, Mem.setHalf, Function.update_apply]
  split_ifs <;> first | rfl | omega

/-- **The gate that `idt_set` makes.** -/
theorem intGate_idtSet : intGate (idtSet idt n handler m) (idt + 8 * n) = ⟨isrGate handler, true, 0, 14⟩ := by
  generalize ha : idt + 8 * n = a
  have hlt := handler.toNat_lt
  have hlow := toNat_low handler
  have hhigh : ((handler >>> 16) &&& 0xFFFF).toNat = handler.toNat / 65536 := by
    rw [toNat_low, toNat_shift handler (by decide)]
    exact Nat.mod_eq_of_lt (Nat.div_lt_of_lt_mul hlt)
  have h0 : (idtSet idt n handler m).half a = handler.toNat % 65536 := by
    rw [← hlow, ← Mem.half_setHalf m a (v := (handler &&& 0xFFFF).toNat) (by omega)]
    refine Mem.half_congr (fun i h1 h2 => ?_)
    simp only [idtSet, ha, Function.update_apply, Mem.setHalf]
    split_ifs <;> first | rfl | omega
  have h2 : (idtSet idt n handler m).half (a + 2) = 8 := by
    rw [← Mem.half_setHalf m (a + 2) (show 8 < 2 ^ 16 by decide)]
    refine Mem.half_congr (fun i h1 h2 => ?_)
    simp only [idtSet, ha, Function.update_apply, Mem.setHalf]
    split_ifs <;> first | rfl | omega
  have h6 : (idtSet idt n handler m).half (a + 6) = handler.toNat / 65536 := by
    rw [← hhigh]
    simp only [idtSet, ha]
    exact Mem.half_setHalf _ _ (by omega)
  have h5 : idtSet idt n handler m (a + 5) = 0x8E := by
    simp [idtSet, ha, Mem.setHalf]
  have hoffset : UInt32.ofNat (handler.toNat % 65536 + 65536 * (handler.toNat / 65536)) = handler := by
    rw [Nat.mod_add_div, UInt32.ofNat_toNat]
  unfold intGate
  rw [h0, h2, h5, h6, hoffset]
  rfl

theorem intGate_idtSet_of_ne (hi : i ≠ n) :
    intGate (idtSet idt n handler m) (idt + 8 * i) = intGate m (idt + 8 * i) := by
  refine intGate_congr (fun j h1 h2 => sameOff_idtSet j ?_)
  omega

theorem intGate_update (a : ℕ) (flags : UInt8) :
    intGate (Function.update m (a + 5) flags) a = ⟨(intGate m a).gate, bit flags 7, flags.toNat / 32 % 4,
      flags.toNat % 32⟩ := by
  have hhalf : ∀ k, k ≠ 4 → k ≠ 5 → Mem.half (Function.update m (a + 5) flags) (a + k) = m.half (a + k) := by
    intro k h4 h5
    refine Mem.half_congr (fun i h1 h2 => Function.update_of_ne ?_ _ _)
    omega
  have h0 : Mem.half (Function.update m (a + 5) flags) a = m.half a := hhalf 0 (by decide) (by decide)
  unfold intGate
  rw [h0, hhalf 2 (by decide) (by decide), hhalf 6 (by decide) (by decide), Function.update_self]

/-- The calls for the vectors below `k`. -/
theorem intGate_idtSets :
    intGate ((List.range k).foldl (fun m n => idtSet idt n (isr n) m) m) (idt + 8 * n)
      = if n < k then ⟨isrGate (isr n), true, 0, 14⟩ else intGate m (idt + 8 * n) := by
  induction k with
  | zero => rfl
  | succ k ih =>
    rw [List.range_succ, List.foldl_append, List.foldl_cons, List.foldl_nil]
    by_cases hk : n = k
    · subst hk
      rw [intGate_idtSet, if_pos (Nat.lt_succ_self _)]
    · rw [intGate_idtSet_of_ne hk, ih]
      have hlt : n < k + 1 ↔ n < k := by omega
      simp only [hlt]

/-- The table of gates: the stubs of the exceptions and of the interrupt lines for ring 0, that of the
    system calls for ring 3. -/
theorem intGate_idtInit :
    intGate (idtInit lay isr m) (lay.idt + 8 * n)
      = if n < 48 then ⟨isrGate (isr n), true, 0, 14⟩
        else if n = 128 then ⟨isrGate (isr 128), true, 3, 14⟩ else intGate m (lay.idt + 8 * n) := by
  unfold idtInit
  by_cases h128 : n = 128
  · subst h128
    rw [if_neg (by decide), if_pos rfl, intGate_update, intGate_idtSet]
    rfl
  · have hother : ∀ m' : Mem, intGate (Function.update m' (lay.idt + 8 * 128 + 5) 0xEE) (lay.idt + 8 * n)
        = intGate m' (lay.idt + 8 * n) := by
      intro m'
      refine intGate_congr (fun j h1 h2 => Function.update_of_ne ?_ _ _)
      omega
    simp only
    rw [hother, intGate_idtSet_of_ne h128, intGate_idtSets, if_neg h128]

theorem sameOff_idtSets (hk : k ≤ 256) :
    Mem.SameOff idt 2048 m ((List.range k).foldl (fun m n => idtSet idt n (isr n) m) m) := by
  induction k with
  | zero => exact Mem.SameOff.refl _ _ _
  | succ k ih =>
    rw [List.range_succ, List.foldl_append, List.foldl_cons, List.foldl_nil]
    refine (ih (by omega)).trans (sameOff_idtSet.mono ?_ ?_) <;> omega

theorem sameOff_idtInit : Mem.SameOff lay.idt 2048 m (idtInit lay isr m) := by
  refine ((sameOff_idtSets (k := 48) (by decide)).trans ((sameOff_idtSet (n := 128)).mono ?_ ?_)).trans
    ((sameOff_update _ _ _).mono ?_ ?_) <;> omega

/-- Outside of the two tables and of `esp0` the memory is what `gdt_init` has left. -/
theorem protectedMem_same {j : ℕ} (hidt : ¬ (lay.idt ≤ j ∧ j < lay.idt + 2048)) (hesp : ¬ (lay.tss + 4 ≤ j ∧ j < lay.tss + 8)) :
    protectedMem lay isr esp0 m j = gdtInit lay m j := by
  have h1 : protectedMem lay isr esp0 m j = idtInit lay isr (gdtInit lay m) j :=
    Mem.sameOff_setWord _ _ _ j (by omega)
  rw [h1, sameOff_idtInit j hidt]

theorem descriptor_protected (hi : i < 6) :
    descriptor (protectedMem lay isr esp0 m) (lay.gdt + 8 * i) = gdtTable lay.tss i := by
  have htss := lay.tssApart
  have hidt := lay.idtApart
  have hsize : tssSize = 108 := rfl
  rw [← descriptor_gdtInit hi]
  refine descriptor_congr (fun j h1 h2 => protectedMem_same ?_ ?_) <;> omega

/-- The segment of a selector is one of the six. -/
theorem segment_protected (sel : ℕ) : segmentOf (protectedMem lay isr esp0 m) lay.gdtr sel
      = if sel / 4 % 2 = 0 ∧ sel / 8 < 6 then some (gdtTable lay.tss (sel / 8)) else none := by
  have hlimit : lay.gdtr.limit = 47 := rfl
  unfold segmentOf
  by_cases hsel : sel / 4 % 2 = 0 ∧ sel / 8 < 6
  · rw [if_pos ⟨hsel.1, by omega⟩, if_pos hsel]
    exact congrArg some (descriptor_protected hsel.2)
  · rw [if_neg (by omega), if_neg hsel]

/-- `gdt_init` stores into its two objects only. -/
theorem gdtInit_same {j : ℕ} (hgdt : ¬ (lay.gdt ≤ j ∧ j < lay.gdt + 48))
    (htss : ¬ (lay.tss ≤ j ∧ j < lay.tss + tssSize)) : gdtInit lay m j = m j := by
  have hset : ∀ {n base limit access gran} (m : Mem), n < 6 →
      gdtSet lay.gdt n base limit access gran m j = m j := by
    intro n base limit access gran m hn
    exact sameOff_gdtSet j (by omega)
  unfold gdtInit
  rw [hset _ (by decide), sameOff_gdtInit_tss j htss, hset _ (by decide), hset _ (by decide),
    hset _ (by decide), hset _ (by decide), hset _ (by decide)]

/-- The gates in use, when the table was zero before. -/
theorem deliver_protected (hzero : ∀ j < 2048, m (lay.idt + j) = 0) (n : ℕ) :
    deliver (protectedMem lay isr esp0 m) lay.idtr n
      = if n < 48 then some ⟨isrGate (isr n), true, 0, 14⟩
        else if n = 128 then some ⟨isrGate (isr 128), true, 3, 14⟩ else none := by
  have hlimit : lay.idtr.limit = 2047 := rfl
  have hbase : lay.idtr.base = lay.idt := rfl
  unfold deliver
  rw [hlimit, hbase]
  by_cases hn : n < 256
  · -- `esp0` is not in the table, and neither is anything that `gdt_init` has stored
    have hgate : intGate (protectedMem lay isr esp0 m) (lay.idt + 8 * n)
        = intGate (idtInit lay isr (gdtInit lay m)) (lay.idt + 8 * n) := by
      have hapart := lay.tssIdtApart
      have hsize : tssSize = 108 := rfl
      refine intGate_congr (fun j h1 h2 => Mem.sameOff_setWord _ _ _ j ?_)
      omega
    have hold : 48 ≤ n → (intGate (gdtInit lay m) (lay.idt + 8 * n)).present = false := by
      intro _
      have hsame : gdtInit lay m (lay.idt + 8 * n + 5) = 0 := by
        have hidt := lay.idtApart
        have htss := lay.tssIdtApart
        rw [gdtInit_same (by omega) (by omega), Nat.add_assoc]
        exact hzero _ (by omega)
      show bit (gdtInit lay m (lay.idt + 8 * n + 5)) 7 = false
      rw [hsame]
      decide
    rw [hgate, intGate_idtInit]
    by_cases h48 : n < 48
    · rw [if_pos h48, if_pos h48, if_pos ⟨by omega, rfl, rfl⟩]
    · rw [if_neg h48, if_neg h48]
      by_cases h128 : n = 128
      · rw [if_pos h128, if_pos h128, if_pos ⟨by omega, rfl, rfl⟩]
      · rw [if_neg h128, if_neg h128, if_neg]
        rintro ⟨-, -, hpresent⟩
        rw [hold (by omega)] at hpresent
        cases hpresent
  · rw [if_neg (by omega), if_neg (by omega), if_neg (by omega)]

/-- The bytes of the task state segment. -/
theorem protectedMem_tss (hk : k < tssSize) :
    protectedMem lay isr esp0 m (lay.tss + k)
      = if 4 ≤ k ∧ k < 8 then UInt8.ofNat (esp0.toNat / 256 ^ (k - 4))
        else if k = 8 then 0x10 else if k = 106 then 108 else 0 := by
  have hsize : tssSize = 108 := rfl
  by_cases hesp : 4 ≤ k ∧ k < 8
  · rw [if_pos hesp]
    have hoff : lay.tss + k - (lay.tss + 4) = k - 4 := by omega
    unfold protectedMem tssSetEsp0 Mem.setWord
    rw [if_pos (by omega), hoff]
  · rw [if_neg hesp]
    have hidt := lay.tssIdtApart
    have hgdt := lay.tssApart
    rw [protectedMem_same (by omega) (by omega)]
    unfold gdtInit
    rw [sameOff_gdtSet _ (by omega)]
    simp only [Mem.setHalf, Mem.setWord, Mem.fill]
    by_cases h106 : 106 ≤ k
    · have hoff : lay.tss + k - (lay.tss + 106) = k - 106 := by omega
      rw [if_pos (by omega), if_neg (by omega), hoff]
      obtain rfl | rfl : k = 106 ∨ k = 107 := by omega
      · rfl
      · rfl
    · rw [if_neg (by omega), if_neg (by omega)]
      by_cases h8 : 8 ≤ k ∧ k < 10
      · have hoff : lay.tss + k - (lay.tss + 8) = k - 8 := by omega
        rw [if_pos (by omega), hoff]
        obtain rfl | rfl : k = 8 ∨ k = 9 := by omega
        · rfl
        · rfl
      · rw [if_neg (by omega), if_pos (by omega), if_neg (by omega), if_neg (by omega)]

/-! ## What ring 3 can do -/

/-- The index of a selector that finds a segment. -/
theorem index_cases {sel : ℕ} (h : sel / 4 % 2 = 0 ∧ sel / 8 < 6) :
    (sel / 4 = 0 ∧ sel / 8 = 0) ∨ (sel / 4 = 2 ∧ sel / 8 = 1) ∨ (sel / 4 = 4 ∧ sel / 8 = 2) ∨
      (sel / 4 = 6 ∧ sel / 8 = 3) ∨ (sel / 4 = 8 ∧ sel / 8 = 4) ∨ (sel / 4 = 10 ∧ sel / 8 = 5) := by
  omega

theorem loadsData_protected (sel : ℕ) :
    loadsData (protectedMem lay isr esp0 m) lay.gdtr 3 sel = true ↔
      sel / 4 = 0 ∨ sel / 4 = 6 ∨ sel / 4 = 8 := by
  have hrpl : max 3 (sel % 4) = 3 := by omega
  unfold loadsData nullSelector
  rw [segment_protected]
  by_cases hsel : sel / 4 % 2 = 0 ∧ sel / 8 < 6
  · rw [if_pos hsel]
    rcases index_cases hsel with h | h | h | h | h | h
    all_goals simp [h.1, h.2, gdtTable, flatSegment, Descriptor.loadable, hrpl]
  · have hnot : sel / 4 ≠ 6 ∧ sel / 4 ≠ 8 := by omega
    simp [hsel, hnot.1, hnot.2]

theorem farJump_protected (sel : ℕ) :
    farJump (protectedMem lay isr esp0 m) lay.gdtr 3 sel = if sel / 4 = 6 then some 3 else none := by
  have hle : sel % 4 ≤ 3 := by omega
  unfold farJump nullSelector
  rw [segment_protected]
  by_cases hsel : sel / 4 % 2 = 0 ∧ sel / 8 < 6
  · rw [if_pos hsel]
    rcases index_cases hsel with h | h | h | h | h | h
    all_goals simp [h.1, h.2, gdtTable, flatSegment, Descriptor.jump, hle]
  · have hnot : sel / 4 ≠ 6 := by omega
    simp [hsel, hnot]

/-- A store passes through the data of the kernel and of the user. -/
theorem storesThrough_protected (sel : ℕ) :
    storesThrough (protectedMem lay isr esp0 m) lay.gdtr sel = true ↔ sel / 4 = 4 ∨ sel / 4 = 8 := by
  unfold storesThrough nullSelector
  rw [segment_protected]
  by_cases hsel : sel / 4 % 2 = 0 ∧ sel / 8 < 6
  · rw [if_pos hsel]
    rcases index_cases hsel with h | h | h | h | h | h
    all_goals simp [h.1, h.2, gdtTable, flatSegment]
  · have hnot : sel / 4 ≠ 4 ∧ sel / 4 ≠ 8 := by omega
    simp [hsel, hnot.1, hnot.2]

/-- The privilege levels that `iretd` goes by. -/
theorem gdtDpl_eq {sel : UInt16} {d : Descriptor}
    (h : segmentOf (protectedMem lay isr esp0 m) lay.gdtr sel.toNat = some d) : (gdtDpl sel).toNat = d.dpl := by
  rw [segment_protected] at h
  split_ifs at h with hsel
  cases h
  unfold gdtDpl
  rcases index_cases hsel with hi | hi | hi | hi | hi | hi
  all_goals simp [hi.2, gdtTable, flatSegment]

/-- **Ring 3 keeps to the user segments.** It can load a null selector, the user code or the user data
    into a data segment register, a far jump or call stays in ring 3 or faults, and the user segments are
    all of the address space with privilege 3. -/
theorem ring3_segments (lay : GdtLayout) (isr : ℕ → UInt32) (esp0 : UInt32) (m : Mem) (sel : ℕ) :
    (loadsData (protectedMem lay isr esp0 m) lay.gdtr 3 sel = true ↔
      sel / 4 = 0 ∨ sel / 4 = 6 ∨ sel / 4 = 8) ∧
    (farJump (protectedMem lay isr esp0 m) lay.gdtr 3 sel = if sel / 4 = 6 then some 3 else none) ∧
    (sel / 4 = 6 → segmentOf (protectedMem lay isr esp0 m) lay.gdtr sel = some (flatSegment 3 (.code false true))) ∧
    (sel / 4 = 8 → segmentOf (protectedMem lay isr esp0 m) lay.gdtr sel = some (flatSegment 3 (.data false true))) ∧
    ∀ (sel : UInt16) d, segmentOf (protectedMem lay isr esp0 m) lay.gdtr sel.toNat = some d →
      (gdtDpl sel).toNat = d.dpl := by
  refine ⟨loadsData_protected .., farJump_protected .., fun h => ?_, fun h => ?_, fun _ _ => gdtDpl_eq⟩
  · have hi : sel / 8 = 3 := by omega
    rw [segment_protected, if_pos (by omega), hi]
    rfl
  · have hi : sel / 8 = 4 := by omega
    rw [segment_protected, if_pos (by omega), hi]
    rfl

/-- **Ring 3 enters the kernel at the system call only**: of the 256 gates `int n` passes the one of vector
    128, which leads to its stub in the kernel's code segment. The exceptions and the interrupt lines have
    the gates of their stubs, and the stack is `esp0` in the kernel's data segment. -/
theorem ring3_enters_at_syscall (lay : GdtLayout) (isr : ℕ → UInt32) (esp0 : UInt32) (m : Mem)
    (hzero : ∀ j < 2048, m (lay.idt + j) = 0) (n : ℕ) :
    (softwareInt (protectedMem lay isr esp0 m) lay.idtr 3 n
      = if n = 128 then some ⟨isrGate (isr 128), true, 3, 14⟩ else none) ∧
    (n < 48 → deliver (protectedMem lay isr esp0 m) lay.idtr n = some ⟨isrGate (isr n), true, 0, 14⟩) ∧
    segmentOf (protectedMem lay isr esp0 m) lay.gdtr (isrGate (isr n)).selector.toNat
      = some (flatSegment 0 (.code false true)) ∧
    tssAt (protectedMem lay isr esp0 m) lay.tss = ⟨esp0, UInt16.ofNat selKdata⟩ := by
  refine ⟨?_, fun hn => ?_, ?_, ?_⟩
  · rw [softwareInt, deliver_protected hzero]
    by_cases h48 : n < 48
    · rw [if_pos h48, if_neg (by omega)]
      rfl
    · rw [if_neg h48]
      split_ifs <;> rfl
  · rw [deliver_protected hzero, if_pos hn]
  · have hsel : (isrGate (isr n)).selector.toNat = 8 := rfl
    rw [hsel, segment_protected, if_pos (by decide)]
    rfl
  · have hword : (protectedMem lay isr esp0 m).word (lay.tss + 4) = esp0.toNat :=
      Mem.word_setWord _ _ esp0.toNat_lt
    have hhalf : (protectedMem lay isr esp0 m).half (lay.tss + 8) = 16 := by
      rw [Mem.half, Nat.add_assoc, protectedMem_tss (by decide), protectedMem_tss (by decide)]
      rfl
    rw [tssAt, hword, hhalf, UInt32.ofNat_toNat]
    rfl

/-- Where the tables might lie. -/
def someTables : GdtLayout where
  gdt := 0x1F000
  tss := 0x1F040
  idt := 0x1F800
  tssApart := by decide
  idtApart := by decide
  tssIdtApart := by decide
  fits := by decide

theorem ring3_enters_at_syscall_only :
    softwareInt (protectedMem someTables (fun n => UInt32.ofNat (0x10400 + 8 * n)) 0x101000 (fun _ => 0))
      someTables.idtr 3 128 = some ⟨⟨0x08, 0x10800⟩, true, 3, 14⟩ ∧
    softwareInt (protectedMem someTables (fun n => UInt32.ofNat (0x10400 + 8 * n)) 0x101000 (fun _ => 0))
      someTables.idtr 3 14 = none :=
  ⟨(ring3_enters_at_syscall someTables _ _ _ (fun _ _ => rfl) 128).1,
    (ring3_enters_at_syscall someTables _ _ _ (fun _ _ => rfl) 14).1⟩

/-- The second byte does not matter. -/
theorem half_testBit (m : Mem) (a : ℕ) {i : ℕ} (hi : i < 8) :
    m.half a / 2 ^ i % 2 = 0 ↔ bit (m a) i = false := by
  have hbit : (m.half a).testBit i = bit (m a) i := by
    have hsum := Nat.testBit_two_pow_mul_add (m (a + 1)).toNat (m a).toNat_lt i
    rw [if_pos hi, Nat.add_comm] at hsum
    exact hsum
  rw [← hbit, Nat.testBit_eq_decide_div_mod_eq, decide_eq_false_iff_not]
  omega

/-- The bits of `esp0` in its bytes. -/
theorem bit_word (w : ℕ) {k i : ℕ} (hi : i < 8) :
    bit (UInt8.ofNat (w / 256 ^ k)) i = w.testBit (8 * k + i) := by
  have hpow : 256 ^ k = 2 ^ (8 * k) := by rw [Nat.pow_mul]
  rw [bit, UInt8.toNat_ofNat', hpow, Nat.testBit_mod_two_pow, Nat.testBit_div_two_pow]
  simp [hi, Nat.add_comm]

/-- **The ports of ring 3.** The permission map is the task state segment itself: all ports below 856 are
    allowed, except where a bit of `esp0`, `ss0` or `iomap` happens to be set. -/
theorem ring3_ports (lay : GdtLayout) (isr : ℕ → UInt32) (esp0 : UInt32) (m : Mem) (port : ℕ) :
    ∃ tss, segmentOf (protectedMem lay isr esp0 m) lay.gdtr 0x28 = some tss ∧
      (portAllowed (protectedMem lay isr esp0 m) tss 3 0 port = true ↔
        port < 856 ∧ (32 ≤ port → port < 64 → esp0.toNat.testBit (port - 32) = false) ∧
          port ∉ [68, 850, 851, 853, 854]) := by
  refine ⟨gdtTable lay.tss 5, by rw [segment_protected]; rfl, ?_⟩
  have hsize : tssSize = 108 := rfl
  have hbyte := @protectedMem_tss lay isr esp0 m
  have hmap : (protectedMem lay isr esp0 m).half (lay.tss + 102) = 0 := by
    rw [Mem.half, Nat.add_assoc, hbyte (by decide), hbyte (by decide)]
    rfl
  have hmod : port % 8 < 8 := Nat.mod_lt _ (by decide)
  have hio : portAllowed (protectedMem lay isr esp0 m) (gdtTable lay.tss 5) 3 0 port = true ↔
      port < 856 ∧ bit (protectedMem lay isr esp0 m (lay.tss + port / 8)) (port % 8) = false := by
    rw [← half_testBit _ _ hmod]
    simp only [portAllowed, ioBit, gdtTable, hmap, hsize, Nat.zero_add]
    simp
    omega
  rw [hio, and_congr_right_iff]
  intro hport
  rw [hbyte (by omega)]
  by_cases hesp : 4 ≤ port / 8 ∧ port / 8 < 8
  · have hoff : 8 * (port / 8 - 4) + port % 8 = port - 32 := by omega
    rw [if_pos hesp, bit_word _ hmod, hoff]
    constructor
    · intro hclear
      refine ⟨fun _ _ => hclear, ?_⟩
      simp only [List.mem_cons, List.not_mem_nil, or_false]
      omega
    · intro h
      exact h.1 (by omega) (by omega)
  · rw [if_neg hesp]
    -- outside of `esp0` a set bit is one of five
    have hfew : ∀ k < 107, ∀ i < 8, bit (if k = 8 then 0x10 else if k = 106 then 108 else 0) i = false ↔
        8 * k + i ∉ [68, 850, 851, 853, 854] := by decide +kernel
    have hsplit : 8 * (port / 8) + port % 8 = port := Nat.div_add_mod port 8
    rw [hfew (port / 8) (by omega) (port % 8) hmod, hsplit]
    constructor
    · intro hport'
      exact ⟨fun h32 h64 => absurd ⟨by omega, by omega⟩ hesp, hport'⟩
    · intro h
      exact h.2

/-- **`isr_handler` runs with the data segments of ring 3.** The stubs save and load none of them, so `ds`
    is whatever the program has left there, and the kernel can store through it only if that is the user
    data: a program may as well leave a null selector or its code segment. -/
theorem handler_data_segment (lay : GdtLayout) (isr : ℕ → UInt32) (esp0 : UInt32) (m : Mem) (c : Cpu)
    (t : Tss) (n : ℕ) (err : UInt32)
    (hds : loadsData (protectedMem lay isr esp0 m) lay.gdtr 3 (c.seg .ds).toNat = true) :
    (isrCall c t (isr n) n err).seg .ds = c.seg .ds ∧
    (storesThrough (protectedMem lay isr esp0 m) lay.gdtr ((isrCall c t (isr n) n err).seg .ds).toNat = true ↔
      (c.seg .ds).toNat / 4 = 8) ∧
    ∀ sel, sel / 4 = 0 ∨ sel / 4 = 6 → loadsData (protectedMem lay isr esp0 m) lay.gdtr 3 sel = true ∧
      storesThrough (protectedMem lay isr esp0 m) lay.gdtr sel = false := by
  have hkept : (isrCall c t (isr n) n err).seg .ds = c.seg .ds := by
    rw [isrCall_seg, Function.update_of_ne (by decide)]
    unfold Cpu.onStack
    split_ifs
    · rw [Cpu.setReg_seg, Cpu.setSeg_seg, if_neg (by decide)]
    · rfl
  refine ⟨hkept, ?_, fun sel hsel => ⟨?_, ?_⟩⟩
  · rw [loadsData_protected] at hds
    rw [hkept, storesThrough_protected]
    omega
  · rw [loadsData_protected]
    omega
  · rw [← Bool.not_eq_true, storesThrough_protected]
    omega

/-- A program that has loaded a null selector and calls the kernel. -/
def nullDataCpu : Cpu where
  reg := fun _ => 0
  seg := fun g => match g with
    | .cs => 0x1B
    | .ss => 0x23
    | _ => 0
  eflags := Flags.ofWord 0x202
  eip := 0x40000000
  mem := fun _ => 0

theorem handler_data_segment_null :
    storesThrough (protectedMem someTables (fun n => UInt32.ofNat (0x10400 + 8 * n)) 0x101000 (fun _ => 0))
      someTables.gdtr ((isrCall nullDataCpu ⟨0x101000, 0x10⟩ 0x10800 128 0).seg .ds).toNat = false := by
  have hload : loadsData (protectedMem someTables (fun n => UInt32.ofNat (0x10400 + 8 * n)) 0x101000
      (fun _ => 0)) someTables.gdtr 3 (nullDataCpu.seg .ds).toNat = true := rfl
  have h := handler_data_segment someTables (fun n => UInt32.ofNat (0x10400 + 8 * n)) 0x101000 (fun _ => 0)
    nullDataCpu ⟨0x101000, 0x10⟩ 128 0 hload
  have hno : ¬ (nullDataCpu.seg .ds).toNat / 4 = 8 := by decide
  simpa using mt h.2.1.1 hno

end Tables

end OctoOS
