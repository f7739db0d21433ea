import OctoOS.Heap
import OctoOS.Lib.Tiling
import Mathlib.Tactic.Ring

set_option autoImplicit false

/-! # The heap keeps a tiling

`Chained m p l` says that the header words in `m`, followed from pointer `p`, spell the block list
`l`. Each loop of `heap.c` is shown to compute the list operation of `Lib/Tiling.lean` on that
list; the invariant `Heap.Inv` and everything else about the heap then follows from the list
operations alone. -/

namespace OctoOS

open Atomic Tiling

/-! ## Running the header accesses -/

section Run

variable {α : Type}

@[simp] theorem run_load_bind (a : ℕ) (f : ℕ → Prog heapSig α) (m : HeapMem) :
    (load a >>= f).run heapHandler m = (f (m a)).run heapHandler m := rfl

@[simp] theorem run_store_bind (a v : ℕ) (f : Unit → Prog heapSig α) (m : HeapMem) :
    (store a v >>= f).run heapHandler m = (f ()).run heapHandler (Function.update m a v) := rfl

@[simp] theorem run_store (a v : ℕ) (m : HeapMem) :
    (store a v).run heapHandler m = .ok ((), Function.update m a v) := rfl

end Run

/-! ## Block lists in memory -/

/-- The word `b->free` of a block. -/
def freeWord (b : Blk) : ℕ := if b.used = true then 0 else 1

/-- The blocks linked from pointer `p` are `l`. -/
def Chained (m : HeapMem) : ℕ → List Blk → Prop
  | p, [] => p = 0
  | p, b :: bs => p ≠ 0 ∧ p = b.addr ∧ m p = b.size ∧ m (p + 4) = freeWord b ∧
      Chained m (m (p + 8)) bs

variable {b : Blk} {h : Heap} {m m' : HeapMem} {bs l : List Blk} {fuel hi lo p : ℕ}

/-- A chain survives in a memory that agrees on its headers. -/
theorem Chained.congr (h : Chained m p l)
    (hm : ∀ b ∈ l, ∀ a, b.addr ≤ a → a < b.addr + blockHeader → m' a = m a) : Chained m' p l := by
  induction l generalizing p with
  | nil => exact h
  | cons b bs ih =>
    obtain ⟨hp, rfl, hs, hf, hn⟩ := h
    have hb := hm b (List.mem_cons_self ..)
    unfold blockHeader at hb
    refine ⟨hp, rfl, ?_, ?_, ?_⟩
    · rw [hb _ (by omega) (by omega), hs]
    · rw [hb _ (by omega) (by omega), hf]
    · rw [hb _ (by omega) (by omega)]
      exact ih hn (fun c hc => hm c (List.mem_cons_of_mem _ hc))

/-- A chain behind address `lo` survives changes in front of it. -/
theorem Chained.congr_ge (h : Chained m p l) (ht : Tiles blockHeader lo l hi)
    (hm : ∀ a, lo ≤ a → m' a = m a) : Chained m' p l :=
  h.congr (fun _ hb a ha _ => hm a (le_trans (ht.mem_bounds hb).1 ha))

/-! ## `kmalloc` -/

/-- Every word that differs in `m'` lies in the block `b`. -/
def ChangedIn (b : Blk) (m m' : HeapMem) : Prop :=
  ∀ x, ¬ (b.addr ≤ x ∧ x + 4 ≤ b.fin blockHeader) → m' x = m x

theorem ChangedIn.of_lt (h : ChangedIn b m m') {x : ℕ} (hx : x < b.addr) : m' x = m x :=
  h x (by omega)

/-- The split turns the header at `b` into two headers and leaves the words outside `b` alone. -/
theorem kmallocSplit_run {size : ℕ} (hc : Chained m b.addr (b :: bs))
    (ht : Tiles blockHeader (b.fin blockHeader) bs hi) (hhi : hi < 2 ^ 32)
    (hfit : size + blockHeader + 8 ≤ b.size) (hu : b.used = false) :
    ∃ m', (kmallocSplit size b.addr).run heapHandler m = .ok ((), m') ∧
      Chained m' b.addr (⟨b.addr, size, false⟩ ::
        ⟨b.addr + blockHeader + size, b.size - size - blockHeader, false⟩ :: bs) ∧
      ChangedIn b m m' := by
  obtain ⟨hne, -, hsz, hfr, hnx⟩ := hc
  have hfin := ht.lo_le_hi
  simp only [Blk.fin, blockHeader] at hfin hfit
  have hrest : w32 (b.addr + blockHeader + size) = b.addr + 12 + size :=
    w32_eq (by unfold blockHeader; omega)
  have hsub : sub32 (sub32 b.size size) blockHeader = b.size - size - 12 := by
    have h1 : sub32 b.size size = b.size - size := sub32_eq (by omega) (by omega)
    rw [h1]
    exact sub32_eq (by unfold blockHeader; omega) (by omega)
  refine ⟨_, by simp only [kmallocSplit, run_load_bind, run_store_bind, run_store]; rfl, ?_, ?_⟩
  · simp only [hrest, hsz, hsub]
    refine ⟨hne, rfl, ?_, ?_, ?_⟩
    · simp (disch := omega) only [Function.update_of_ne, Function.update_self]
    · simp (disch := omega) only [Function.update_of_ne]
      simpa [freeWord, hu] using hfr
    · -- the new link, then the header of the rest, then the old tail behind it
      simp (disch := omega) only [Function.update_of_ne, Function.update_self]
      refine ⟨by omega, rfl, ?_, ?_, ?_⟩
      · simp (disch := omega) only [Function.update_of_ne, Function.update_self]
        rfl
      · simp (disch := omega) only [Function.update_of_ne, Function.update_self]
        rfl
      · simp (disch := omega) only [Function.update_of_ne, Function.update_self]
        refine hnx.congr_ge ht (fun a ha => ?_)
        simp only [Blk.fin, blockHeader] at ha
        simp (disch := omega) only [Function.update_of_ne]
  · intro x hx
    simp only [Blk.fin, blockHeader] at hx
    simp only [hrest]
    simp (disch := omega) only [Function.update_of_ne]

/-- The block list after `kmalloc` settles on the free block `b`. -/
def takeBlk (size : ℕ) (b : Blk) (bs : List Blk) : List Blk :=
  if size + blockHeader + 8 ≤ b.size then
    ⟨b.addr, size, true⟩ ::
      ⟨b.addr + blockHeader + size, b.size - size - blockHeader, false⟩ :: bs
  else ⟨b.addr, b.size, true⟩ :: bs

/-- Clearing the `free` word of the first block. -/
private theorem Chained.markUsed (hc : Chained m b.addr (b :: bs))
    (ht : Tiles blockHeader (b.fin blockHeader) bs hi) :
    Chained (Function.update m (b.addr + 4) 0) b.addr ({ b with used := true } :: bs) := by
  obtain ⟨hne, -, hsz, -, hnx⟩ := hc
  refine ⟨hne, rfl, ?_, ?_, ?_⟩
  · simpa (disch := omega) only [Function.update_of_ne] using hsz
  · simp only [Function.update_self]; rfl
  · simp (disch := omega) only [Function.update_of_ne]
    refine hnx.congr_ge ht (fun a ha => ?_)
    simp only [Blk.fin, blockHeader] at ha
    simp (disch := omega) only [Function.update_of_ne]

theorem kmallocTake_run {size : ℕ} (hc : Chained m b.addr (b :: bs))
    (ht : Tiles blockHeader (b.fin blockHeader) bs hi) (hhi : hi < 2 ^ 32) (hsize : size ≤ b.size)
    (hsmall : hi ≤ b.addr + heapMaxSize) (hu : b.used = false) :
    ∃ m', (kmallocTake size b.addr).run heapHandler m = .ok (b.addr + blockHeader, m') ∧
      Chained m' b.addr (takeBlk size b bs) ∧ ChangedIn b m m' := by
  have hfin := ht.lo_le_hi
  simp only [Blk.fin, blockHeader, heapMaxSize] at hfin hsmall
  have hptr : w32 (b.addr + blockHeader) = b.addr + blockHeader :=
    w32_eq (by unfold blockHeader; omega)
  have hthr : w32 (size + blockHeader + 8) = size + blockHeader + 8 :=
    w32_eq (by unfold blockHeader; omega)
  have hsz : m b.addr = b.size := hc.2.2.1
  unfold kmallocTake takeBlk
  simp only [run_load_bind, hsz, hthr, hptr]
  by_cases hfit : size + blockHeader + 8 ≤ b.size
  · obtain ⟨m1, hrun, hc1, hin⟩ := kmallocSplit_run hc ht hhi hfit hu
    rw [if_pos hfit, if_pos hfit, Prog.run_bind_ok heapHandler hrun]
    refine ⟨Function.update m1 (b.addr + 4) 0, rfl, ?_, fun x hx => ?_⟩
    · have hend : b.addr + blockHeader + size + blockHeader + (b.size - size - blockHeader)
          = b.fin blockHeader := by
        unfold Blk.fin blockHeader at *; omega
      have ht1 : Tiles blockHeader (b.addr + blockHeader + size)
          (⟨b.addr + blockHeader + size, b.size - size - blockHeader, false⟩ :: bs) hi :=
        ⟨rfl, by simpa only [Blk.fin, hend] using ht⟩
      exact Chained.markUsed (b := ⟨b.addr, size, false⟩) hc1 ht1
    · have hne : x ≠ b.addr + 4 := by
        unfold Blk.fin blockHeader at hx
        omega
      rw [Function.update_of_ne hne, hin x hx]
  · rw [if_neg hfit, if_neg hfit]
    refine ⟨Function.update m (b.addr + 4) 0, rfl, hc.markUsed ht, fun x hx => ?_⟩
    have hne : x ≠ b.addr + 4 := by
      unfold Blk.fin blockHeader at hx
      omega
    rw [Function.update_of_ne hne]

/-- The loop of `kmalloc` is first fit on the block list, and writes to the block it takes only. -/
theorem kmallocLoop_run (size : ℕ) (hc : Chained m p l) (ht : Tiles blockHeader lo l hi)
    (hhi : hi < 2 ^ 32) (hsmall : hi ≤ lo + heapMaxSize) (hfuel : l.length < fuel) :
    match alloc blockHeader 8 size l with
    | none => (kmallocLoop size fuel p).run heapHandler m = .ok (0, m)
    | some (a, l') => ∃ m', (kmallocLoop size fuel p).run heapHandler m
        = .ok (a + blockHeader, m') ∧ Chained m' p l' ∧
          ∃ f ∈ l, f.addr = a ∧ f.used = false ∧ ChangedIn f m m' := by
  induction l generalizing p lo fuel with
  | nil =>
    obtain ⟨fuel, rfl⟩ : ∃ n, fuel = n + 1 := ⟨fuel - 1, by omega⟩
    rw [show p = 0 from hc]
    rfl
  | cons b bs ih =>
    obtain ⟨fuel, rfl⟩ : ∃ n, fuel = n + 1 := ⟨fuel - 1, by omega⟩
    have hc' := hc
    obtain ⟨hne, rfl, hsz, hfr, hnx⟩ := hc'
    obtain ⟨rfl, ht'⟩ := ht
    have hfin := ht'.lo_le_hi
    have hloop : (kmallocLoop size (fuel + 1) b.addr).run heapHandler m =
        if b.used = true ∨ b.size < size then
          (kmallocLoop size fuel (m (b.addr + 8))).run heapHandler m
        else (kmallocTake size b.addr).run heapHandler m := by
      rw [kmallocLoop, if_neg hne]
      simp only [run_load_bind, hfr, freeWord]
      by_cases h1 : b.used = true
      · simp [h1]
      · by_cases h2 : b.size < size
        · simp [h1, h2, hsz]
        · simp [h1, h2, hsz]
    rw [hloop, alloc]
    by_cases hskip : b.used = true ∨ b.size < size
    · -- a used or small block: its header lies in front of everything the rest changes
      rw [if_pos hskip, if_pos hskip]
      have hrec := ih hnx ht' (by unfold Blk.fin; omega) (Nat.lt_of_succ_lt_succ hfuel)
      cases hal : alloc blockHeader 8 size bs with
      | none => simpa [hal] using hrec
      | some r =>
        rw [hal] at hrec
        obtain ⟨m', hrun, hch, f, hf, hfa, hfu, hin⟩ := hrec
        have hlow : ∀ x < b.addr + blockHeader, m' x = m x := by
          intro x hx
          have hbf := (ht'.mem_bounds hf).1
          unfold Blk.fin at hbf
          exact hin.of_lt (by omega)
        unfold blockHeader at hlow
        refine ⟨m', hrun, ⟨hne, rfl, ?_, ?_, ?_⟩, f, List.mem_cons_of_mem _ hf, hfa, hfu, hin⟩
        · rw [hlow _ (by omega), hsz]
        · rw [hlow _ (by omega), hfr]
        · rw [hlow _ (by omega)]; exact hch
    · rw [if_neg hskip, if_neg hskip]
      simp only [not_or, Bool.not_eq_true, not_lt] at hskip
      obtain ⟨m', hrun, hch, hin⟩ := kmallocTake_run hc ht' hhi hskip.2 hsmall hskip.1
      have hb : ∃ f ∈ b :: bs, f.addr = b.addr ∧ f.used = false ∧ ChangedIn f m m' :=
        ⟨b, List.mem_cons_self .., rfl, hskip.1, hin⟩
      rw [takeBlk] at hch
      split_ifs at hch ⊢ with hfit
      · exact ⟨m', hrun, hch, hb⟩
      · exact ⟨m', hrun, hch, hb⟩

/-! ## `kfree` -/

/-- One round of the inner loop: `a` takes over the free block behind it. -/
private theorem Chained.mergeNext {a : Blk} (hc : Chained m a.addr (a :: b :: bs))
    (ht : Tiles blockHeader (a.fin blockHeader) (b :: bs) hi) (ha : a.used = false) :
    Chained (Function.update (Function.update m a.addr (a.size + (blockHeader + b.size)))
        (a.addr + 8) (m (b.addr + 8))) a.addr
      (⟨a.addr, a.size + (blockHeader + b.size), false⟩ :: bs) := by
  obtain ⟨hne, -, -, hfr, -, hnx, -, -, hch⟩ := hc
  obtain ⟨hb, ht'⟩ := ht
  simp only [Blk.fin, blockHeader] at hb
  refine ⟨hne, rfl, ?_, ?_, ?_⟩
  · simp (disch := omega) only [Function.update_of_ne, Function.update_self]
  · simp (disch := omega) only [Function.update_of_ne]
    rw [hfr]
    simp [freeWord, ha]
  · simp only [Function.update_self]
    rw [hnx] at hch
    refine hch.congr_ge ht' (fun x hx => ?_)
    simp only [Blk.fin, blockHeader] at hx
    simp (disch := omega) only [Function.update_of_ne]

theorem kfreeMerge_run {a : Blk} (hc : Chained m a.addr (a :: bs))
    (ht : Tiles blockHeader (a.fin blockHeader) bs hi) (hhi : hi < 2 ^ 32)
    (hfuel : bs.length < fuel) :
    ∃ m', (kfreeMerge a.addr fuel).run heapHandler m = .ok ((), m') ∧
      Chained m' a.addr ((absorb blockHeader a bs).1 :: (absorb blockHeader a bs).2) ∧
      ∀ x < a.addr, m' x = m x := by
  induction bs generalizing a m fuel with
  | nil =>
    obtain ⟨fuel, rfl⟩ : ∃ n, fuel = n + 1 := ⟨fuel - 1, by omega⟩
    refine ⟨m, ?_, hc, fun _ _ => rfl⟩
    obtain ⟨-, -, -, -, hnx⟩ := hc
    rw [kfreeMerge]
    simp only [run_load_bind, Prog.run_ite, show m (a.addr + 8) = 0 from hnx]
    split_ifs <;> rfl
  | cons b bs ih =>
    obtain ⟨fuel, rfl⟩ : ∃ n, fuel = n + 1 := ⟨fuel - 1, by omega⟩
    have hc' := hc
    obtain ⟨hne, -, hsz, hfr, hbne, hnx, hbsz, hbfr, hch⟩ := hc'
    rw [hnx] at hbne hbsz hbfr hch
    rw [absorb]
    by_cases hu : a.used = true ∨ b.used = true
    · rw [if_pos hu]
      refine ⟨m, ?_, hc, fun _ _ => rfl⟩
      rw [kfreeMerge]
      simp only [run_load_bind, Prog.run_ite, hfr, hnx, hbfr, freeWord]
      by_cases hau : a.used = true
      · simp [hau]
      · simp [hau, hu.resolve_left hau, hbne]
    · rw [if_neg hu]
      simp only [not_or, Bool.not_eq_true] at hu
      have hmerge := hc.mergeNext ht hu.1
      obtain ⟨hb, ht'⟩ := ht
      have hfin := ht'.lo_le_hi
      simp only [Blk.fin, blockHeader] at hb hfin
      have hw : w32 (a.size + (blockHeader + b.size)) = a.size + (blockHeader + b.size) :=
        w32_eq (by unfold blockHeader; omega)
      have hstep : (kfreeMerge a.addr (fuel + 1)).run heapHandler m =
          (kfreeMerge a.addr fuel).run heapHandler
            (Function.update (Function.update m a.addr (a.size + (blockHeader + b.size)))
              (a.addr + 8) (m (b.addr + 8))) := by
        rw [kfreeMerge]
        simp only [run_load_bind, hfr, hnx, freeWord, hu.1, Bool.false_eq_true, if_false,
          one_ne_zero, hbne, hbfr, hu.2, run_store_bind, hsz, hbsz, hw]
        rw [Function.update_of_ne (by omega)]
      have hT : Tiles blockHeader
          (Blk.fin blockHeader ⟨a.addr, a.size + (blockHeader + b.size), false⟩) bs hi := by
        have hend : a.addr + blockHeader + (a.size + (blockHeader + b.size))
            = b.fin blockHeader := by
          unfold Blk.fin blockHeader; omega
        simpa only [Blk.fin, hend] using ht'
      obtain ⟨m', hrun, hch', hlow⟩ := ih hmerge hT (Nat.lt_of_succ_lt_succ hfuel)
      refine ⟨m', hstep.trans hrun, hch', fun x hx => ?_⟩
      rw [hlow x hx, Function.update_of_ne (by omega), Function.update_of_ne (by omega)]

/-- The merging pass of `kfree`. The induction is on a bound of the list's length: a round of the
    outer loop goes on behind all the blocks it merged. -/
theorem kfreeLoop_run {n : ℕ} (hc : Chained m p l) (ht : Tiles blockHeader lo l hi)
    (hhi : hi < 2 ^ 32) (hn : l.length ≤ n) (hfuel : n < fuel) (hlen : l.length < heapLoopBound) :
    ∃ m', (kfreeLoop fuel p).run heapHandler m = .ok ((), m') ∧
      Chained m' p (coalesce blockHeader l) ∧ ∀ x < lo, m' x = m x := by
  induction n generalizing l m p lo fuel with
  | zero =>
    obtain ⟨fuel, rfl⟩ : ∃ k, fuel = k + 1 := ⟨fuel - 1, by omega⟩
    obtain rfl : l = [] := List.eq_nil_of_length_eq_zero (by omega)
    exact ⟨m, by rw [show p = 0 from hc]; rfl, hc, fun _ _ => rfl⟩
  | succ n ih =>
    obtain ⟨fuel, rfl⟩ : ∃ k, fuel = k + 1 := ⟨fuel - 1, by omega⟩
    cases l with
    | nil => exact ⟨m, by rw [show p = 0 from hc]; rfl, hc, fun _ _ => rfl⟩
    | cons a bs =>
      obtain rfl : p = a.addr := hc.2.1
      obtain ⟨rfl, ht'⟩ := ht
      simp only [List.length_cons] at hn hlen
      have hmlen : bs.length < heapLoopBound := by omega
      obtain ⟨m1, hrun1, hc1, hlow1⟩ := kfreeMerge_run hc ht' hhi hmlen
      obtain ⟨haddr, ht1⟩ := absorb_tiles ht'
      have hle := absorb_length_le (H := blockHeader) a bs
      rw [coalesce_cons_absorb]
      generalize hab : absorb blockHeader a bs = r at *
      obtain ⟨a', bs'⟩ := r
      simp only at haddr ht1 hle hc1 ⊢
      obtain ⟨hne, -, hsz, hfr, hnx⟩ := hc1
      obtain ⟨m2, hrun2, hc2, hlow2⟩ := ih hnx ht1 (by omega) (Nat.lt_of_succ_lt_succ hfuel)
        (by omega)
      simp only [Blk.fin, blockHeader] at hlow2
      refine ⟨m2, ?_, ⟨hne, haddr.symm, ?_, ?_, ?_⟩, fun x hx => ?_⟩
      · rw [kfreeLoop, if_neg hne, Prog.run_bind_ok heapHandler hrun1, run_load_bind]
        exact hrun2
      · rw [hlow2 _ (by omega), hsz]
      · rw [hlow2 _ (by omega), hfr]
      · rw [hlow2 _ (by omega)]; exact hc2
      · rw [hlow2 _ (by omega), hlow1 x hx]

/-- Setting the `free` word of the block at `addr`, whose header meets no other one. -/
private theorem Chained.release {addr : ℕ} (hc : Chained m p l)
    (hsep : ∀ b ∈ l, b.addr = addr ∨ addr + blockHeader ≤ b.addr ∨ b.addr + blockHeader ≤ addr) :
    Chained (Function.update m (addr + 4) 1) p (Tiling.release addr l) := by
  induction l generalizing p with
  | nil => exact hc
  | cons c cs ih =>
    obtain ⟨hne, rfl, hsz, hfr, hnx⟩ := hc
    have hrest := ih hnx (fun b hb => hsep b (List.mem_cons_of_mem _ hb))
    have hcs := hsep c (List.mem_cons_self ..)
    unfold blockHeader at hcs
    simp only [Tiling.release, List.map_cons] at hrest ⊢
    by_cases hca : c.addr = addr
    · subst hca
      rw [if_pos rfl]
      refine ⟨hne, rfl, ?_, ?_, ?_⟩
      · rw [Function.update_of_ne (by omega), hsz]
      · rw [Function.update_self]; rfl
      · rw [Function.update_of_ne (by omega)]; exact hrest
    · rw [if_neg hca]
      refine ⟨hne, rfl, ?_, ?_, ?_⟩
      · rw [Function.update_of_ne (by omega), hsz]
      · rw [Function.update_of_ne (by omega), hfr]
      · rw [Function.update_of_ne (by omega)]; exact hrest

/-! ## The invariant -/

/-- The header words spell the block list `l`, and `l` tiles the heap region without
    neighbouring free blocks. -/
structure Heap.Inv (h : Heap) (l : List Blk) : Prop where
  chained : Chained h.mem h.head l
  tiles : Tiles blockHeader h.head l (h.head + h.total)
  separated : Separated l
  head_ne : h.head ≠ 0
  noWrap : h.head + h.total < 2 ^ 32
  small : h.total ≤ heapMaxSize

theorem Heap.Inv.length_lt (hI : h.Inv l) : l.length < heapLoopBound := by
  have hsum : l.length * blockHeader ≤ (l.map (fun b => blockHeader + b.size)).sum := by
    clear hI
    induction l with
    | nil => simp
    | cons b bs ih =>
      rw [List.map_cons, List.sum_cons, List.length_cons, Nat.add_mul, Nat.one_mul]
      omega
  have := hI.tiles.sum_eq
  have := hI.small
  unfold blockHeader heapMaxSize heapLoopBound at *
  omega

/-- `kmalloc` is first fit on the block list, or fails and changes nothing. -/
theorem Heap.kmalloc_spec (hI : h.Inv l) (size : ℕ) :
    (size ≠ 0 ∧ ∃ a l' m', alloc blockHeader 8 (alignUp size) l = some (a, l') ∧
      h.kmalloc size = .ok (a + blockHeader, { h with mem := m' }) ∧
      ({ h with mem := m' } : Heap).Inv l') ∨
    ((size = 0 ∨ alloc blockHeader 8 (alignUp size) l = none) ∧ h.kmalloc size = .ok (0, h)) := by
  by_cases hs : size = 0
  · refine Or.inr ⟨Or.inl hs, ?_⟩
    simp [Heap.kmalloc, kmallocProg, hs, Except.map]
  have hrun := kmallocLoop_run (alignUp size) hI.chained hI.tiles hI.noWrap
    (Nat.add_le_add_left hI.small _) hI.length_lt
  have hprog : kmallocProg h.head size = kmallocLoop (alignUp size) heapLoopBound h.head := by
    simp [kmallocProg, hs, hI.head_ne]
  cases hal : alloc blockHeader 8 (alignUp size) l with
  | none =>
    rw [hal] at hrun
    refine Or.inr ⟨Or.inr rfl, ?_⟩
    rw [Heap.kmalloc, hprog, hrun]
    rfl
  | some r =>
    obtain ⟨a, l'⟩ := r
    rw [hal] at hrun
    obtain ⟨m', hrun, hch, -⟩ := hrun
    refine Or.inl ⟨hs, a, l', m', rfl, ?_, ?_⟩
    · rw [Heap.kmalloc, hprog, hrun]
      rfl
    · exact ⟨hch, alloc_tiles hI.tiles hal, alloc_separated hI.separated hal, hI.head_ne,
        hI.noWrap, hI.small⟩

/-- `kfree` of the payload of a used block releases it and merges the free runs. -/
theorem Heap.kfree_spec (hI : h.Inv l) (hb : b ∈ usedOf l) :
    ∃ m', h.kfree (b.addr + blockHeader) = .ok { h with mem := m' } ∧
      ({ h with mem := m' } : Heap).Inv (coalesce blockHeader (release b.addr l)) := by
  have hbl : b ∈ l := (List.mem_filter.1 hb).1
  have hbd := hI.tiles.mem_bounds hbl
  have hnw := hI.noWrap
  have hsep : ∀ c ∈ l, c.addr = b.addr ∨ b.addr + blockHeader ≤ c.addr ∨
      c.addr + blockHeader ≤ b.addr := by
    intro c hc
    by_cases hcb : c = b
    · exact Or.inl (by rw [hcb])
    · have := hI.tiles.disjoint hc hbl hcb
      unfold Blk.fin at this
      omega
  have hlen : (release b.addr l).length < heapLoopBound := by
    simpa [release] using hI.length_lt
  have hT : Tiles blockHeader h.head (release b.addr l) (h.head + h.total) :=
    release_tiles hI.tiles
  obtain ⟨m', hrun, hch, -⟩ := kfreeLoop_run (hI.chained.release hsep) hT hI.noWrap
    (le_refl _) hlen hlen
  refine ⟨m', ?_, hch, coalesce_tiles hT, coalesce_separated _, hI.head_ne, hI.noWrap, hI.small⟩
  have hptr : sub32 (b.addr + blockHeader) blockHeader = b.addr := by
    unfold Blk.fin at hbd
    rw [sub32_eq (by omega) (by omega)]
    omega
  have hprog : (kfreeProg h.head (b.addr + blockHeader)).run heapHandler h.mem =
      (kfreeLoop heapLoopBound h.head).run heapHandler (Function.update h.mem (b.addr + 4) 1) := by
    rw [kfreeProg, if_neg (by unfold blockHeader; omega), hptr]
    rfl
  rw [Heap.kfree, hprog, hrun]
  rfl

theorem Heap.kfree_null (h : Heap) : h.kfree 0 = .ok h := rfl

/-! ## `heap_get_stats` -/

/-- One round of the statistics loop, without wrap-around. -/
def HeapStats.count (st : HeapStats) (b : Blk) : HeapStats :=
  if b.used = true then { st with blocks := st.blocks + 1, used := st.used + b.size }
  else { st with
    blocks := st.blocks + 1, free := st.free + b.size,
    largestFree := if st.largestFree < b.size then b.size else st.largestFree }

/-- The bytes a statistics record accounts for. -/
def HeapStats.bytes (st : HeapStats) : ℕ := st.used + st.free + blockHeader * st.blocks

theorem HeapStats.bytes_count (st : HeapStats) (b : Blk) :
    (st.count b).bytes = st.bytes + (blockHeader + b.size) := by
  unfold HeapStats.count HeapStats.bytes
  split_ifs <;> simp only [] <;> ring

theorem HeapStats.bytes_foldl (l : List Blk) (st : HeapStats) :
    (l.foldl HeapStats.count st).bytes = st.bytes + (l.map (fun b => blockHeader + b.size)).sum := by
  induction l generalizing st with
  | nil => rfl
  | cons b bs ih =>
    rw [List.foldl_cons, ih, HeapStats.bytes_count, List.map_cons, List.sum_cons]
    ring

theorem heapStatsLoop_run {l : List Blk} {m : HeapMem} {p fuel : ℕ} {st : HeapStats}
    (hc : Chained m p l) (hfuel : l.length < fuel)
    (hsum : st.bytes + (l.map (fun b => blockHeader + b.size)).sum < 2 ^ 32) :
    (heapStatsLoop fuel p st).run heapHandler m = .ok (l.foldl HeapStats.count st, m) := by
  induction l generalizing p fuel st with
  | nil =>
    obtain ⟨fuel, rfl⟩ : ∃ n, fuel = n + 1 := ⟨fuel - 1, by omega⟩
    rw [show p = 0 from hc]
    rfl
  | cons b bs ih =>
    obtain ⟨fuel, rfl⟩ : ∃ n, fuel = n + 1 := ⟨fuel - 1, by omega⟩
    obtain ⟨hne, rfl, hsz, hfr, hnx⟩ := hc
    have hcount := HeapStats.bytes_count st b
    rw [List.map_cons, List.sum_cons] at hsum
    have hrec := @ih _ _ (st.count b) hnx (Nat.lt_of_succ_lt_succ hfuel) (by omega)
    rw [List.foldl_cons, ← hrec, heapStatsLoop, if_neg hne]
    have hblocks : w32 (st.blocks + 1) = st.blocks + 1 :=
      w32_eq (by unfold HeapStats.bytes blockHeader at hsum; omega)
    have hused : w32 (st.used + b.size) = st.used + b.size :=
      w32_eq (by unfold HeapStats.bytes at hsum; omega)
    have hfree : w32 (st.free + b.size) = st.free + b.size :=
      w32_eq (by unfold HeapStats.bytes at hsum; omega)
    simp only [run_load_bind, hsz, hfr, freeWord, HeapStats.count]
    by_cases hu : b.used = true
    · simp [hu, hblocks, hused]
    · simp [hu, hblocks, hfree]

/-- The statistics account for every byte of the region. -/
theorem Heap.getStats_spec (hI : h.Inv l) :
    ∃ st, h.getStats = .ok st ∧ st.total = h.total ∧
      st.used + st.free + blockHeader * st.blocks = st.total := by
  have hsum := hI.tiles.sum_eq
  have hnw := hI.noWrap
  have hrun := @heapStatsLoop_run _ _ _ _ ⟨h.total, 0, 0, 0, 0⟩ hI.chained hI.length_lt
    (by simp only [HeapStats.bytes]; omega)
  have htotal : ∀ (l : List Blk) (st : HeapStats), (l.foldl HeapStats.count st).total = st.total := by
    intro l
    induction l with
    | nil => intro st; rfl
    | cons b bs ih =>
      intro st
      rw [List.foldl_cons, ih]
      unfold HeapStats.count
      split_ifs <;> rfl
  refine ⟨_, by rw [Heap.getStats, hrun]; rfl, htotal _ _, ?_⟩
  have := HeapStats.bytes_foldl l ⟨h.total, 0, 0, 0, 0⟩
  rw [htotal]
  simp only [HeapStats.bytes] at this ⊢
  omega

/-! ## `heap_init` -/

/-- The region `heap_init` picks gives the single free block, when it exists, can hold a header
    and does not wrap. -/
theorem heapInit_inv {map : List E820Entry} {mem : HeapMem} {h : Heap} (hh : heapInit map mem = h)
    (hhead : h.head ≠ 0) (hsize : blockHeader ≤ h.total) (hwrap : h.head + h.total < 2 ^ 32) :
    h.Inv [⟨h.head, h.total - blockHeader, false⟩] := by
  unfold heapInit at hh
  simp only at hh
  by_cases hlen : (e820Best map).2 = 0
  · rw [if_pos hlen] at hh
    subst hh
    exact absurd rfl hhead
  · rw [if_neg hlen] at hh
    have htot : h.total ≤ heapMaxSize := by
      subst hh
      refine le_trans (Nat.mod_le _ _) ?_
      split_ifs <;> omega
    have hsub : sub32 h.total blockHeader = h.total - blockHeader :=
      sub32_eq hsize (by omega)
    refine ⟨?_, ⟨rfl, ?_⟩, List.isChain_singleton _, hhead, hwrap, htot⟩
    · rw [← hsub]
      refine ⟨hhead, rfl, ?_, ?_, ?_⟩
      all_goals subst hh
      · simp (disch := omega) only [Function.update_of_ne, Function.update_self]
      · simp (disch := omega) only [Function.update_of_ne, Function.update_self]
        rfl
      · simp only [Function.update_self]
        rfl
    · unfold Blk.fin
      simp only [Tiles]
      omega

end OctoOS
