import OctoOS.Heap.Proofs
import OctoOS.Lib.Defined
import Mathlib.Data.List.Nodup

set_option autoImplicit false

/-! # Whole runs of the allocator

A run is any sequence of `kmalloc` and `kfree` calls, starting from the block `heap_init` builds;
next to the heap it carries the pointers that were handed out and not freed yet. `HeapSound`
collects what holds in every state of a run. The last section gives the heap as its block list,
the form in which its users see it. -/

namespace OctoOS

open Atomic Tiling

/-- The states reachable from `h₀`, with the live pointers: those handed out and not freed yet, one
    entry for every answer of `kmalloc`. -/
inductive HeapRun (h₀ : Heap) : Heap → List ℕ → Prop where
  | init : HeapRun h₀ h₀ []
  | kmalloc {h h' : Heap} {live : List ℕ} {size p : ℕ} : HeapRun h₀ h live → size < 2 ^ 32 →
      h.kmalloc size = .ok (p, h') → HeapRun h₀ h' (if p = 0 then live else p :: live)
  | kfree {h h' : Heap} {live : List ℕ} {p : ℕ} : HeapRun h₀ h live → p = 0 ∨ p ∈ live →
      h.kfree p = .ok h' → HeapRun h₀ h' (live.erase p)

/-- The live pointers are the payloads of the used blocks of `l`, and nobody shares one. -/
structure LiveBlocks (l : List Blk) (live : List ℕ) : Prop where
  nodup : live.Nodup
  mem_iff : ∀ p, p ∈ live ↔ ∃ b ∈ usedOf l, p = b.addr + blockHeader

variable {b : Blk} {h : Heap} {l : List Blk} {live : List ℕ} {p size : ℕ}

theorem LiveBlocks.initial (hb : b.used = false) : LiveBlocks [b] [] :=
  ⟨List.nodup_nil, fun p => by simp [usedOf, hb]⟩

/-- The block list of a memory is unique. -/
theorem Chained.unique {m : HeapMem} {l' : List Blk} (h : Chained m p l) (h' : Chained m p l') :
    l = l' := by
  induction l generalizing p l' with
  | nil =>
    cases l' with
    | nil => rfl
    | cons c cs => exact absurd h h'.1
  | cons b bs ih =>
    cases l' with
    | nil => exact absurd h' h.1
    | cons c cs =>
      obtain ⟨-, hb, hs, hf, hn⟩ := h
      obtain ⟨-, hc, hs', hf', hn'⟩ := h'
      have hu : b.used = c.used := by
        have hw := hf.symm.trans hf'
        unfold freeWord at hw
        cases hbu : b.used <;> cases hcu : c.used <;> simp [hbu, hcu] at hw ⊢
      obtain ⟨ba, bs', bu⟩ := b
      obtain ⟨ca, cs', cu⟩ := c
      simp only at hb hs hc hs' hu
      rw [ih hn hn', ← hb, ← hc, ← hs, ← hs', hu]

/-- One `kmalloc` keeps the invariant and adds its result to the live pointers. -/
theorem Heap.kmalloc_live {h' : Heap} (hI : h.Inv l) (hL : LiveBlocks l live)
    (hk : h.kmalloc size = .ok (p, h')) :
    ∃ l', h'.Inv l' ∧ h'.head = h.head ∧ h'.total = h.total ∧
      LiveBlocks l' (if p = 0 then live else p :: live) := by
  rcases Heap.kmalloc_spec hI size with ⟨-, a, l', m', hal, hres, hI'⟩ | ⟨-, hres⟩
  · rw [hres] at hk
    cases hk
    obtain ⟨n, hna, -, -, ⟨f, hf, hfa, hfu⟩, hmem⟩ := alloc_used hal
    rw [if_neg (by unfold blockHeader; omega)]
    refine ⟨l', hI', rfl, rfl, List.nodup_cons.2 ⟨fun hin => ?_, hL.nodup⟩, fun q => ?_⟩
    · -- the block was free, so it is nobody's
      obtain ⟨b, hb, hba⟩ := (hL.mem_iff _).1 hin
      obtain ⟨hbl, hbu⟩ := List.mem_filter.1 hb
      obtain rfl := hI.tiles.eq_of_addr_eq (by decide) hbl hf (by omega)
      rw [hfu] at hbu
      cases hbu
    rw [List.mem_cons, hL.mem_iff q]
    constructor
    · rintro (rfl | ⟨b, hb, rfl⟩)
      · exact ⟨n, (hmem n).2 (Or.inl rfl), by rw [hna]⟩
      · exact ⟨b, (hmem b).2 (Or.inr hb), rfl⟩
    · rintro ⟨b, hb, rfl⟩
      rcases (hmem b).1 hb with rfl | hb'
      · exact Or.inl (by rw [hna])
      · exact Or.inr ⟨b, hb', rfl⟩
  · rw [hres] at hk
    cases hk
    exact ⟨l, hI, rfl, rfl, by simpa using hL⟩

/-- One `kfree` of a live pointer keeps the invariant and removes the pointer. -/
theorem Heap.kfree_live (hI : h.Inv l) (hL : LiveBlocks l live) (hp : p ∈ live) :
    ∃ h' l', h.kfree p = .ok h' ∧ h'.Inv l' ∧ h'.head = h.head ∧ h'.total = h.total ∧
      LiveBlocks l' (live.erase p) := by
  obtain ⟨b, hb, rfl⟩ := (hL.mem_iff p).1 hp
  obtain ⟨m', hres, hI'⟩ := Heap.kfree_spec hI hb
  refine ⟨_, _, hres, hI', rfl, rfl, hL.nodup.erase _, fun q => ?_⟩
  rw [hL.nodup.mem_erase_iff, hL.mem_iff q, usedOf_coalesce]
  constructor
  · rintro ⟨hne, c, hc, rfl⟩
    exact ⟨c, mem_usedOf_release.2 ⟨hc, fun hcb => hne (by rw [hcb])⟩, rfl⟩
  · rintro ⟨c, hc, rfl⟩
    obtain ⟨hc', hne⟩ := mem_usedOf_release.1 hc
    exact ⟨by omega, c, hc', rfl⟩

/-- The invariant along a whole run. -/
theorem HeapRun.inv {h₀ : Heap} {l0 : List Blk} (hI : h₀.Inv l0) (hL : LiveBlocks l0 [])
    (hrun : HeapRun h₀ h live) :
    ∃ l, h.Inv l ∧ h.head = h₀.head ∧ h.total = h₀.total ∧ LiveBlocks l live := by
  induction hrun with
  | init => exact ⟨l0, hI, rfl, rfl, hL⟩
  | kmalloc _ _ hk ih =>
    obtain ⟨l, hl, hh, ht, hlive⟩ := ih
    obtain ⟨l', hl', hh', ht', hlive'⟩ := Heap.kmalloc_live hl hlive hk
    exact ⟨l', hl', hh'.trans hh, ht'.trans ht, hlive'⟩
  | kfree _ hp hk ih =>
    obtain ⟨l, hl, hh, ht, hlive⟩ := ih
    have hzero : 0 ∉ ‹List ℕ› := fun h0 => by
      obtain ⟨b, -, hb⟩ := (hlive.mem_iff 0).1 h0
      unfold blockHeader at hb
      omega
    rcases hp with rfl | hp
    · rw [Heap.kfree_null, Except.ok.injEq] at hk
      subst hk
      exact ⟨l, hl, hh, ht, by rwa [List.erase_of_not_mem hzero]⟩
    · obtain ⟨h', l', hres, hl', hh', ht', hlive'⟩ := Heap.kfree_live hl hlive hp
      rw [hres, Except.ok.injEq] at hk
      subst hk
      exact ⟨l', hl', hh'.trans hh, ht'.trans ht, hlive'⟩

/-- The single free block of a fresh heap. -/
def initialBlock (h₀ : Heap) : Blk := ⟨h₀.head, h₀.total - blockHeader, false⟩

/-- What holds in every state of a run from `h₀`; `l` is the list from `heap_head`. -/
structure HeapSound (h₀ h : Heap) (live : List ℕ) (l : List Blk) : Prop where
  /-- Following `next` from `heap_head` spells `l`. -/
  list : Chained h.mem h.head l
  /-- `heap_head` and `heap_total` are those of `heap_init`. -/
  region : h.head = h₀.head ∧ h.total = h₀.total
  /-- Each block ends where the next one starts, the last one at the end of the region. -/
  tiles : Tiles blockHeader h₀.head l (h₀.head + h₀.total)
  /-- No block reaches the end of the 32-bit space. -/
  noWrap : ∀ b ∈ l, b.fin blockHeader < 2 ^ 32
  separated : Separated l
  /-- No pointer was handed out twice, and the used blocks are those of the live pointers. -/
  liveBlocks : LiveBlocks l live
  /-- A live payload meets no other block, header included. -/
  disjoint : ∀ b ∈ usedOf l, ∀ c ∈ l, c ≠ b →
    c.fin blockHeader ≤ b.addr + blockHeader ∨ b.fin blockHeader ≤ c.addr
  stats : ∃ st, h.getStats = .ok st ∧ st.total = h₀.total ∧
    st.used + st.free + blockHeader * st.blocks = st.total
  /-- Every call that may come next returns. -/
  returns : (∀ size, ∃ p h', h.kmalloc size = .ok (p, h')) ∧
    ∀ p, p = 0 ∨ p ∈ live → ∃ h', h.kfree p = .ok h'
  /-- The list is determined by the live blocks. -/
  determined : ∀ h' live' l', HeapRun h₀ h' live' → Chained h'.mem h'.head l' →
    (∀ b, b ∈ usedOf l' ↔ b ∈ usedOf l) → l' = l
  drained : live = [] → l = [initialBlock h₀]

/-- **The allocator is sound along every run.** -/
theorem heapRun_sound {map : List E820Entry} {mem : HeapMem} {h0 h : Heap} {live : List ℕ}
    (hinit : heapInit map mem = h0) (hhead : h0.head ≠ 0) (hsize : blockHeader ≤ h0.total)
    (hwrap : h0.head + h0.total < 2 ^ 32) (hrun : HeapRun h0 h live) :
    ∃ l, HeapSound h0 h live l := by
  have hI0 : h0.Inv [initialBlock h0] := heapInit_inv hinit hhead hsize hwrap
  have hL0 : LiveBlocks [initialBlock h0] [] := LiveBlocks.initial rfl
  obtain ⟨l, hI, hh, ht, hlive⟩ := hrun.inv hI0 hL0
  have hT : Tiles blockHeader h0.head l (h0.head + h0.total) := by
    have := hI.tiles
    rwa [hh, ht] at this
  refine ⟨l, hI.chained, ⟨hh, ht⟩, hT, fun b hb => ?_, hI.separated, hlive, fun b hb c hc hcb => ?_,
    ?_, ⟨fun size => ?_, fun p hp => ?_⟩, fun h' live' l' hrun' hch hused => ?_, fun hnil => ?_⟩
  · exact lt_of_le_of_lt (hT.mem_bounds hb).2 hwrap
  · have := hT.disjoint hc (List.mem_filter.1 hb).1 hcb
    omega
  · obtain ⟨st, hst, htot, hsum⟩ := Heap.getStats_spec hI
    exact ⟨st, hst, htot.trans ht, hsum⟩
  · rcases Heap.kmalloc_spec hI size with ⟨-, a, l', m', -, hres, -⟩ | ⟨-, hres⟩
    · exact ⟨_, _, hres⟩
    · exact ⟨_, _, hres⟩
  · rcases hp with rfl | hp
    · exact ⟨h, Heap.kfree_null h⟩
    · obtain ⟨h', -, hres, -⟩ := Heap.kfree_live hI hlive hp
      exact ⟨h', hres⟩
  · obtain ⟨l'', hI', hh', ht', -⟩ := hrun'.inv hI0 hL0
    obtain rfl : l' = l'' := hch.unique hI'.chained
    have hT' := hI'.tiles
    rw [hh', ht'] at hT'
    exact hT'.eq_of_used_eq (by decide) hT hI'.separated hI.separated hused
  · refine hT.eq_of_used_eq (by decide) ?_ hI.separated hI0.separated (fun b => ?_)
    · exact hI0.tiles
    · constructor
      · intro hb
        have := (hlive.mem_iff _).2 ⟨b, hb, rfl⟩
        rw [hnil] at this
        cases this
      · intro hb
        exact absurd hb (by simp [usedOf, initialBlock])

/-- A map with one usable entry of 4 KiB at 1 MiB. -/
def smallMap : List E820Entry := [⟨0x100000, 0x1000, 1⟩]

/-- Three blocks on a heap of 4 KiB, and the one in the middle freed again. -/
theorem smallMap_gap : ∃ h, HeapRun (heapInit smallMap (fun _ => 0)) h [0x1000C4, 0x10000C] := by
  have hres : ((heapInit smallMap (fun _ => 0)).kmalloc 100 >>= fun r1 => r1.2.kmalloc 50 >>= fun r2 =>
      r2.2.kmalloc 20 >>= fun r3 => r3.2.kfree r2.1 >>= fun _ => .ok (r1.1, r2.1, r3.1))
      = .ok (0x10000C, 0x100080, 0x1000C4) := by decide +kernel
  obtain ⟨⟨p1, h1⟩, hk1, hres⟩ := ok_of_bind hres
  obtain ⟨⟨p2, h2⟩, hk2, hres⟩ := ok_of_bind hres
  obtain ⟨⟨p3, h3⟩, hk3, hres⟩ := ok_of_bind hres
  obtain ⟨h, hk, hres⟩ := ok_of_bind hres
  cases hres
  exact ⟨h, .kfree (.kmalloc (.kmalloc (.kmalloc .init (by decide) hk1) (by decide) hk2) (by decide)
    hk3) (.inr (by simp)) hk⟩

/-- Two of them are live, with the freed block between them. -/
theorem heapRun_sound_smallMap : ∃ h, HeapRun (heapInit smallMap (fun _ => 0)) h [0x1000C4, 0x10000C] ∧
    ∃ l, HeapSound (heapInit smallMap (fun _ => 0)) h [0x1000C4, 0x10000C] l := by
  obtain ⟨h, hrun⟩ := smallMap_gap
  exact ⟨h, hrun, heapRun_sound rfl (by decide) (by decide) (by decide) hrun⟩

/-! ## The heap as its block list -/

open Classical in
/-- The block list of a heap: empty when `heap_init` found no region, `none` for a heap that no
    run reaches. -/
noncomputable def Heap.blocks (h : Heap) : Option (List Blk) :=
  if h.head = 0 then some []
  else if hl : ∃ l, h.Inv l then some hl.choose else none

theorem Heap.Inv.blocks_eq (hI : h.Inv l) : h.blocks = some l := by
  have hl : ∃ l, h.Inv l := ⟨l, hI⟩
  rw [Heap.blocks, if_neg hI.head_ne, dif_pos hl, hl.choose_spec.chained.unique hI.chained]

theorem Heap.inv_of_blocks (hb : h.blocks = some l) (hne : l ≠ []) : h.Inv l := by
  rw [Heap.blocks] at hb
  split_ifs at hb with h0 hl
  · exact absurd (Option.some.inj hb).symm hne
  · rw [← Option.some.inj hb]
    exact hl.choose_spec

/-- Allocation on the block list; the pointer is 0 when nothing fits. -/
def kmallocBlocks (size : ℕ) (l : List Blk) : ℕ × List Blk :=
  if size = 0 then (0, l)
  else match alloc blockHeader 8 (alignUp size) l with
    | none => (0, l)
    | some (a, l') => (a + blockHeader, l')

theorem Heap.kmalloc_blocks (hb : h.blocks = some l) (size : ℕ) :
    ∃ h', h.kmalloc size = .ok ((kmallocBlocks size l).1, h') ∧
      h'.blocks = some (kmallocBlocks size l).2 := by
  by_cases hl : l = []
  · -- no region: the loop is not entered
    subst hl
    have hres : kmallocBlocks size [] = (0, []) := by simp [kmallocBlocks, alloc]
    have hz : h.head = 0 ∨ size = 0 := by
      by_contra hcon
      rw [not_or] at hcon
      rw [Heap.blocks, if_neg hcon.1] at hb
      split_ifs at hb with hl
      have hc := hl.choose_spec.chained
      rw [Option.some.inj hb] at hc
      exact hcon.1 hc
    refine ⟨h, ?_, by rw [hres, hb]⟩
    rw [hres, Heap.kmalloc, kmallocProg, if_pos hz]
    rfl
  · have hI := Heap.inv_of_blocks hb hl
    rcases Heap.kmalloc_spec hI size with ⟨hs, a, l', m', hal, hres, hI'⟩ | ⟨hno, hres⟩
    · have heq : kmallocBlocks size l = (a + blockHeader, l') := by simp [kmallocBlocks, hs, hal]
      exact ⟨_, by rw [hres, heq], by rw [hI'.blocks_eq, heq]⟩
    · have heq : kmallocBlocks size l = (0, l) := by
        rcases hno with hs | hal
        · simp [kmallocBlocks, hs]
        · simp [kmallocBlocks, hal]
      exact ⟨h, by rw [hres, heq], by rw [hb, heq]⟩

theorem Heap.kfree_blocks (hb : h.blocks = some l) (hu : b ∈ usedOf l) :
    ∃ h', h.kfree (b.addr + blockHeader) = .ok h' ∧
      h'.blocks = some (coalesce blockHeader (release b.addr l)) := by
  have hl : l ≠ [] := by rintro rfl; exact absurd hu (by simp [usedOf])
  obtain ⟨m', hres, hI'⟩ := Heap.kfree_spec (Heap.inv_of_blocks hb hl) hu
  exact ⟨_, hres, hI'.blocks_eq⟩

/-- The shape of every block list: none, or a tiling without neighbouring free blocks. -/
def BlockList (l : List Blk) : Prop :=
  l = [] ∨ ∃ lo hi, Tiles blockHeader lo l hi ∧ Separated l

theorem Heap.blockList_of_blocks (hb : h.blocks = some l) : BlockList l := by
  by_cases hl : l = []
  · exact Or.inl hl
  · have hI := Heap.inv_of_blocks hb hl
    exact Or.inr ⟨_, _, hI.tiles, hI.separated⟩

theorem BlockList.kmalloc (hl : BlockList l) (size : ℕ) : BlockList (kmallocBlocks size l).2 := by
  unfold kmallocBlocks
  split_ifs with hs
  · exact hl
  · cases hal : alloc blockHeader 8 (alignUp size) l with
    | none => exact hl
    | some r =>
      rcases hl with rfl | ⟨lo, hi, ht, hsep⟩
      · simp [alloc] at hal
      · exact Or.inr ⟨lo, hi, alloc_tiles ht hal, alloc_separated hsep hal⟩

/-- A failing `kmalloc` leaves the list alone. -/
theorem kmallocBlocks_null (h : (kmallocBlocks size l).1 = 0) : (kmallocBlocks size l).2 = l := by
  unfold kmallocBlocks at h ⊢
  split_ifs with hs
  · rfl
  · rw [if_neg hs] at h
    cases hal : alloc blockHeader 8 (alignUp size) l with
    | none => rfl
    | some r =>
      rw [hal] at h
      simp only [blockHeader] at h
      omega

/-- The block behind a pointer that `kmalloc` just returned, and that freeing it undoes the
    call. -/
theorem kmallocBlocks_spec (hl : BlockList l) (hne : (kmallocBlocks size l).1 ≠ 0) :
    ∃ b ∈ usedOf (kmallocBlocks size l).2, (kmallocBlocks size l).1 = b.addr + blockHeader ∧
      alignUp size ≤ b.size ∧ (∀ c, c ∈ usedOf (kmallocBlocks size l).2 ↔ c = b ∨ c ∈ usedOf l) ∧
      coalesce blockHeader (release b.addr (kmallocBlocks size l).2) = l := by
  unfold kmallocBlocks at hne ⊢
  by_cases hs : size = 0
  · simp [hs] at hne
  cases hal : alloc blockHeader 8 (alignUp size) l with
  | none => simp [hal, hs] at hne
  | some r =>
    obtain ⟨a, l'⟩ := r
    simp only [hs, if_false]
    obtain ⟨n, hna, hnu, hns, -, hmem⟩ := alloc_used hal
    refine ⟨n, (hmem n).2 (Or.inl rfl), by rw [hna], hns, hmem, ?_⟩
    rcases hl with rfl | ⟨lo, hi, ht, hsep⟩
    · simp [alloc] at hal
    · rw [hna]
      exact coalesce_release_alloc (by decide) ht hsep hal

/-- `l'` is `l` with the block `b` handed out; freeing it gives `l` back. -/
structure Granted (l : List Blk) (b : Blk) (l' : List Blk) : Prop where
  used : ∀ c, c ∈ usedOf l' ↔ c = b ∨ c ∈ usedOf l
  fresh : ∀ c ∈ usedOf l, c.addr ≠ b.addr
  back : coalesce blockHeader (release b.addr l') = l

theorem kmallocBlocks_granted (hl : BlockList l) (hne : (kmallocBlocks size l).1 ≠ 0) :
    ∃ b, (kmallocBlocks size l).1 = b.addr + blockHeader ∧ alignUp size ≤ b.size ∧
      Granted l b (kmallocBlocks size l).2 := by
  obtain ⟨b, -, hptr, hsize, hused, hback⟩ := kmallocBlocks_spec hl hne
  refine ⟨b, hptr, hsize, hused, fun c hc => ?_, hback⟩
  rw [← hback, usedOf_coalesce, mem_usedOf_release] at hc
  exact hc.2

/-- Where all blocks are used, nothing is handed out. -/
theorem kmallocBlocks_full (h : ∀ b ∈ l, b.used = true) (size : ℕ) :
    (kmallocBlocks size l).1 = 0 := by
  unfold kmallocBlocks
  rw [alloc_eq_none h]
  split_ifs <;> rfl

/-- A size that is rounded up to 0 is handed out whatever free block there is. -/
theorem kmallocBlocks_wraps (hbig : 0xFFFFFFF8 < size) (h32 : size < 2 ^ 32) (hb : b ∈ l)
    (hu : b.used = false) : (kmallocBlocks size l).1 ≠ 0 := by
  have hzero : alignUp size = 0 := by
    unfold alignUp w32
    omega
  have hsome := alloc_ne_none (H := blockHeader) (m := 8) hb hu (Nat.zero_le _)
  unfold kmallocBlocks
  rw [if_neg (by omega), hzero]
  cases hal : alloc blockHeader 8 0 l with
  | none => exact absurd hal hsome
  | some r =>
    simp only
    unfold blockHeader
    omega

/-- `kmalloc` leaves the region alone. -/
theorem Heap.kmalloc_region {h' : Heap} (hres : h.kmalloc size = .ok (p, h')) :
    h'.head = h.head ∧ h'.total = h.total := by
  unfold Heap.kmalloc at hres
  cases hrun : (kmallocProg h.head size).run heapHandler h.mem with
  | error w =>
    rw [hrun] at hres
    cases hres
  | ok r =>
    rw [hrun] at hres
    cases hres
    exact ⟨rfl, rfl⟩

theorem Granted.mem {l' : List Blk} (h : Granted l b l') : b ∈ usedOf l' :=
  (h.used b).2 (Or.inl rfl)

theorem mem_usedOf_free {addr : ℕ} {c : Blk} :
    c ∈ usedOf (coalesce blockHeader (release addr l)) ↔ c ∈ usedOf l ∧ c.addr ≠ addr := by
  rw [usedOf_coalesce, mem_usedOf_release]

theorem Chained.mem_size {m : HeapMem} (h : Chained m p l) (hb : b ∈ l) : m b.addr = b.size := by
  induction l generalizing p with
  | nil => cases hb
  | cons c cs ih =>
    obtain ⟨-, rfl, hs, -, hn⟩ := h
    rcases List.mem_cons.1 hb with rfl | hb'
    · exact hs
    · exact ih hn hb'

end OctoOS
