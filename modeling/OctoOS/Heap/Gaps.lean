import OctoOS.Heap.Runs

set_option autoImplicit false

/-! # When `kmalloc` fails

`kmalloc` searches the block list. To its callers there are only the blocks they hold: what they
can hope for is that a request is served whenever a gap between those blocks has room for it. That
is so because `kfree` merges all runs of free blocks, which makes the free blocks the maximal
gaps. -/

namespace OctoOS

open Atomic Tiling

/-- The block behind a live pointer, its size read from its header. -/
def Heap.liveBlock (h : Heap) (p : ℕ) : Blk := ⟨p - blockHeader, h.mem (p - blockHeader), true⟩

/-- `[a, b)` is a maximal gap between the live blocks, or between one of them and an end of the
    region. -/
def Heap.Gap (h : Heap) (live : List ℕ) : ℕ → ℕ → Prop :=
  Tiling.Gap blockHeader (fun u => ∃ p ∈ live, u = h.liveBlock p) h.head (h.head + h.total)

/-- The bytes that `size` bytes of payload take: a header, and the size rounded up to 8. -/
def blockRoom (size : ℕ) : ℕ := blockHeader + (size + 7) / 8 * 8

/-- The outcome `(p, h')` of `kmalloc(size)` is the best that the gaps allow. -/
structure Heap.Exact (h : Heap) (live : List ℕ) (size p : ℕ) (h' : Heap) : Prop where
  null_iff : p = 0 ↔ ∀ a b, h.Gap live a b → b - a < blockRoom size
  lowest : p ≠ 0 → ∃ a b, h.Gap live a b ∧ blockRoom size ≤ b - a ∧ p = a + blockHeader ∧
    ∀ a' b', h.Gap live a' b' → blockRoom size ≤ b' - a' → a ≤ a'
  /-- No word that meets a live block, header included, changes. -/
  keeps : ∀ q ∈ live, ∀ x, (h.liveBlock q).addr < x + 4 → x < (h.liveBlock q).fin blockHeader →
    h'.mem x = h.mem x

section Gaps

variable {h h' : Heap} {l : List Blk} {live : List ℕ} {size p : ℕ}

theorem alignUp_eq (hsize : size ≤ 2 ^ 32 - 8) : alignUp size = (size + 7) / 8 * 8 := by
  unfold alignUp
  rw [w32_eq (by omega)]

/-- The used blocks of the list are the live blocks. -/
theorem LiveBlocks.used_iff (hI : h.Inv l) (hL : LiveBlocks l live) (u : Blk) :
    u ∈ usedOf l ↔ ∃ p ∈ live, u = h.liveBlock p := by
  have heq : ∀ b ∈ usedOf l, h.liveBlock (b.addr + blockHeader) = b := by
    intro b hb
    obtain ⟨hbl, hbu⟩ := List.mem_filter.1 hb
    have hsize := hI.chained.mem_size hbl
    rw [Heap.liveBlock, Nat.add_sub_cancel, hsize, ← hbu]
  constructor
  · intro hu
    exact ⟨_, (hL.mem_iff _).2 ⟨u, hu, rfl⟩, (heq u hu).symm⟩
  · rintro ⟨p, hp, rfl⟩
    obtain ⟨b, hb, rfl⟩ := (hL.mem_iff p).1 hp
    rwa [heq b hb]

theorem Heap.gap_eq (hI : h.Inv l) (hL : LiveBlocks l live) :
    h.Gap live = Tiling.Gap blockHeader (· ∈ usedOf l) h.head (h.head + h.total) := by
  unfold Heap.Gap
  congr 1
  funext u
  exact propext (hL.used_iff hI u).symm

/-- `kmalloc` writes to the free block it takes only. -/
theorem Heap.kmalloc_changedIn (hI : h.Inv l) {a : ℕ} {l' : List Blk}
    (hal : alloc blockHeader 8 (alignUp size) l = some (a, l')) (hs : size ≠ 0)
    (hres : h.kmalloc size = .ok (p, h')) :
    ∃ f ∈ l, f.used = false ∧ ChangedIn f h.mem h'.mem := by
  have hrun := kmallocLoop_run (alignUp size) hI.chained hI.tiles hI.noWrap
    (Nat.add_le_add_left hI.small _) hI.length_lt
  rw [hal] at hrun
  obtain ⟨m', hrun, -, f, hf, -, hu, hin⟩ := hrun
  rw [Heap.kmalloc, kmallocProg, if_neg (by simp [hs, hI.head_ne]), hrun] at hres
  cases hres
  exact ⟨f, hf, hu, hin⟩

/-- A step: on a heap whose used blocks are the live ones. -/
theorem Heap.Inv.kmalloc_firstFit (hI : h.Inv l) (hL : LiveBlocks l live) (h1 : 1 ≤ size)
    (h2 : size ≤ 2 ^ 32 - 8) :
    ∃ p h', h.kmalloc size = .ok (p, h') ∧ h.Exact live size p h' := by
  have hgap := Heap.gap_eq hI hL
  have hroom : blockRoom size = blockHeader + alignUp size := by rw [alignUp_eq h2, blockRoom]
  have hH : 0 < blockHeader := by decide
  rcases Heap.kmalloc_spec hI size with ⟨hs, a, l', m', hal, hres, -⟩ | ⟨hno, hres⟩
  · refine ⟨_, _, hres, ⟨?_, fun _ => ?_, fun q hq x hlo hhi => ?_⟩⟩
    · rw [hgap, hroom, ← hI.tiles.alloc_none_iff hH hI.separated, hal]
      simp [blockHeader]
    · rw [hgap, hroom]
      obtain ⟨⟨b, hg, hb⟩, hlow⟩ := hI.tiles.alloc_gap hH hI.separated hal
      exact ⟨a, b, hg, hb, rfl, hlow⟩
    · -- the block of `q` and the free block that is taken are apart
      obtain ⟨f, hf, hfu, hin⟩ := Heap.kmalloc_changedIn hI hal hs hres
      have hu := (hL.used_iff hI (h.liveBlock q)).2 ⟨q, hq, rfl⟩
      have hapart := hI.tiles.disjoint hf (List.mem_filter.1 hu).1
        (fun heq => by simp [heq, Heap.liveBlock] at hfu)
      exact hin x (by omega)
  · have hnone := hno.resolve_left (by omega)
    refine ⟨0, h, hres, ⟨?_, fun h0 => absurd rfl h0, fun _ _ _ _ _ => rfl⟩⟩
    rw [hgap, hroom, ← hI.tiles.alloc_none_iff hH hI.separated, hnone]
    simp

/-- Without a region no pointer is ever handed out. -/
theorem HeapRun.eq_of_no_region {h₀ : Heap} (h0 : h₀.head = 0) (hrun : HeapRun h₀ h live) :
    h = h₀ ∧ live = [] := by
  induction hrun with
  | init => exact ⟨rfl, rfl⟩
  | kmalloc _ _ hk ih =>
    obtain ⟨rfl, rfl⟩ := ih
    rw [Heap.kmalloc, kmallocProg, if_pos (Or.inl h0)] at hk
    cases hk
    exact ⟨rfl, rfl⟩
  | kfree _ hp hk ih =>
    obtain ⟨rfl, rfl⟩ := ih
    obtain rfl := hp.resolve_right (by simp)
    cases hk
    exact ⟨rfl, rfl⟩

end Gaps

/-- What `heap_init` should leave: no heap at all, or a region that can hold a header and does not
    run past the end of the address space. -/
def Heap.Region (h : Heap) : Prop :=
  h.head = 0 ∧ h.total = 0 ∨ h.head ≠ 0 ∧ blockHeader ≤ h.total ∧ h.head + h.total < 2 ^ 32

/-- **`kmalloc` fails only when it must**, in every state of every run on a proper region. -/
theorem kmalloc_exact {map : List E820Entry} {mem : HeapMem} {h₀ h : Heap} {live : List ℕ}
    (hinit : heapInit map mem = h₀) (hregion : h₀.Region) (hrun : HeapRun h₀ h live) {size : ℕ}
    (h1 : 1 ≤ size) (h2 : size ≤ 2 ^ 32 - 8) :
    ∃ p h', h.kmalloc size = .ok (p, h') ∧ h.Exact live size p h' := by
  rcases hregion with ⟨h0, ht⟩ | ⟨hhead, hsize, hwrap⟩
  · obtain ⟨rfl, rfl⟩ := hrun.eq_of_no_region h0
    refine ⟨0, h, ?_, ⟨iff_of_true rfl (fun a b hg => ?_), fun hne => absurd rfl hne, by simp⟩⟩
    · rw [Heap.kmalloc, kmallocProg, if_pos (Or.inl h0)]
      rfl
    · have := hg.inside
      unfold blockRoom blockHeader
      omega
  · obtain ⟨l, hI, -, -, hL⟩ :=
      hrun.inv (heapInit_inv hinit hhead hsize hwrap) (LiveBlocks.initial rfl)
    exact hI.kmalloc_firstFit hL h1 h2

/-- With two live blocks on a heap of 4 KiB, 40 bytes go to the gap between them. -/
theorem kmalloc_exact_smallMap : ∃ h p h', HeapRun (heapInit smallMap (fun _ => 0)) h [0x1000C4, 0x10000C] ∧
    h.kmalloc 40 = .ok (p, h') ∧ h.Exact [0x1000C4, 0x10000C] 40 p h' := by
  obtain ⟨h, hrun⟩ := smallMap_gap
  obtain ⟨p, h', hk, hexact⟩ := kmalloc_exact rfl (Or.inr (by decide +kernel)) hrun
    (by decide : 1 ≤ 40) (by decide)
  exact ⟨h, p, h', hrun, hk, hexact⟩

/-- A map whose only usable entry is shorter than a header. -/
def shortMap : List E820Entry := [⟨0x100000, 8, 1⟩]

/-- On a region of 8 bytes `heap_init` stores a size that has wrapped around, and `kmalloc` hands
    out 100 bytes behind the region. -/
theorem kmalloc_beyond_region :
    (((heapInit shortMap (fun _ => 0)).kmalloc 100).map Prod.fst = .ok 0x10000C) ∧
    ∀ p h', (heapInit shortMap (fun _ => 0)).kmalloc 100 = .ok (p, h') →
      ¬ (heapInit shortMap (fun _ => 0)).Exact [] 100 p h' := by
  have hres : ((heapInit shortMap (fun _ => 0)).kmalloc 100).map Prod.fst = .ok 0x10000C := by
    decide +kernel
  refine ⟨hres, fun p h' hk hex => ?_⟩
  rw [hk] at hres
  obtain rfl : p = 0x10000C := Except.ok.inj hres
  have hend : (heapInit shortMap (fun _ => 0)).head + (heapInit shortMap (fun _ => 0)).total
      = 0x100008 := by decide +kernel
  have hhead : (heapInit shortMap (fun _ => 0)).head = 0x100000 := by decide +kernel
  obtain ⟨a, b, hg, hroom, -⟩ := hex.lowest (by decide)
  have hin := hg.inside
  unfold blockRoom blockHeader at hroom
  omega

end OctoOS
