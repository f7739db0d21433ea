import OctoOS.Heap
import OctoOS.Paging

set_option autoImplicit false

/-! # Where the heap and the frames lie

`heap_init` and `frame_init` choose the same entry of the memory map and compute with it in mixed
64- and 32-bit arithmetic. Here the ranges they arrive at are compared with the entry they were
taken from and with the 256 MiB that `paging_init` maps. They are right for the entries of small
machines and wrong for entries that lie too high, are too short or end inside the page behind the
heap; the two theorems say exactly when. -/

namespace OctoOS

/-- The entries among which the search chooses. -/
def E820Entry.Eligible (e : E820Entry) : Prop :=
  e.type = e820Usable ∧ heapMinBase ≤ e.base.toNat

/-- The bytes from `lo` up to `hi` belong to the entry. -/
def E820Entry.Covers (e : E820Entry) (lo hi : ℕ) : Prop :=
  e.base.toNat ≤ lo ∧ hi ≤ e.base.toNat + e.length.toNat

theorem bestRegion_cases (es : List E820Entry) (best : ℕ × ℕ) :
    bestRegion es best = best ∨
      ∃ e ∈ es, e.Eligible ∧ bestRegion es best = (e.base.toNat, e.length.toNat) := by
  induction es generalizing best with
  | nil => exact Or.inl rfl
  | cons e es ih =>
    rw [bestRegion]
    split_ifs with hskip hlonger
    · exact (ih best).imp_right (fun ⟨e', he', h⟩ => ⟨e', List.mem_cons_of_mem _ he', h⟩)
    · rw [not_or, not_not, Nat.not_lt] at hskip
      rcases ih (e.base.toNat, e.length.toNat) with heq | ⟨e', he', h⟩
      · exact Or.inr ⟨e, List.mem_cons_self .., hskip, heq⟩
      · exact Or.inr ⟨e', List.mem_cons_of_mem _ he', h⟩
    · exact (ih best).imp_right (fun ⟨e', he', h⟩ => ⟨e', List.mem_cons_of_mem _ he', h⟩)

/-- What the search finds is an eligible entry of the map, if it finds anything. -/
theorem e820Best_cases (map : List E820Entry) : e820Best map = (0, 0) ∨
    ∃ e ∈ map, e.Eligible ∧ e820Best map = (e.base.toNat, e.length.toNat) :=
  (bestRegion_cases _ _).imp_right (fun ⟨e, he, h⟩ => ⟨e, List.mem_of_mem_take he, h⟩)

variable {map : List E820Entry}

theorem e820Best_entry (hset : (e820Best map).2 ≠ 0) :
    ∃ e ∈ map, e.Eligible ∧ (e820Best map).1 = e.base.toNat ∧ (e820Best map).2 = e.length.toNat := by
  rcases e820Best_cases map with h0 | ⟨e, he, hel, heq⟩
  · rw [h0] at hset
    exact absurd rfl hset
  · exact ⟨e, he, hel, by rw [heq], by rw [heq]⟩

/-! ## The heap -/

/-- The bytes of the heap that `heap_init` sets up. -/
def heapLength (map : List E820Entry) : ℕ := min (e820Best map).2 heapMaxSize

/-- The heap lies in one usable entry and in the identity map, and its first block fills it. -/
structure HeapPlaced (map : List E820Entry) (h : Heap) : Prop where
  entry : ∃ e ∈ map, e.Eligible ∧ e.Covers h.head (h.head + h.total)
  mapped : h.head + h.total ≤ identityPdes * 2 ^ 22
  size : h.mem h.head + blockHeader = h.total

theorem heapInit_region (mem : HeapMem) (hset : (e820Best map).2 ≠ 0) :
    (heapInit map mem).head = w32 (e820Best map).1 ∧ (heapInit map mem).total = heapLength map ∧
      (heapInit map mem).mem (heapInit map mem).head = sub32 (heapLength map) blockHeader := by
  have htotal : w32 (if heapMaxSize < (e820Best map).2 then heapMaxSize else (e820Best map).2)
      = heapLength map := by
    unfold heapLength heapMaxSize w32
    split_ifs <;> omega
  unfold heapInit
  simp only
  rw [if_neg hset]
  refine ⟨rfl, htotal, ?_⟩
  simp only
  rw [Function.update_of_ne (by omega), Function.update_of_ne (by omega), Function.update_self, htotal]

/-- **Where the heap lies**: it is placed right if and only if the chosen entry can hold a header
    and either it lies low enough or, being above 4 GiB, its truncated address happens to be that
    of other memory. -/
theorem heapInit_placed_iff {map : List E820Entry} {mem : HeapMem} (hset : (e820Best map).2 ≠ 0) :
    HeapPlaced map (heapInit map mem) ↔
      blockHeader ≤ (e820Best map).2 ∧ ((e820Best map).1 + heapLength map ≤ identityLimit ∨
        2 ^ 32 ≤ (e820Best map).1 ∧ w32 (e820Best map).1 + heapLength map ≤ identityLimit ∧
          ∃ e ∈ map, e.Eligible ∧
            e.Covers (w32 (e820Best map).1) (w32 (e820Best map).1 + heapLength map)) := by
  obtain ⟨hhead, htotal, hsize⟩ := heapInit_region mem hset
  obtain ⟨e, he, hel, hbase, hlen⟩ := e820Best_entry hset
  have hlength : heapLength map ≤ (e820Best map).2 ∧ heapLength map ≤ heapMaxSize :=
    ⟨Nat.min_le_left _ _, Nat.min_le_right _ _⟩
  -- the header can be subtracted exactly when the entry can hold it
  have hheader : sub32 (heapLength map) blockHeader + blockHeader = heapLength map ↔
      blockHeader ≤ (e820Best map).2 := by
    unfold sub32 heapLength blockHeader heapMaxSize
    omega
  have hlimit : identityPdes * 2 ^ 22 = identityLimit := rfl
  constructor
  · intro hp
    have hmapped := hp.mapped
    have hblock := hp.size
    have hentry := hp.entry
    rw [hsize, htotal] at hblock
    rw [hhead, htotal, hlimit] at hmapped
    rw [hhead, htotal] at hentry
    refine ⟨hheader.1 hblock, ?_⟩
    by_cases hlow : (e820Best map).1 < 2 ^ 32
    · rw [w32_eq hlow] at hmapped
      exact Or.inl hmapped
    · exact Or.inr ⟨Nat.le_of_not_lt hlow, hmapped, hentry⟩
  · rintro ⟨hfits, hplace⟩
    refine ⟨?_, ?_, by rw [hsize, htotal]; exact hheader.2 hfits⟩
    all_goals rw [hhead, htotal]
    · rcases hplace with hlow | ⟨-, -, hother⟩
      · have h32 : (e820Best map).1 < 2 ^ 32 := by
          unfold identityLimit at hlow
          omega
        rw [w32_eq h32]
        exact ⟨e, he, hel, by omega, by omega⟩
      · exact hother
    · rw [hlimit]
      rcases hplace with hlow | ⟨-, hlow, -⟩
      · exact Nat.le_trans (Nat.add_le_add_right (Nat.mod_le _ _) _) hlow
      · exact hlow

/-- A machine with 128 MiB. -/
def smallMachine : List E820Entry := [⟨0, 0x9FC00, 1⟩, ⟨0x100000, 0x7EE0000, 1⟩, ⟨0x7FE0000, 0x20000, 2⟩]

theorem heapInit_placed_smallMachine : HeapPlaced smallMachine (heapInit smallMachine (fun _ => 0)) :=
  (heapInit_placed_iff (by decide)).2 ⟨by decide, Or.inl (by decide)⟩

/-- A machine with 8 GiB, of which 5 GiB lie above 4 GiB. -/
def largeMachine : List E820Entry :=
  [⟨0, 0x9FC00, 1⟩, ⟨0x100000, 0xBFEE0000, 1⟩, ⟨0x100000000, 0x140000000, 1⟩]

/-- On the large machine `heap_head` is the address 0, with 8 MiB behind it; and a map with an
    entry of 8 bytes gives a first block that is almost 4 GiB long. -/
theorem heapInit_misplaced :
    ((heapInit largeMachine (fun _ => 0)).head = 0 ∧
      (heapInit largeMachine (fun _ => 0)).total = 0x800000 ∧
      ¬ HeapPlaced largeMachine (heapInit largeMachine (fun _ => 0))) ∧
    (heapInit [⟨0x100000, 8, 1⟩] (fun _ => 0)).mem 0x100000 = 0xFFFFFFFC ∧
      ¬ HeapPlaced [⟨0x100000, 8, 1⟩] (heapInit [⟨0x100000, 8, 1⟩] (fun _ => 0)) := by
  refine ⟨⟨by decide, by decide, fun hp => ?_⟩, by decide, fun hp => ?_⟩
  · obtain ⟨e, -, ⟨-, hbase⟩, hlo, -⟩ := hp.entry
    have hhead : (heapInit largeMachine (fun _ => 0)).head = 0 := by decide
    rw [hhead] at hlo
    unfold heapMinBase at hbase
    omega
  · have hsize := hp.size
    cases hsize

/-! ## The frames -/

/-- `p` rounded up to a page. -/
def pageUp (p : ℕ) : ℕ := (p + frameSize - 1) / frameSize * frameSize

/-- A page at `p` is where a frame should be: in the entry the heap was taken from, in the identity
    map, and off the heap. -/
structure FramePlaced (map : List E820Entry) (h : Heap) (p : ℕ) : Prop where
  aligned : p % frameSize = 0
  entry : ∃ e ∈ map, e.Eligible ∧ e820Best map = (e.base.toNat, e.length.toNat) ∧
    e.Covers p (p + frameSize)
  mapped : p + frameSize ≤ identityLimit
  offHeap : h.head + h.total ≤ p ∨ p + frameSize ≤ h.head

/-- All frames are placed right; there are none when no page is left. -/
structure FramesPlaced (map : List E820Entry) (h : Heap) (s : Phys) : Prop where
  frames : ∀ i < s.count, FramePlaced map h (s.base + i * frameSize)
  count : s.count ≤ framesMax
  none : (∀ p, p % frameSize = 0 → (e820Best map).1 + heapReserved ≤ p →
    (e820Best map).1 + (e820Best map).2 < p + frameSize) → s.count = 0

/-- `start` of `frame_init`. -/
def frameStart (map : List E820Entry) : ℕ := ((e820Best map).1 + heapReserved) % 2 ^ 64

/-- `end` of `frame_init`. -/
def frameStop (map : List E820Entry) : ℕ :=
  min (((e820Best map).1 + (e820Best map).2) % 2 ^ 64) identityLimit

/-- `frame_init` gets to the computation of its range. -/
def FramesSet (map : List E820Entry) : Prop :=
  heapReserved < (e820Best map).2 ∧ frameStart map < frameStop map

/-- The first page behind the heap starts in the entry, and its address is not one that has wrapped
    around at 2^64 (unless no page is left in any case). -/
def FrameRangeOk (map : List E820Entry) : Prop :=
  pageUp (frameStart map) ≤ frameStop map ∧
    ((e820Best map).1 + heapReserved < 2 ^ 64 ∨ frameStop map < pageUp (frameStart map) + frameSize)

theorem frameStop_eq (map : List E820Entry) : frameStop map =
    if identityLimit < ((e820Best map).1 + (e820Best map).2) % 2 ^ 64 then identityLimit
    else ((e820Best map).1 + (e820Best map).2) % 2 ^ 64 := by
  unfold frameStop
  split_ifs <;> omega

theorem frameInit_count_zero (mem : Mem) (h : ¬ FramesSet map) : (frameInit map mem).count = 0 := by
  unfold frameInit
  simp only
  rw [← frameStop_eq]
  by_cases hlen : (e820Best map).2 ≤ heapReserved
  · rw [if_pos hlen]
  · rw [if_neg hlen, if_pos]
    exact Nat.le_of_not_lt (fun hlt => h ⟨Nat.lt_of_not_le hlen, hlt⟩)

/-- The range `frame_init` computes. When the first page starts behind the end, the difference of
    the two is taken modulo 2^64 and gives the greatest possible number of frames. -/
theorem frameInit_range (mem : Mem) (h : FramesSet map) :
    (frameInit map mem).base = pageUp (frameStart map) ∧ (frameInit map mem).count =
      if pageUp (frameStart map) ≤ frameStop map
      then min ((frameStop map - pageUp (frameStart map)) / frameSize) framesMax else framesMax := by
  obtain ⟨hlen, hlt⟩ := h
  have hstop : frameStop map ≤ 2 ^ 28 := Nat.min_le_right _ _
  have hbase : w32 ((frameStart map + frameSize - 1) % 2 ^ 64 / frameSize * frameSize)
      = pageUp (frameStart map) := by
    unfold w32 pageUp frameSize
    omega
  have hcount : w32 ((frameStop map + 2 ^ 64 - pageUp (frameStart map)) % 2 ^ 64 / frameSize) =
      if pageUp (frameStart map) ≤ frameStop map
      then (frameStop map - pageUp (frameStart map)) / frameSize else 2 ^ 32 - 1 := by
    unfold w32 pageUp frameSize
    split_ifs <;> omega
  have hstart : ((e820Best map).1 + heapReserved) % 2 ^ 64 = frameStart map := rfl
  unfold frameInit
  simp only
  rw [← frameStop_eq, hstart, if_neg (Nat.not_le.2 hlen), if_neg (Nat.not_le.2 hlt), hbase, hcount]
  refine ⟨rfl, ?_⟩
  split_ifs with hle hmax hmax
  · exact (Nat.min_eq_right (Nat.le_of_lt hmax)).symm
  · exact (Nat.min_eq_left (Nat.le_of_not_lt hmax)).symm
  · rfl
  · exact absurd (by decide) hmax

theorem frameInit_count_le (map : List E820Entry) (mem : Mem) :
    (frameInit map mem).count ≤ framesMax := by
  by_cases hset : FramesSet map
  · rw [(frameInit_range mem hset).2]
    split_ifs
    · exact Nat.min_le_right _ _
    · exact Nat.le_refl _
  · rw [frameInit_count_zero mem hset]
    exact Nat.zero_le _

/-- With the range in order the frames fill the rest of the entry, up to the identity limit. -/
theorem frameRange_spec (hset : FramesSet map) (hbase : (e820Best map).1 + heapReserved < 2 ^ 64)
    (hlen : (e820Best map).2 < 2 ^ 64) :
    (e820Best map).1 + heapReserved ≤ pageUp (frameStart map) ∧
      frameStop map ≤ (e820Best map).1 + (e820Best map).2 ∧ frameStop map ≤ identityLimit := by
  obtain ⟨-, hlt⟩ := hset
  unfold frameStart frameStop identityLimit at *
  unfold pageUp frameSize
  omega

/-- The first frame, if there is one, is off the entry unless the range is in order. -/
theorem frameRange_of_first (hset : FramesSet map) (hlen : (e820Best map).2 < 2 ^ 64)
    (hlo : (e820Best map).1 ≤ pageUp (frameStart map))
    (hhi : pageUp (frameStart map) + frameSize ≤ (e820Best map).1 + (e820Best map).2)
    (hmapped : pageUp (frameStart map) + frameSize ≤ identityLimit) :
    pageUp (frameStart map) ≤ frameStop map ∧ (e820Best map).1 + heapReserved < 2 ^ 64 := by
  obtain ⟨-, hlt⟩ := hset
  unfold frameStart frameStop identityLimit heapReserved at *
  unfold pageUp frameSize at *
  omega

theorem e820Best_length_lt (h : (e820Best map).2 ≠ 0) : (e820Best map).2 < 2 ^ 64 := by
  obtain ⟨e, -, -, -, hlen⟩ := e820Best_entry h
  rw [hlen]
  exact e.length.toNat_lt

theorem FramesSet.best_ne_zero (hset : FramesSet map) : (e820Best map).2 ≠ 0 :=
  Nat.ne_of_gt (Nat.lt_of_le_of_lt (Nat.zero_le _) hset.1)

section Placed

variable {map : List E820Entry} {hmem : HeapMem} {mem : Mem}

/-- Frames that are placed right come from a range in order. -/
theorem FramesPlaced.rangeOk (hp : FramesPlaced map (heapInit map hmem) (frameInit map mem))
    (hset : FramesSet map) : FrameRangeOk map := by
  obtain ⟨hbase, hcount⟩ := frameInit_range mem hset
  -- what the first frame tells, if there is one
  have hfirst : 0 < (frameInit map mem).count →
      pageUp (frameStart map) ≤ frameStop map ∧ (e820Best map).1 + heapReserved < 2 ^ 64 := by
    intro hpos
    have h0 := hp.frames 0 hpos
    rw [Nat.zero_mul, Nat.add_zero, hbase] at h0
    obtain ⟨e, -, -, heq, hlo, hhi⟩ := h0.entry
    refine frameRange_of_first hset (e820Best_length_lt hset.best_ne_zero) ?_ ?_ h0.mapped
    all_goals rw [heq]
    · exact hlo
    · exact hhi
  have hle : pageUp (frameStart map) ≤ frameStop map := by
    by_contra hgt
    rw [if_neg hgt] at hcount
    exact hgt (hfirst (by rw [hcount]; decide)).1
  refine ⟨hle, ?_⟩
  by_contra hno
  rw [not_or, Nat.not_lt, Nat.not_lt] at hno
  refine Nat.not_lt.2 hno.1 (hfirst ?_).2
  rw [hcount, if_pos hle, Nat.lt_min]
  exact ⟨Nat.div_pos (Nat.le_sub_of_add_le' hno.2) (by decide), by decide⟩

/-- A range in order: every frame ends in front of `end`, and there is one only without a
    wrap-around. -/
theorem FrameRangeOk.frame (hok : FrameRangeOk map) (hset : FramesSet map) {i : ℕ}
    (hi : i < (frameInit map mem).count) : (e820Best map).1 + heapReserved < 2 ^ 64 ∧
      pageUp (frameStart map) + i * frameSize + frameSize ≤ frameStop map := by
  obtain ⟨hle, hor⟩ := hok
  rw [(frameInit_range mem hset).2, if_pos hle] at hi
  unfold frameSize at hor hi ⊢
  refine ⟨hor.resolve_right (fun hsmall => ?_), ?_⟩
  · omega
  · omega

theorem pageUp_add_aligned (x i : ℕ) : (pageUp x + i * frameSize) % frameSize = 0 := by
  unfold pageUp frameSize
  omega

/-- A range in order gives frames that are placed right. -/
theorem FrameRangeOk.placed (hok : FrameRangeOk map) (hset : FramesSet map) :
    FramesPlaced map (heapInit map hmem) (frameInit map mem) := by
  have hne := hset.best_ne_zero
  have hlen := e820Best_length_lt hne
  obtain ⟨e, he, hel, heb, helen⟩ := e820Best_entry hne
  refine ⟨fun i hi => ?_, frameInit_count_le map mem, fun hnone => ?_⟩
  · obtain ⟨h64, hend⟩ := hok.frame hset hi
    obtain ⟨h1, h2, h3⟩ := frameRange_spec hset h64 hlen
    obtain ⟨hhead, htotal, -⟩ := heapInit_region hmem hne
    have hheap : w32 (e820Best map).1 + heapLength map ≤ (e820Best map).1 + heapReserved :=
      Nat.add_le_add (Nat.mod_le _ _) (Nat.min_le_right _ _)
    rw [(frameInit_range mem hset).1]
    refine ⟨pageUp_add_aligned _ i, ⟨e, he, hel, by rw [← heb, ← helen], ?_, ?_⟩, ?_, Or.inl ?_⟩
    · omega
    · omega
    · omega
    · rw [hhead, htotal]
      omega
  · -- the first frame would be a page that is left
    by_contra hpos
    obtain ⟨h64, hend⟩ := hok.frame hset (Nat.pos_of_ne_zero hpos)
    obtain ⟨h1, h2, -⟩ := frameRange_spec hset h64 hlen
    have := hnone _ (pageUp_add_aligned (frameStart map) 0) (by omega)
    omega

end Placed

/-- **Where the frames lie**: they are placed right if and only if `frame_init` computes no range
    at all or its range is in order. -/
theorem frameInit_placed_iff {map : List E820Entry} {hmem : HeapMem} {mem : Mem} :
    FramesPlaced map (heapInit map hmem) (frameInit map mem) ↔ (FramesSet map → FrameRangeOk map) := by
  by_cases hset : FramesSet map
  · exact ⟨FramesPlaced.rangeOk, fun hok => (hok hset).placed hset⟩
  · have h0 := frameInit_count_zero mem hset
    refine iff_of_true ⟨fun i hi => ?_, frameInit_count_le map mem, fun _ => h0⟩
      (fun h => absurd h hset)
    rw [h0] at hi
    exact absurd hi (Nat.not_lt_zero i)

theorem frameInit_placed_smallMachine : FramesPlaced smallMachine
    (heapInit smallMachine (fun _ => 0)) (frameInit smallMachine (fun _ => 0)) :=
  frameInit_placed_iff.2 (fun _ => ⟨by decide, Or.inl (by decide)⟩)

/-- A map whose usable entry ends 1 KiB behind the heap, inside a page. -/
def oddMap : List E820Entry := [⟨0x100400, 0x800400, 1⟩]

/-- On it no page is left, and `frame_init` counts 16384 frames from behind the entry on. -/
theorem frameInit_misplaced : (frameInit oddMap (fun _ => 0)).base = 0x901000 ∧
    (frameInit oddMap (fun _ => 0)).count = 16384 ∧
    ¬ FramesPlaced oddMap (heapInit oddMap (fun _ => 0)) (frameInit oddMap (fun _ => 0)) := by
  refine ⟨by decide, by decide, fun hp => ?_⟩
  obtain ⟨e, -, -, heq, -, hend⟩ := (hp.frames 0 (by decide)).entry
  have hbest : e820Best oddMap = (0x100400, 0x800400) := by decide
  have hbase : (frameInit oddMap (fun _ => 0)).base = 0x901000 := by decide
  rw [hbest] at heq
  obtain ⟨hb, hl⟩ := Prod.mk.inj heq
  rw [← hb, ← hl, hbase] at hend
  unfold frameSize at hend
  omega

end OctoOS
