import OctoOS.E820
import OctoOS.Lib.Bitmap
import OctoOS.Lib.Memory

set_option autoImplicit false

/-! # The frame allocator (`kernel/frame.c`)

Physical memory is a byte memory; the bitmap and the counters of `frame.c` stand beside it, as the
kernel's own data lies below the frames. To its callers `frame_alloc` adds one frame to the list of
allocated ones (`Took`), and `frame_free` of an allocated frame takes it out (`Gave`). -/

namespace OctoOS

/-- `HEAP_RESERVED`. -/
def heapReserved : ℕ := 8 * 1024 * 1024

/-- `FRAME_SIZE`, which is also `PAGE_SIZE`. -/
def frameSize : ℕ := 4096

/-- `FRAMES_MAX`. -/
def framesMax : ℕ := 16384

/-- `IDENTITY_LIMIT`. -/
def identityLimit : ℕ := 256 * 1024 * 1024

/-- The statics of `frame.c` and the physical memory. -/
structure Phys where
  base : ℕ
  count : ℕ
  bitmap : Bitmap
  freeFrames : ℕ
  mem : Mem

/-- `frame_init`: 64-bit arithmetic up to the two casts to `uint32_t`. -/
def frameInit (map : List E820Entry) (mem : Mem) : Phys :=
  let best := e820Best map
  if best.2 ≤ heapReserved then ⟨0, 0, Bitmap.zero, 0, mem⟩
  else
    let start := (best.1 + heapReserved) % 2 ^ 64
    let stop := (best.1 + best.2) % 2 ^ 64
    let stop := if identityLimit < stop then identityLimit else stop
    if stop ≤ start then ⟨0, 0, Bitmap.zero, 0, mem⟩
    else
      let base := w32 ((start + frameSize - 1) % 2 ^ 64 / frameSize * frameSize)
      let count := w32 ((stop + 2 ^ 64 - base) % 2 ^ 64 / frameSize)
      let count := if framesMax < count then framesMax else count
      ⟨base, count, Bitmap.zero, count, mem⟩

/-- The loop of `frame_alloc` over the `n` frames from `i` on. -/
def frameAllocLoop (s : Phys) : ℕ → ℕ → ℕ × Phys
  | 0, _ => (0, s)
  | n + 1, i =>
    if s.bitmap.get i then frameAllocLoop s n (i + 1)
    else
      let phys := w32 (s.base + i * frameSize)
      (phys, { s with
        bitmap := s.bitmap.set i
        freeFrames := sub32 s.freeFrames 1
        mem := s.mem.fill phys 0 frameSize })

/-- `frame_alloc`. -/
def frameAlloc (s : Phys) : ℕ × Phys := frameAllocLoop s s.count 0

/-- `frame_free`. -/
def frameFree (phys : ℕ) (s : Phys) : Phys :=
  if phys < s.base then s
  else
    let i := (phys - s.base) / frameSize
    if s.count ≤ i ∨ s.bitmap.get i = false then s
    else { s with bitmap := s.bitmap.clear i, freeFrames := w32 (s.freeFrames + 1) }

/-- The allocated frames. -/
def Phys.frames (s : Phys) : List ℕ :=
  (s.bitmap.members s.count).map (fun i => s.base + i * frameSize)

/-- The frames are pages above address 0 that lie in the 32-bit address space. -/
structure Phys.Ok (s : Phys) : Prop where
  aligned : s.base % frameSize = 0
  pos : 0 < s.base
  noWrap : s.base + s.count * frameSize ≤ 2 ^ 32

/-- The frame `p` is allocated, zeroed, and nothing else happens. -/
structure Took (s : Phys) (p : ℕ) (s' : Phys) : Prop where
  base : s'.base = s.base
  count : s'.count = s.count
  frames : s'.frames.Perm (p :: s.frames)
  mem : s'.mem = s.mem.fill p 0 frameSize

/-- The frame `p` is no longer allocated, and nothing else happens. -/
structure Gave (s : Phys) (p : ℕ) (s' : Phys) : Prop where
  base : s'.base = s.base
  count : s'.count = s.count
  frames : s.frames.Perm (p :: s'.frames)
  mem : s'.mem = s.mem

section Alloc

variable {s s' : Phys} {p : ℕ}

theorem Phys.Ok.of_eq (hok : s.Ok) (hb : s'.base = s.base) (hc : s'.count = s.count) : s'.Ok :=
  ⟨by rw [hb]; exact hok.aligned, by rw [hb]; exact hok.pos, by rw [hb, hc]; exact hok.noWrap⟩

theorem Phys.mem_frames : p ∈ s.frames ↔
    ∃ i < s.count, s.bitmap.get i = true ∧ s.base + i * frameSize = p := by
  simp only [Phys.frames, List.mem_map, Bitmap.mem_members, and_assoc]

theorem Phys.nodup_frames (s : Phys) : s.frames.Nodup := by
  refine (Bitmap.nodup_members _ _).map (fun i j hij => ?_)
  replace hij : s.base + i * 4096 = s.base + j * 4096 := hij
  omega

/-- A frame is a page of the 32-bit address space and not at address 0. -/
theorem Phys.Ok.frame (hok : s.Ok) (hp : p ∈ s.frames) :
    p % frameSize = 0 ∧ 0 < p ∧ p + frameSize ≤ 2 ^ 32 := by
  obtain ⟨i, hi, -, rfl⟩ := Phys.mem_frames.1 hp
  have h1 := hok.aligned
  have h2 := hok.pos
  have h3 := hok.noWrap
  unfold frameSize at *
  omega

/-- The loop finds the first frame that is not allocated. -/
theorem frameAllocLoop_cases (s : Phys) (n i : ℕ) :
    ((∀ j, i ≤ j → j < i + n → s.bitmap.get j = true) ∧ frameAllocLoop s n i = (0, s)) ∨
    ∃ j, i ≤ j ∧ j < i + n ∧ s.bitmap.get j = false ∧
      (∀ k, i ≤ k → k < j → s.bitmap.get k = true) ∧
      frameAllocLoop s n i = (w32 (s.base + j * frameSize), { s with
        bitmap := s.bitmap.set j
        freeFrames := sub32 s.freeFrames 1
        mem := s.mem.fill (w32 (s.base + j * frameSize)) 0 frameSize }) := by
  induction n generalizing i with
  | zero => exact Or.inl ⟨fun j h1 h2 => by omega, rfl⟩
  | succ n ih =>
    rw [frameAllocLoop]
    cases hb : s.bitmap.get i with
    | false => exact Or.inr ⟨i, Nat.le_refl _, by omega, hb, fun k h1 h2 => by omega, rfl⟩
    | true =>
      have hext : ∀ j, i ≤ j → (i + 1 ≤ j → s.bitmap.get j = true) → s.bitmap.get j = true := by
        intro j hj h
        rcases Nat.eq_or_lt_of_le hj with rfl | hlt
        · exact hb
        · exact h hlt
      rcases ih (i + 1) with ⟨hall, heq⟩ | ⟨j, h1, h2, hj, hbelow, heq⟩
      · exact Or.inl ⟨fun j h1 h2 => hext j h1 (fun h => hall j h (by omega)), heq⟩
      · exact Or.inr ⟨j, by omega, by omega, hj,
          fun k h1 h2 => hext k h1 (fun h => hbelow k h h2), heq⟩

/-- `frame_alloc` answers 0 and does nothing, because all frames are allocated, or takes a frame. -/
theorem frameAlloc_cases (hok : s.Ok) :
    (frameAlloc s = (0, s) ∧ s.frames.length = s.count) ∨
      ∃ p s', frameAlloc s = (p, s') ∧ Took s p s' := by
  rcases frameAllocLoop_cases s s.count 0 with ⟨hall, heq⟩ | ⟨j, -, hj, hb, -, heq⟩
  · refine Or.inl ⟨heq, ?_⟩
    have hfull : s.bitmap.members s.count = List.range s.count :=
      List.filter_eq_self.2 (fun i hi => hall i (Nat.zero_le _) (by
        rw [Nat.zero_add]
        exact List.mem_range.1 hi))
    rw [Phys.frames, List.length_map, hfull, List.length_range]
  · rw [Nat.zero_add] at hj
    have hw : w32 (s.base + j * frameSize) = s.base + j * frameSize := by
      have := hok.noWrap
      refine w32_eq ?_
      unfold frameSize at *
      omega
    rw [hw] at heq
    exact Or.inr ⟨_, _, heq, rfl, rfl, (Bitmap.members_set hj hb).map _, rfl⟩

theorem frameAlloc_spec (hok : s.Ok) :
    frameAlloc s = (0, s) ∨ ∃ p s', frameAlloc s = (p, s') ∧ Took s p s' :=
  (frameAlloc_cases hok).imp And.left id

/-- Freeing an allocated frame gives it back. -/
theorem frameFree_spec (hp : p ∈ s.frames) : Gave s p (frameFree p s) := by
  obtain ⟨i, hi, hb, rfl⟩ := Phys.mem_frames.1 hp
  have hidx : (s.base + i * frameSize - s.base) / frameSize = i := by
    rw [Nat.add_sub_cancel_left]
    exact Nat.mul_div_cancel _ (by decide)
  have hfree : frameFree (s.base + i * frameSize) s
      = { s with bitmap := s.bitmap.clear i, freeFrames := w32 (s.freeFrames + 1) } := by
    rw [frameFree, if_neg (by omega), hidx, if_neg]
    rw [not_or, hb]
    exact ⟨Nat.not_le.2 hi, by decide⟩
  rw [hfree]
  exact ⟨rfl, rfl, (Bitmap.members_clear hi hb).map _, rfl⟩

theorem Took.nodup (h : Took s p s') : (p :: s.frames).Nodup :=
  h.frames.nodup_iff.1 s'.nodup_frames

theorem Took.ok (h : Took s p s') (hok : s.Ok) : s'.Ok := hok.of_eq h.base h.count

theorem Gave.ok (h : Gave s p s') (hok : s.Ok) : s'.Ok := hok.of_eq h.base h.count

theorem Took.mem_frames (h : Took s p s') : p ∈ s'.frames :=
  h.frames.mem_iff.2 (List.mem_cons_self ..)

end Alloc

/-! ## After `frame_init` -/

theorem frameInit_bitmap (map : List E820Entry) (mem : Mem) :
    (frameInit map mem).bitmap = Bitmap.zero := by
  unfold frameInit
  simp only
  split_ifs <;> rfl

theorem frameInit_frames (map : List E820Entry) (mem : Mem) : (frameInit map mem).frames = [] := by
  rw [Phys.frames, frameInit_bitmap, Bitmap.members_zero, List.map_nil]

/-- With nothing allocated `frame_alloc` answers the first frame, so it fails when that is at 0. -/
theorem frameAlloc_of_base_zero {s : Phys} (hmap : s.bitmap = Bitmap.zero) (hbase : s.base = 0) :
    (frameAlloc s).1 = 0 := by
  rw [frameAlloc]
  cases s.count with
  | zero => rfl
  | succ n =>
    rw [frameAllocLoop, hmap, Bitmap.get_zero, hbase]
    rfl

/-- Whatever the map, the frames are pages below 2^32. -/
theorem frameInit_ok (map : List E820Entry) (mem : Mem) (hpos : 0 < (frameInit map mem).base) :
    (frameInit map mem).Ok := by
  refine ⟨?_, hpos, ?_⟩
  all_goals
    unfold frameInit w32 frameSize framesMax identityLimit heapReserved
    simp only
    split_ifs <;> simp only <;> omega

end OctoOS
