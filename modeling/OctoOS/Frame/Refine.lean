import OctoOS.Frame
import Mathlib.Data.Finset.Max

set_option autoImplicit false

/-! # The frame allocator as a set

What the bitmap, the counter and the address arithmetic of `frame.c` are for: a set of allocated
frames. Taking gives out the lowest frame that is not in the set, and giving back takes the frame
around an address out of it. `FrameRun` runs both side by side, with any addresses in the calls and
any writes to memory between them. -/

namespace OctoOS

/-- The frames there are. -/
def frameSpace (base count : ℕ) : Finset ℕ :=
  (Finset.range count).image (fun i => base + i * frameSize)

/-- The frame at `p` contains the address `phys`. -/
def InFrame (phys p : ℕ) : Prop := p ≤ phys ∧ phys < p + frameSize
  deriving Decidable

/-- Take the lowest frame of `all` that is not in the set `t`; 0 when there is none. -/
def takeLowest (all t : Finset ℕ) : ℕ × Finset ℕ :=
  if h : (all \ t).Nonempty then ((all \ t).min' h, insert ((all \ t).min' h) t) else (0, t)

/-- Take the frame around `phys` out of the set. -/
def giveBack (phys : ℕ) (t : Finset ℕ) : Finset ℕ := t.filter (fun p => ¬ InFrame phys p)

/-- The states of the allocator that calls lead to from `s0`, each with the set of frames that the
    same calls lead to. -/
inductive FrameRun (s0 : Phys) : Phys → Finset ℕ → Prop where
  | init : FrameRun s0 s0 ∅
  | alloc {s : Phys} {t : Finset ℕ} : FrameRun s0 s t →
      FrameRun s0 (frameAlloc s).2 (takeLowest (frameSpace s0.base s0.count) t).2
  | free {s : Phys} {t : Finset ℕ} (phys : ℕ) : phys < 2 ^ 32 → FrameRun s0 s t →
      FrameRun s0 (frameFree phys s) (giveBack phys t)
  /-- Somebody writes to memory. -/
  | write {s : Phys} {t : Finset ℕ} (mem : Mem) : FrameRun s0 s t → FrameRun s0 { s with mem := mem } t

/-- The allocator in state `s` behaves as the set `t` of allocated frames. -/
structure FramesRefine (s0 s : Phys) (t : Finset ℕ) : Prop where
  set : s.frames.toFinset = t
  counter : s.freeFrames = s0.count - t.card
  /-- `frame_alloc` returns the lowest frame that is not in the set, or 0. -/
  answer : (frameAlloc s).1 = (takeLowest (frameSpace s0.base s0.count) t).1
  answer_zero : (frameAlloc s).1 = 0 ↔ t = frameSpace s0.base s0.count
  zeroed : (frameAlloc s).1 ≠ 0 → ∀ a, InFrame a (frameAlloc s).1 → (frameAlloc s).2.mem a = 0
  /-- `frame_free` of an address in no allocated frame does nothing. -/
  bogus : ∀ phys, (∀ p ∈ t, ¬ InFrame phys p) → frameFree phys s = s
  /-- The bytes behind the array `bitmap` are not touched. -/
  inside : ∀ k, framesMax / 8 ≤ k → s.bitmap k = s0.bitmap k

section Refine

variable {s0 s : Phys} {t : Finset ℕ} {phys p : ℕ}

theorem mem_frameSpace {base count : ℕ} : p ∈ frameSpace base count ↔
    ∃ i < count, base + i * frameSize = p := by
  simp [frameSpace]

/-- The invariant of runs. -/
structure FrameInv (s0 s : Phys) (t : Finset ℕ) : Prop where
  base : s.base = s0.base
  count : s.count = s0.count
  set : s.frames.toFinset = t
  counter : s.freeFrames + t.card = s0.count
  inside : ∀ k, s0.count ≤ 8 * k → s.bitmap k = s0.bitmap k

theorem FrameInv.mem_iff (hi : FrameInv s0 s t) : p ∈ t ↔
    ∃ i < s0.count, s.bitmap.get i = true ∧ s0.base + i * frameSize = p := by
  rw [← hi.set, List.mem_toFinset, Phys.mem_frames, hi.base, hi.count]

theorem FrameInv.get_iff (hi : FrameInv s0 s t) {i : ℕ} (hlt : i < s0.count) :
    s.bitmap.get i = true ↔ s0.base + i * frameSize ∈ t := by
  rw [hi.mem_iff]
  constructor
  · exact fun h => ⟨i, hlt, h, rfl⟩
  · rintro ⟨j, -, hj, heq⟩
    obtain rfl : j = i := by
      unfold frameSize at heq
      omega
    exact hj

theorem FrameInv.subset (hi : FrameInv s0 s t) : t ⊆ frameSpace s0.base s0.count := by
  intro p hp
  obtain ⟨i, hlt, -, rfl⟩ := hi.mem_iff.1 hp
  exact mem_frameSpace.2 ⟨i, hlt, rfl⟩

theorem takeLowest_full {all : Finset ℕ} (h : all ⊆ t) : takeLowest all t = (0, t) := by
  rw [takeLowest, dif_neg]
  rwa [Finset.sdiff_nonempty, not_not]

theorem takeLowest_eq {all : Finset ℕ} (hp : p ∈ all) (hnot : p ∉ t)
    (hlow : ∀ q ∈ all, q ∉ t → p ≤ q) : takeLowest all t = (p, insert p t) := by
  have hmem : p ∈ all \ t := Finset.mem_sdiff.2 ⟨hp, hnot⟩
  have hmin : (all \ t).min' ⟨p, hmem⟩ = p := by
    refine le_antisymm (Finset.min'_le _ _ hmem) (Finset.le_min' _ _ _ (fun q hq => ?_))
    obtain ⟨hq, hqt⟩ := Finset.mem_sdiff.1 hq
    exact hlow q hq hqt
  rw [takeLowest, dif_pos ⟨p, hmem⟩, hmin]

/-- The two outcomes of `frame_alloc`, and that the set has the same one. -/
theorem FrameInv.alloc_cases (hok : s0.Ok) (hi : FrameInv s0 s t) :
    t = frameSpace s0.base s0.count ∧ frameAlloc s = (0, s) ∧
        takeLowest (frameSpace s0.base s0.count) t = (0, t) ∨
      ∃ j < s0.count, s.bitmap.get j = false ∧ s0.base + j * frameSize ∉ t ∧
        frameAlloc s = (s0.base + j * frameSize, { s with
          bitmap := s.bitmap.set j
          freeFrames := sub32 s.freeFrames 1
          mem := s.mem.fill (s0.base + j * frameSize) 0 frameSize }) ∧
        takeLowest (frameSpace s0.base s0.count) t
          = (s0.base + j * frameSize, insert (s0.base + j * frameSize) t) := by
  rcases frameAllocLoop_cases s s.count 0 with ⟨hall, heq⟩ | ⟨j, -, hj, hb, hbelow, heq⟩
  · left
    have hfull : frameSpace s0.base s0.count ⊆ t := by
      intro p hp
      obtain ⟨i, hlt, rfl⟩ := mem_frameSpace.1 hp
      refine (hi.get_iff hlt).1 (hall i (Nat.zero_le _) ?_)
      rwa [Nat.zero_add, hi.count]
    exact ⟨subset_antisymm hi.subset hfull, heq, takeLowest_full hfull⟩
  · right
    rw [Nat.zero_add, hi.count] at hj
    have hw : w32 (s.base + j * frameSize) = s0.base + j * frameSize := by
      have := hok.noWrap
      rw [hi.base]
      refine w32_eq ?_
      unfold frameSize at *
      omega
    have hnot : s0.base + j * frameSize ∉ t := by
      rw [← hi.get_iff hj, hb]
      decide
    rw [hw] at heq
    refine ⟨j, hj, hb, hnot, heq, takeLowest_eq (mem_frameSpace.2 ⟨j, hj, rfl⟩) hnot ?_⟩
    -- the frames below are all in the set
    intro q hq hqt
    obtain ⟨i, hlt, rfl⟩ := mem_frameSpace.1 hq
    by_contra hlow
    refine hqt ((hi.get_iff hlt).1 (hbelow i (Nat.zero_le _) ?_))
    unfold frameSize at hlow
    omega

/-- Changing one bit in front of `count` stays inside the bytes that are counted. -/
theorem FrameInv.update_inside (hi : FrameInv s0 s t) {j : ℕ} (hj : j < s0.count) (b : BitVec 8) :
    ∀ k, s0.count ≤ 8 * k → Function.update s.bitmap (j / 8) b k = s0.bitmap k := by
  intro k hk
  rw [Function.update_of_ne (by omega), hi.inside k hk]

theorem FrameInv.alloc (hok : s0.Ok) (hi : FrameInv s0 s t) :
    FrameInv s0 (frameAlloc s).2 (takeLowest (frameSpace s0.base s0.count) t).2 := by
  rcases hi.alloc_cases hok with ⟨-, heq, htake⟩ | ⟨j, hj, hb, hnot, heq, htake⟩
  · rw [heq, htake]
    exact hi
  rw [heq, htake]
  refine ⟨hi.base, hi.count, ?_, ?_, hi.update_inside hj _⟩
  · have hj' : j < s.count := by
      rw [hi.count]
      exact hj
    have hperm := (Bitmap.members_set hj' hb).map (fun i => s.base + i * frameSize)
    rw [← hi.set, ← List.toFinset_cons, ← hi.base]
    exact List.toFinset_eq_of_perm _ _ hperm
  · -- the counter is not at 0: a frame is left
    have hlt : t.card < s0.count := by
      have hss : t ⊂ frameSpace s0.base s0.count := by
        refine (Finset.ssubset_iff_of_subset hi.subset).2 ⟨_, mem_frameSpace.2 ⟨j, hj, rfl⟩, hnot⟩
      have hcard : (frameSpace s0.base s0.count).card ≤ (Finset.range s0.count).card :=
        Finset.card_image_le
      rw [Finset.card_range] at hcard
      exact lt_of_lt_of_le (Finset.card_lt_card hss) hcard
    have hcounter := hi.counter
    have hwrap := hok.noWrap
    have hpos := hok.pos
    rw [Finset.card_insert_of_notMem hnot]
    unfold frameSize at hwrap
    simp only
    rw [sub32_eq (by omega) (by omega)]
    omega

/-- The two outcomes of `frame_free`, and that the set has the same one. -/
theorem FrameInv.free_cases (hi : FrameInv s0 s t) (phys : ℕ) :
    (frameFree phys s = s ∧ giveBack phys t = t) ∨
      ∃ i < s0.count, s.bitmap.get i = true ∧ InFrame phys (s0.base + i * frameSize) ∧
        frameFree phys s
          = { s with bitmap := s.bitmap.clear i, freeFrames := w32 (s.freeFrames + 1) } ∧
        giveBack phys t = t.erase (s0.base + i * frameSize) := by
  by_cases hin : ∃ i < s0.count, s.bitmap.get i = true ∧ InFrame phys (s0.base + i * frameSize)
  · right
    obtain ⟨i, hlt, hb, hphys⟩ := hin
    have hidx : (phys - s0.base) / frameSize = i := by
      unfold InFrame frameSize at *
      omega
    refine ⟨i, hlt, hb, hphys, ?_, ?_⟩
    · have hge : ¬ phys < s.base := by
        rw [hi.base]
        exact Nat.not_lt.2 (le_trans (Nat.le_add_right _ _) hphys.1)
      rw [frameFree, if_neg hge, hi.base, hi.count, hidx, if_neg]
      rw [not_or, hb]
      exact ⟨Nat.not_le.2 hlt, by decide⟩
    · -- no other frame contains the address
      ext q
      rw [giveBack, Finset.mem_filter, Finset.mem_erase, and_comm, and_congr_left_iff]
      intro hq
      obtain ⟨k, -, -, rfl⟩ := hi.mem_iff.1 hq
      unfold InFrame frameSize at *
      constructor <;> intro h <;> omega
  · left
    refine ⟨?_, ?_⟩
    · rw [frameFree]
      simp only
      split_ifs with hlow hno
      · rfl
      · rfl
      · exfalso
        rw [not_or, hi.base, hi.count, Bool.not_eq_false] at hno
        refine hin ⟨_, Nat.lt_of_not_le hno.1, hno.2, ?_⟩
        rw [hi.base] at hlow
        unfold InFrame frameSize
        omega
    · refine Finset.filter_true_of_mem (fun q hq hphys => hin ?_)
      obtain ⟨k, hlt, hk, rfl⟩ := hi.mem_iff.1 hq
      exact ⟨k, hlt, hk, hphys⟩

theorem FrameInv.free (hok : s0.Ok) (hi : FrameInv s0 s t) (phys : ℕ) :
    FrameInv s0 (frameFree phys s) (giveBack phys t) := by
  rcases hi.free_cases phys with ⟨heq, hgive⟩ | ⟨i, hlt, hb, -, heq, hgive⟩
  · rw [heq, hgive]
    exact hi
  have hmem := (hi.get_iff hlt).1 hb
  rw [heq, hgive]
  refine ⟨hi.base, hi.count, ?_, ?_, hi.update_inside hlt _⟩
  · have hgave : Gave s (s.base + i * frameSize)
        { s with bitmap := s.bitmap.clear i, freeFrames := w32 (s.freeFrames + 1) } :=
      ⟨rfl, rfl, (Bitmap.members_clear (by rw [hi.count]; exact hlt) hb).map _, rfl⟩
    have hnodup := hgave.frames.nodup_iff.1 s.nodup_frames
    rw [← hi.set, ← hi.base, List.toFinset_eq_of_perm _ _ hgave.frames, List.toFinset_cons,
      Finset.erase_insert]
    rw [List.mem_toFinset]
    exact (List.nodup_cons.1 hnodup).1
  · have hcounter := hi.counter
    have hwrap := hok.noWrap
    have hpos := hok.pos
    have hcard := Finset.card_erase_add_one hmem
    unfold frameSize at hwrap
    simp only
    rw [w32_eq (by omega)]
    omega

theorem FrameRun.inv (hok : s0.Ok) (hempty : s0.bitmap = Bitmap.zero)
    (hfree : s0.freeFrames = s0.count) (hrun : FrameRun s0 s t) : FrameInv s0 s t := by
  induction hrun with
  | init =>
    refine ⟨rfl, rfl, ?_, by rw [hfree]; rfl, fun _ _ => rfl⟩
    rw [Phys.frames, hempty, Bitmap.members_zero]
    rfl
  | alloc _ ih => exact ih.alloc hok
  | free phys _ _ ih => exact ih.free hok phys
  | write mem _ ih => exact ⟨ih.base, ih.count, ih.set, ih.counter, ih.inside⟩

end Refine

/-- **The frame allocator refines a finite set**, after any calls with any addresses. -/
theorem frameRun_refines {s0 s : Phys} {t : Finset ℕ} (haligned : s0.base % frameSize = 0)
    (hpos : 0 < s0.base) (hcount : s0.count ≤ framesMax)
    (hwrap : s0.base + frameSize * s0.count < 2 ^ 32) (hempty : s0.bitmap = Bitmap.zero)
    (hfree : s0.freeFrames = s0.count) (hrun : FrameRun s0 s t) : FramesRefine s0 s t := by
  have hok : s0.Ok := ⟨haligned, hpos, by rw [Nat.mul_comm]; exact Nat.le_of_lt hwrap⟩
  have hi := hrun.inv hok hempty hfree
  have hcounter := hi.counter
  refine ⟨hi.set, by omega, ?_, ?_, ?_, fun phys hno => ?_, fun k hk => hi.inside k ?_⟩
  · rcases hi.alloc_cases hok with ⟨-, heq, htake⟩ | ⟨j, -, -, -, heq, htake⟩
    · rw [heq, htake]
    · rw [heq, htake]
  · rcases hi.alloc_cases hok with ⟨hfull, heq, -⟩ | ⟨j, hj, -, hnot, heq, -⟩
    · exact iff_of_true (by rw [heq]) hfull
    · refine iff_of_false (by rw [heq]; simp only; omega) (fun hfull => hnot ?_)
      rw [hfull]
      exact mem_frameSpace.2 ⟨j, hj, rfl⟩
  · intro hne a ha
    rcases hi.alloc_cases hok with ⟨-, heq, -⟩ | ⟨j, -, -, -, heq, -⟩
    · rw [heq] at hne
      exact absurd rfl hne
    · rw [heq] at ha ⊢
      exact if_pos ha
  · rcases hi.free_cases phys with ⟨heq, -⟩ | ⟨i, hlt, hb, hphys, -⟩
    · exact heq
    · exact absurd hphys (hno _ ((hi.get_iff hlt).1 hb))
  · unfold framesMax at hcount hk
    omega

/-- Four frames from 1 MiB on. -/
def fourFrames : Phys := ⟨0x100000, 4, Bitmap.zero, 4, fun _ => 0xFF⟩

/-- The first two frames are taken, the first is given back through an address inside it, an
    address above all frames is given back, and a frame is taken again. -/
theorem frameRun_refines_fourFrames :
    FramesRefine fourFrames
      (frameAlloc (frameFree 0xFFFFFFFF (frameFree 0x100ABC (frameAlloc (frameAlloc fourFrames).2).2))).2
      (takeLowest (frameSpace 0x100000 4) (giveBack 0xFFFFFFFF (giveBack 0x100ABC (takeLowest
        (frameSpace 0x100000 4) (takeLowest (frameSpace 0x100000 4) ∅).2).2))).2 := by
  have hrun : FrameRun fourFrames fourFrames ∅ := FrameRun.init
  exact frameRun_refines (by decide) (by decide) (by decide) (by decide) rfl rfl
    (((hrun.alloc.alloc.free 0x100ABC (by decide)).free 0xFFFFFFFF (by decide)).alloc)

end OctoOS
