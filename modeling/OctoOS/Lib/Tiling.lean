import Mathlib.Algebra.GroupWithZero.Nat
import Mathlib.Data.List.Chain
import Mathlib.Data.List.Pairwise
import Mathlib.Tactic.Common

set_option autoImplicit false

/-! # Block lists that tile an interval

The block structure of a first-fit allocator with in-band headers: every block is a header of `H`
bytes followed by its payload, and the blocks of a list follow each other without gaps. The list
operations are first-fit allocation with splitting, release, and the merging of neighbouring free
blocks. A tiling without neighbouring free blocks is determined by its used blocks
(`Tiles.eq_of_used_eq`): the free blocks are exactly the gaps (`Tiles.gap_iff`), so that first fit
over the list is first fit over the gaps (`Tiles.alloc_gap`). -/

namespace Tiling

/-- A block: where its header starts, the length of its payload, and whether it is in use. -/
structure Blk where
  addr : ℕ
  size : ℕ
  used : Bool
  deriving DecidableEq, Repr

variable (H m : ℕ)

/-- The first address after a block. -/
def Blk.fin (b : Blk) : ℕ := b.addr + H + b.size

/-- The blocks follow each other from `lo` to `hi`. -/
def Tiles : ℕ → List Blk → ℕ → Prop
  | lo, [], hi => lo = hi
  | lo, b :: bs, hi => b.addr = lo ∧ Tiles (b.fin H) bs hi

/-- No two neighbouring blocks are both free. -/
def Separated (l : List Blk) : Prop := l.IsChain (fun a b => a.used = true ∨ b.used = true)

/-- The blocks in use, in address order. -/
def usedOf (l : List Blk) : List Blk := l.filter Blk.used

/-- First fit: the first free block of at least `size` bytes, split when the rest can hold a
    header and `m` bytes. Returns the address of the block handed out. -/
def alloc (size : ℕ) : List Blk → Option (ℕ × List Blk)
  | [] => none
  | b :: bs =>
    if b.used = true ∨ b.size < size then (alloc size bs).map (fun r => (r.1, b :: r.2))
    else if size + H + m ≤ b.size then
      some (b.addr, ⟨b.addr, size, true⟩ :: ⟨b.addr + H + size, b.size - size - H, false⟩ :: bs)
    else some (b.addr, ⟨b.addr, b.size, true⟩ :: bs)

/-- Mark the block at `addr` free. -/
def release (addr : ℕ) (l : List Blk) : List Blk :=
  l.map (fun b => if b.addr = addr then { b with used := false } else b)

/-- Put a block in front of a list, merging it with the first one when both are free. -/
def join (a : Blk) : List Blk → List Blk
  | [] => [a]
  | b :: bs =>
    if a.used = true ∨ b.used = true then a :: b :: bs
    else ⟨a.addr, a.size + (H + b.size), false⟩ :: bs

/-- Merge every run of free blocks. -/
def coalesce : List Blk → List Blk
  | [] => []
  | a :: bs => join H a (coalesce bs)

/-- Merge the free blocks that directly follow `a` into it, as long as `a` is free; the inner
    loop of a merging pass from the left. -/
def absorb (a : Blk) : List Blk → Blk × List Blk
  | [] => (a, [])
  | b :: bs =>
    if a.used = true ∨ b.used = true then (a, b :: bs)
    else absorb ⟨a.addr, a.size + (H + b.size), false⟩ bs

variable {H m}

/-! ## Geometry of a tiling -/

section

variable {lo hi : ℕ} {l : List Blk} (h : Tiles H lo l hi)

include h

theorem Tiles.lo_le_hi : lo ≤ hi := by
  induction l generalizing lo with
  | nil => exact le_of_eq h
  | cons b bs ih =>
    obtain ⟨rfl, ht⟩ := h
    have := ih ht
    unfold Blk.fin at this
    omega

theorem Tiles.mem_bounds {b : Blk} (hb : b ∈ l) : lo ≤ b.addr ∧ b.fin H ≤ hi := by
  induction l generalizing lo with
  | nil => cases hb
  | cons c cs ih =>
    obtain ⟨rfl, ht⟩ := h
    rcases List.mem_cons.1 hb with rfl | hb'
    · exact ⟨le_refl _, ht.lo_le_hi⟩
    · have := ih ht hb'
      unfold Blk.fin at this ⊢
      omega

/-- Blocks later in the list lie behind the earlier ones. -/
theorem Tiles.pairwise : l.Pairwise (fun a b => a.fin H ≤ b.addr) := by
  induction l generalizing lo with
  | nil => exact List.Pairwise.nil
  | cons b bs ih =>
    obtain ⟨rfl, ht⟩ := h
    exact List.pairwise_cons.2 ⟨fun c hc => (ht.mem_bounds hc).1, ih ht⟩

/-- Headers and payloads of two blocks of a tiling do not meet. -/
theorem Tiles.disjoint {a b : Blk} (ha : a ∈ l) (hb : b ∈ l) (hne : a ≠ b) : a.fin H ≤ b.addr ∨ b.fin H ≤ a.addr := by
  have hsymm : Std.Symm (fun a b : Blk => a.fin H ≤ b.addr ∨ b.fin H ≤ a.addr) :=
    ⟨fun _ _ => Or.symm⟩
  have hp : l.Pairwise (fun a b => a.fin H ≤ b.addr ∨ b.fin H ≤ a.addr) :=
    h.pairwise.imp Or.inl
  exact hp.forall ha hb hne

end

variable {b : Blk} {l l' : List Blk} {a hi lo size : ℕ}

/-- Distinct blocks of a tiling have distinct addresses. -/
theorem Tiles.eq_of_addr_eq (hH : 0 < H) (h : Tiles H lo l hi) {a : Blk} (ha : a ∈ l) (hb : b ∈ l)
    (hab : a.addr = b.addr) : a = b := by
  by_contra hne
  have := h.disjoint ha hb hne
  unfold Blk.fin at this
  omega

/-- Headers and payloads together fill the interval. -/
theorem Tiles.sum_eq (h : Tiles H lo l hi) : lo + (l.map (fun b => H + b.size)).sum = hi := by
  induction l generalizing lo with
  | nil => simpa [Tiles] using h
  | cons b bs ih =>
    obtain ⟨rfl, ht⟩ := h
    have := ih ht
    unfold Blk.fin at this
    simp only [List.map_cons, List.sum_cons]
    omega

theorem Separated.tail {a : Blk} (h : Separated (a :: l)) : Separated l :=
  List.IsChain.tail h

/-! ## Allocation -/

theorem alloc_tiles (h : Tiles H lo l hi) (ha : alloc H m size l = some (a, l')) :
    Tiles H lo l' hi := by
  induction l generalizing lo l' with
  | nil => exact absurd ha (by simp [alloc])
  | cons b bs ih =>
    obtain ⟨rfl, ht⟩ := h
    rw [alloc] at ha
    split_ifs at ha with hskip hsplit
    · obtain ⟨r, hr, heq⟩ := Option.map_eq_some_iff.1 ha
      cases heq
      exact ⟨rfl, ih ht hr⟩
    · cases ha
      refine ⟨rfl, rfl, ?_⟩
      have hfin : b.addr + H + size + H + (b.size - size - H) = b.fin H := by
        unfold Blk.fin; omega
      simpa only [Blk.fin, hfin] using ht
    · cases ha
      exact ⟨rfl, ht⟩

/-- The block handed out was free, and the used blocks gain exactly it. -/
theorem alloc_used (ha : alloc H m size l = some (a, l')) :
    ∃ n : Blk, n.addr = a ∧ n.used = true ∧ size ≤ n.size ∧
      (∃ f ∈ l, f.addr = a ∧ f.used = false) ∧
      ∀ b, b ∈ usedOf l' ↔ b = n ∨ b ∈ usedOf l := by
  induction l generalizing l' with
  | nil => exact absurd ha (by simp [alloc])
  | cons b bs ih =>
    rw [alloc] at ha
    split_ifs at ha with hskip hsplit
    · obtain ⟨r, hr, heq⟩ := Option.map_eq_some_iff.1 ha
      cases heq
      obtain ⟨n, hna, hnu, hns, ⟨f, hf, hfa, hfu⟩, hmem⟩ := ih hr
      refine ⟨n, hna, hnu, hns, ⟨f, List.mem_cons_of_mem _ hf, hfa, hfu⟩, fun c => ?_⟩
      have := hmem c
      simp only [usedOf, List.mem_filter, List.mem_cons] at this ⊢
      tauto
    all_goals
      simp only [not_or, Bool.not_eq_true, not_lt] at hskip
      cases ha
    · refine ⟨⟨b.addr, size, true⟩, rfl, rfl, le_refl _, ⟨b, by simp, rfl, hskip.1⟩, fun c => ?_⟩
      simp [usedOf, hskip.1]
    · refine ⟨⟨b.addr, b.size, true⟩, rfl, rfl, hskip.2, ⟨b, by simp, rfl, hskip.1⟩, fun c => ?_⟩
      simp [usedOf, hskip.1]

/-- A free block that is large enough is enough. -/
theorem alloc_ne_none (hb : b ∈ l) (hu : b.used = false) (hs : size ≤ b.size) :
    alloc H m size l ≠ none := by
  induction l with
  | nil => cases hb
  | cons c cs ih =>
    rw [alloc]
    by_cases hc : c.used = true ∨ c.size < size
    · rw [if_pos hc]
      have hb' : b ∈ cs := by
        rcases List.mem_cons.1 hb with rfl | hb'
        · rcases hc with h | h
          · rw [hu] at h
            cases h
          · omega
        · exact hb'
      simpa using ih hb'
    · rw [if_neg hc]
      split_ifs <;> simp

/-- Nothing is allocated where all blocks are used. -/
theorem alloc_eq_none (h : ∀ b ∈ l, b.used = true) : alloc H m size l = none := by
  induction l with
  | nil => rfl
  | cons c cs ih =>
    rw [alloc, if_pos (Or.inl (h c (List.mem_cons_self ..))),
      ih (fun b hb => h b (List.mem_cons_of_mem _ hb))]
    rfl

/-- The first block of the list after an allocation: it is used where it was used before. -/
private theorem alloc_head (ha : alloc H m size l = some (a, l')) {c : Blk}
    (hc : l'.head? = some c) : c.used = true ∨ ∃ b, l.head? = some b ∧ b = c := by
  cases l with
  | nil => exact absurd ha (by simp [alloc])
  | cons b bs =>
    rw [alloc] at ha
    split_ifs at ha
    · obtain ⟨r, -, heq⟩ := Option.map_eq_some_iff.1 ha
      cases heq
      exact Or.inr ⟨b, rfl, by simpa using hc⟩
    all_goals
      cases ha
      simp only [List.head?_cons, Option.some.injEq] at hc
      subst hc
      exact Or.inl rfl

theorem separated_cons_iff {a : Blk} :
    Separated (a :: l) ↔ (∀ b, l.head? = some b → a.used = true ∨ b.used = true) ∧ Separated l := by
  cases l with
  | nil => simp [Separated]
  | cons b bs => simp [Separated, List.isChain_cons_cons]

theorem alloc_separated (h : Separated l) (ha : alloc H m size l = some (a, l')) :
    Separated l' := by
  induction l generalizing l' with
  | nil => exact absurd ha (by simp [alloc])
  | cons b bs ih =>
    obtain ⟨hb, hbs⟩ := separated_cons_iff.1 h
    rw [alloc] at ha
    split_ifs at ha with hskip hsplit
    · obtain ⟨r, hr, heq⟩ := Option.map_eq_some_iff.1 ha
      cases heq
      refine separated_cons_iff.2 ⟨fun c hc => ?_, ih hbs hr⟩
      rcases alloc_head hr hc with hu | ⟨c', hc', rfl⟩
      · exact Or.inr hu
      · exact hb c' hc'
    all_goals
      simp only [not_or, Bool.not_eq_true] at hskip
      cases ha
    · refine separated_cons_iff.2 ⟨fun c _ => Or.inl rfl, separated_cons_iff.2 ⟨fun c hc => ?_, hbs⟩⟩
      exact (hb c hc).imp_left (fun hu => absurd hu (by simp [hskip.1]))
    · exact separated_cons_iff.2 ⟨fun c _ => Or.inl rfl, hbs⟩

/-! ## Release and merging -/

theorem release_tiles {addr : ℕ} (h : Tiles H lo l hi) : Tiles H lo (release addr l) hi := by
  induction l generalizing lo with
  | nil => exact h
  | cons b bs ih =>
    obtain ⟨rfl, ht⟩ := h
    have := ih ht
    by_cases hb : b.addr = addr
    · simpa [release, hb, Tiles, Blk.fin] using this
    · simpa [release, hb, Tiles, Blk.fin] using this

theorem mem_usedOf_release {addr : ℕ} :
    b ∈ usedOf (release addr l) ↔ b ∈ usedOf l ∧ b.addr ≠ addr := by
  simp only [usedOf, release, List.mem_filter, List.mem_map]
  constructor
  · rintro ⟨⟨c, hc, rfl⟩, hu⟩
    by_cases hca : c.addr = addr
    · rw [if_pos hca] at hu
      cases hu
    · rw [if_neg hca] at hu ⊢
      exact ⟨⟨hc, hu⟩, hca⟩
  · rintro ⟨⟨hb, hu⟩, hne⟩
    exact ⟨⟨b, hb, by rw [if_neg hne]⟩, hu⟩

theorem join_tiles {a : Blk} (h : Tiles H (a.fin H) l hi) : Tiles H a.addr (join H a l) hi := by
  cases l with
  | nil => exact ⟨rfl, h⟩
  | cons b bs =>
    rw [join]
    split_ifs
    · exact ⟨rfl, h⟩
    · obtain ⟨hb, ht⟩ := h
      refine ⟨rfl, ?_⟩
      have hfin : a.addr + H + (a.size + (H + b.size)) = b.fin H := by
        unfold Blk.fin at hb ⊢; omega
      simpa only [Blk.fin, hfin] using ht

theorem coalesce_tiles (h : Tiles H lo l hi) : Tiles H lo (coalesce H l) hi := by
  induction l generalizing lo with
  | nil => exact h
  | cons b bs ih =>
    obtain ⟨rfl, ht⟩ := h
    exact join_tiles (ih ht)

theorem usedOf_join (a : Blk) (l : List Blk) : usedOf (join H a l) = usedOf (a :: l) := by
  cases l with
  | nil => rfl
  | cons b bs =>
    rw [join]
    split_ifs with h
    · rfl
    · simp only [not_or, Bool.not_eq_true] at h
      simp [usedOf, h.1, h.2]

theorem usedOf_coalesce (l : List Blk) : usedOf (coalesce H l) = usedOf l := by
  induction l with
  | nil => rfl
  | cons a bs ih =>
    rw [coalesce, usedOf_join]
    unfold usedOf at ih ⊢
    rw [List.filter_cons, List.filter_cons, ih]

theorem join_separated {a : Blk} (h : Separated l) : Separated (join H a l) := by
  cases l with
  | nil => exact List.isChain_singleton _
  | cons b bs =>
    rw [join]
    split_ifs with hu
    · refine separated_cons_iff.2 ⟨fun c hc => ?_, h⟩
      simp only [List.head?_cons, Option.some.injEq] at hc
      rwa [← hc]
    · obtain ⟨hb, hbs⟩ := separated_cons_iff.1 h
      simp only [not_or, Bool.not_eq_true] at hu
      refine separated_cons_iff.2 ⟨fun c hc => ?_, hbs⟩
      exact (hb c hc).imp_left (fun hbu => absurd hbu (by simp [hu.2]))

theorem coalesce_separated (l : List Blk) : Separated (coalesce H l) := by
  induction l with
  | nil => exact List.isChain_nil
  | cons a bs ih => exact join_separated ih

/-- Merging from the left, run by run, gives the same list. -/
theorem coalesce_cons_absorb (a : Blk) (l : List Blk) :
    coalesce H (a :: l) = (absorb H a l).1 :: coalesce H (absorb H a l).2 := by
  induction l generalizing a with
  | nil => rfl
  | cons b bs ih =>
    rw [absorb]
    split_ifs with hu
    · -- the merged tail starts with a block that is used whenever `b` is
      have hstep : ∀ c, (coalesce H (b :: bs)).head? = some c → b.used = true → c.used = true := by
        intro c hc hb
        rw [coalesce] at hc
        cases hbs : coalesce H bs with
        | nil => rw [hbs, join] at hc; simp only [List.head?_cons, Option.some.injEq] at hc; rwa [← hc]
        | cons d ds =>
          rw [hbs, join, if_pos (Or.inl hb)] at hc
          simp only [List.head?_cons, Option.some.injEq] at hc
          rwa [← hc]
      rw [coalesce]
      cases hcs : coalesce H (b :: bs) with
      | nil => rfl
      | cons c cs =>
        have hc := hstep c (by rw [hcs]; rfl)
        rw [join, if_pos (hu.imp_right hc)]
    · simp only [not_or, Bool.not_eq_true] at hu
      rw [← ih, coalesce, coalesce, coalesce]
      cases hbs : coalesce H bs with
      | nil => simp [join, hu.1, hu.2]
      | cons c cs =>
        by_cases hc : c.used = true
        · simp [join, hu.1, hu.2, hc]
        · simp only [Bool.not_eq_true] at hc
          simp only [join, hu.1, hu.2, hc, Bool.false_eq_true, or_self, if_false]
          congr 2
          omega

theorem absorb_length_le (a : Blk) (l : List Blk) : (absorb H a l).2.length ≤ l.length := by
  induction l generalizing a with
  | nil => simp [absorb]
  | cons b bs ih =>
    rw [absorb]
    split_ifs
    · exact le_refl _
    · exact le_trans (ih _) (Nat.le_succ _)

theorem absorb_tiles {a : Blk} (h : Tiles H (a.fin H) l hi) :
    (absorb H a l).1.addr = a.addr ∧ Tiles H ((absorb H a l).1.fin H) (absorb H a l).2 hi := by
  induction l generalizing a with
  | nil => exact ⟨rfl, h⟩
  | cons b bs ih =>
    rw [absorb]
    split_ifs
    · exact ⟨rfl, h⟩
    · obtain ⟨hb, ht⟩ := h
      refine ih ?_
      have hfin : a.addr + H + (a.size + (H + b.size)) = b.fin H := by
        unfold Blk.fin at hb ⊢; omega
      simpa only [Blk.fin, hfin] using ht

/-! ## Uniqueness -/

private theorem usedOf_addr_ge (h : Tiles H lo l hi) (hb : b ∈ usedOf l) : lo ≤ b.addr :=
  (h.mem_bounds (List.mem_filter.1 hb).1).1

/-- A used block at the start of a tiling is its first block: nothing else starts there. -/
private theorem eq_cons_of_used (hH : 0 < H) (h : Tiles H lo l hi) (hb : b ∈ usedOf l)
    (hlo : b.addr = lo) : ∃ bs, l = b :: bs := by
  cases l with
  | nil => exact absurd hb (by simp [usedOf])
  | cons c cs =>
    obtain ⟨rfl, ht⟩ := h
    rcases List.mem_cons.1 (List.mem_filter.1 hb).1 with rfl | hmem
    · exact ⟨cs, rfl⟩
    · have := (ht.mem_bounds hmem).1
      unfold Blk.fin at this
      omega

/-- The end of a free first block: the address of the first used block, or the end of the
    interval when there is none. -/
private theorem fin_of_free_head {bs : List Blk} (ht : Tiles H (b.fin H) bs hi)
    (hb : b.used = false) (hs : Separated (b :: bs)) :
    (bs = [] ∧ b.fin H = hi) ∨ ∃ u ∈ usedOf (b :: bs), u.addr = b.fin H := by
  cases bs with
  | nil => exact Or.inl ⟨rfl, ht⟩
  | cons c cs =>
    obtain ⟨hc, -⟩ := ht
    have hcu : c.used = true := by
      rcases (separated_cons_iff.1 hs).1 c rfl with h | h
      · exact absurd h (by simp [hb])
      · exact h
    exact Or.inr ⟨c, by simp [usedOf, hcu], hc⟩

/-- Two separated tilings of one interval with the same used blocks start alike. -/
private theorem head_eq_of_used (hH : 0 < H) {c : Blk} {bs cs : List Blk} (hbc : c.addr = b.addr)
    (ht : Tiles H (b.fin H) bs hi) (ht' : Tiles H (c.fin H) cs hi) (hs : Separated (b :: bs))
    (hs' : Separated (c :: cs)) (hu : ∀ x, x ∈ usedOf (b :: bs) ↔ x ∈ usedOf (c :: cs)) :
    b = c := by
  have hT : Tiles H b.addr (b :: bs) hi := ⟨rfl, ht⟩
  have hT' : Tiles H b.addr (c :: cs) hi := ⟨hbc, ht'⟩
  by_cases hb : b.used = true
  · obtain ⟨l, hl⟩ := eq_cons_of_used hH hT' ((hu b).1 (by simp [usedOf, hb])) rfl
    exact (List.cons.inj hl).1.symm
  by_cases hc : c.used = true
  · obtain ⟨l, hl⟩ := eq_cons_of_used hH hT ((hu c).2 (by simp [usedOf, hc])) hbc
    exact (List.cons.inj hl).1
  -- both are free: each ends at the first used block of its list, which is the same one
  simp only [Bool.not_eq_true] at hb hc
  have hle : ∀ {x y : Blk} {xs ys : List Blk}, y.addr = x.addr → x.used = false →
      Tiles H (x.fin H) xs hi → Tiles H (y.fin H) ys hi → Separated (x :: xs) →
      (∀ z, z ∈ usedOf (x :: xs) → z ∈ usedOf (y :: ys)) → y.used = false →
      y.fin H ≤ x.fin H := by
    intro x y xs ys _ hx htx hty hsx hsub hy
    rcases fin_of_free_head htx hx hsx with ⟨-, hfin⟩ | ⟨u, hmem, hua⟩
    · rw [hfin]; exact hty.lo_le_hi
    · have hyu := hsub u hmem
      simp only [usedOf, List.mem_filter, List.mem_cons] at hyu
      rcases hyu with ⟨rfl | hys, huu⟩
      · exact absurd huu (by simp [hy])
      · rw [← hua]; exact (hty.mem_bounds hys).1
  have h1 := hle hbc hb ht ht' hs (fun z => (hu z).1) hc
  have h2 := hle hbc.symm hc ht' ht hs' (fun z => (hu z).2) hb
  obtain ⟨ba, bsz, bu⟩ := b
  obtain ⟨ca, csz, cu⟩ := c
  simp only [Blk.fin] at hbc hb hc h1 h2
  subst hbc hb hc
  simp only [Blk.mk.injEq, true_and, and_true]
  omega

/-- **A separated tiling is determined by its used blocks.** -/
theorem Tiles.eq_of_used_eq (hH : 0 < H) (h : Tiles H lo l hi) (h' : Tiles H lo l' hi)
    (hs : Separated l) (hs' : Separated l') (hu : ∀ b, b ∈ usedOf l ↔ b ∈ usedOf l') : l = l' := by
  induction l generalizing l' lo with
  | nil =>
    cases l' with
    | nil => rfl
    | cons c cs =>
      obtain ⟨rfl, ht⟩ := h'
      have h1 := ht.lo_le_hi
      have h2 : c.addr = hi := h
      unfold Blk.fin at h1
      omega
  | cons b bs ih =>
    obtain ⟨rfl, ht⟩ := h
    cases l' with
    | nil =>
      have h1 := ht.lo_le_hi
      have h2 : b.addr = hi := h'
      unfold Blk.fin at h1
      omega
    | cons c cs =>
      obtain ⟨hcb, ht'⟩ := h'
      obtain rfl : b = c := head_eq_of_used hH hcb ht ht' hs hs' hu
      congr 1
      refine ih ht ht' hs.tail hs'.tail (fun x => ?_)
      -- `b` itself lies in front of both tails
      have hx := hu x
      have hge : ∀ {l : List Blk}, Tiles H (b.fin H) l hi → x ∈ usedOf l → x ≠ b := by
        intro l htl hmem heq
        have := usedOf_addr_ge htl hmem
        rw [heq] at this
        unfold Blk.fin at this
        omega
      have hcons : ∀ {l : List Blk}, Tiles H (b.fin H) l hi →
          (x ∈ usedOf l ↔ x ∈ usedOf (b :: l) ∧ x ≠ b) := by
        intro l htl
        constructor
        · intro hmem
          refine ⟨?_, hge htl hmem⟩
          simp only [usedOf, List.mem_filter, List.mem_cons] at hmem ⊢
          exact ⟨Or.inr hmem.1, hmem.2⟩
        · rintro ⟨hmem, hne⟩
          simp only [usedOf, List.mem_filter, List.mem_cons] at hmem ⊢
          exact ⟨hmem.1.resolve_left hne, hmem.2⟩
      rw [hcons ht, hcons ht', hx]

/-- Releasing what was just allocated gives the list before the allocation. -/
theorem coalesce_release_alloc (hH : 0 < H) (h : Tiles H lo l hi) (hs : Separated l)
    (ha : alloc H m size l = some (a, l')) : coalesce H (release a l') = l := by
  refine (coalesce_tiles (release_tiles (alloc_tiles h ha))).eq_of_used_eq hH h
    (coalesce_separated _) hs (fun b => ?_)
  obtain ⟨n, hna, -, -, ⟨f, hf, hfa, hfu⟩, hmem⟩ := alloc_used ha
  rw [usedOf_coalesce, mem_usedOf_release, hmem]
  constructor
  · rintro ⟨rfl | hb, hne⟩
    · exact absurd hna hne
    · exact hb
  · intro hb
    refine ⟨Or.inr hb, fun hba => ?_⟩
    obtain rfl := h.eq_of_addr_eq hH (List.mem_filter.1 hb).1 hf (hba.trans hfa.symm)
    exact absurd (List.mem_filter.1 hb).2 (by simp [hfu])

/-! ## Gaps -/

/-- `[a, b)` is a maximal gap between the blocks `us` in `[lo, hi)`. -/
structure Gap (H : ℕ) (us : Blk → Prop) (lo hi a b : ℕ) : Prop where
  nonempty : a < b
  left : a = lo ∨ ∃ u, us u ∧ u.fin H = a
  right : b = hi ∨ ∃ u, us u ∧ u.addr = b
  inside : lo ≤ a ∧ b ≤ hi
  clear : ∀ u, us u → u.fin H ≤ a ∨ b ≤ u.addr

/-- Every address of the interval lies in a block. -/
theorem Tiles.exists_block {x : ℕ} (h : Tiles H lo l hi) (hlo : lo ≤ x) (hhi : x < hi) :
    ∃ f ∈ l, f.addr ≤ x ∧ x < f.fin H := by
  induction l generalizing lo with
  | nil =>
    obtain rfl : lo = hi := h
    omega
  | cons b bs ih =>
    obtain ⟨rfl, ht⟩ := h
    by_cases hx : x < b.fin H
    · exact ⟨b, List.mem_cons_self .., hlo, hx⟩
    · obtain ⟨f, hf, hfx⟩ := ih ht (Nat.le_of_not_lt hx)
      exact ⟨f, List.mem_cons_of_mem _ hf, hfx⟩

/-- Behind a free block there is a used one, or nothing. -/
theorem Tiles.right_of_free (h : Tiles H lo l hi) (hs : Separated l) {f : Blk} (hf : f ∈ l)
    (hu : f.used = false) : f.fin H = hi ∨ ∃ u ∈ usedOf l, u.addr = f.fin H := by
  induction l generalizing lo with
  | nil => cases hf
  | cons b bs ih =>
    obtain ⟨rfl, ht⟩ := h
    rcases List.mem_cons.1 hf with rfl | hf'
    · exact (fin_of_free_head ht hu hs).imp_left And.right
    · refine (ih ht hs.tail hf').imp_right (fun ⟨u, hu, hua⟩ => ⟨u, ?_, hua⟩)
      simp only [usedOf, List.mem_filter, List.mem_cons] at hu ⊢
      exact ⟨Or.inr hu.1, hu.2⟩

/-- In front of a free block there is a used one, or nothing. -/
theorem Tiles.left_of_free (hH : 0 < H) (h : Tiles H lo l hi) (hs : Separated l) {f : Blk}
    (hf : f ∈ l) (hu : f.used = false) : f.addr = lo ∨ ∃ u ∈ usedOf l, u.fin H = f.addr := by
  induction l generalizing lo with
  | nil => cases hf
  | cons b bs ih =>
    obtain ⟨rfl, ht⟩ := h
    rcases List.mem_cons.1 hf with rfl | hf'
    · exact Or.inl rfl
    · rcases ih ht hs.tail hf' with hlo | ⟨u, hu', hua⟩
      · -- `f` comes right behind `b`, which is used
        cases bs with
        | nil => exact absurd hf' (by simp)
        | cons c cs =>
          obtain rfl : f = c :=
            ht.eq_of_addr_eq hH hf' (List.mem_cons_self ..) (hlo.trans ht.1.symm)
          have hb : b.used = true :=
            ((separated_cons_iff.1 hs).1 f rfl).resolve_right (by simp [hu])
          exact Or.inr ⟨b, by simp [usedOf, hb], hlo.symm⟩
      · refine Or.inr ⟨u, ?_, hua⟩
        simp only [usedOf, List.mem_filter, List.mem_cons] at hu' ⊢
        exact ⟨Or.inr hu'.1, hu'.2⟩

/-- **The gaps between the used blocks are the free blocks.** -/
theorem Tiles.gap_iff (hH : 0 < H) {b : ℕ} (h : Tiles H lo l hi) (hs : Separated l) :
    Gap H (· ∈ usedOf l) lo hi a b ↔ ∃ f ∈ l, f.used = false ∧ f.addr = a ∧ f.fin H = b := by
  constructor
  · intro hg
    obtain ⟨hlo, hhi⟩ := hg.inside
    have hab := hg.nonempty
    obtain ⟨f, hf, hfa, hfb⟩ := h.exists_block hlo (Nat.lt_of_lt_of_le hab hhi)
    -- the block at `a` is free, as the gap is clear of used ones
    have hfree : f.used = false := by
      by_contra hu
      have := hg.clear f (List.mem_filter.2 ⟨hf, by simpa using hu⟩)
      omega
    have hapart : ∀ u ∈ usedOf l, f.fin H ≤ u.addr ∨ u.fin H ≤ f.addr := by
      intro u hu
      obtain ⟨hul, huu⟩ := List.mem_filter.1 hu
      refine h.disjoint hf hul (fun heq => ?_)
      rw [heq, huu] at hfree
      cases hfree
    refine ⟨f, hf, hfree, ?_, ?_⟩
    · rcases hg.left with rfl | ⟨u, hu, hua⟩
      · exact Nat.le_antisymm hfa (h.mem_bounds hf).1
      · have := hapart u hu
        unfold Blk.fin at this hua hfb
        omega
    · have hle : f.fin H ≤ b := by
        rcases hg.right with rfl | ⟨u, hu, hub⟩
        · exact (h.mem_bounds hf).2
        · have := hapart u hu
          unfold Blk.fin at this hfb ⊢
          omega
      -- a gap does not end at a used block inside it
      rcases h.right_of_free hs hf hfree with hfin | ⟨u, hu, hua⟩
      · omega
      · have := hg.clear u hu
        unfold Blk.fin at this hua hle hfb ⊢
        omega
  · rintro ⟨f, hf, hu, rfl, rfl⟩
    refine ⟨by unfold Blk.fin; omega, h.left_of_free hH hs hf hu, ?_, h.mem_bounds hf, ?_⟩
    · exact (h.right_of_free hs hf hu).imp_right (fun ⟨u, hmem, hua⟩ => ⟨u, hmem, hua⟩)
    · intro u hmem
      obtain ⟨hul, huu⟩ := List.mem_filter.1 hmem
      refine h.disjoint hul hf (fun heq => ?_)
      rw [← heq, huu] at hu
      cases hu

/-- First fit: the block taken is the first free one that is large enough. -/
theorem alloc_eq_some (ha : alloc H m size l = some (a, l')) :
    ∃ pre f post, l = pre ++ f :: post ∧ f.addr = a ∧ f.used = false ∧ size ≤ f.size ∧
      ∀ c ∈ pre, c.used = true ∨ c.size < size := by
  induction l generalizing l' with
  | nil => exact absurd ha (by simp [alloc])
  | cons b bs ih =>
    rw [alloc] at ha
    by_cases hskip : b.used = true ∨ b.size < size
    · rw [if_pos hskip] at ha
      obtain ⟨r, hr, heq⟩ := Option.map_eq_some_iff.1 ha
      cases heq
      obtain ⟨pre, f, post, rfl, hfa, hfu, hfs, hpre⟩ := ih hr
      refine ⟨b :: pre, f, post, rfl, hfa, hfu, hfs, fun c hc => ?_⟩
      rcases List.mem_cons.1 hc with rfl | hc'
      · exact hskip
      · exact hpre c hc'
    · rw [if_neg hskip] at ha
      simp only [not_or, Bool.not_eq_true, not_lt] at hskip
      refine ⟨[], b, bs, rfl, ?_, hskip.1, hskip.2, by simp⟩
      split_ifs at ha
      · exact congrArg Prod.fst (Option.some.inj ha)
      · exact congrArg Prod.fst (Option.some.inj ha)

/-- Nothing is allocated exactly when no gap has room for a header and `size` bytes. -/
theorem Tiles.alloc_none_iff (hH : 0 < H) (h : Tiles H lo l hi) (hs : Separated l) :
    alloc H m size l = none ↔ ∀ a b, Gap H (· ∈ usedOf l) lo hi a b → b - a < H + size := by
  constructor
  · intro hnone a b hg
    obtain ⟨f, hf, hu, rfl, rfl⟩ := (h.gap_iff hH hs).1 hg
    by_contra hbig
    refine alloc_ne_none hf hu ?_ hnone
    unfold Blk.fin at hbig
    omega
  · intro hsmall
    cases hal : alloc H m size l with
    | none => rfl
    | some r =>
      obtain ⟨pre, f, post, rfl, -, hu, hsize, -⟩ := alloc_eq_some hal
      have := hsmall _ _ ((h.gap_iff hH hs).2 ⟨f, by simp, hu, rfl, rfl⟩)
      unfold Blk.fin at this
      omega

/-- What is allocated is the start of the lowest gap with room for a header and `size` bytes. -/
theorem Tiles.alloc_gap (hH : 0 < H) (h : Tiles H lo l hi) (hs : Separated l)
    (ha : alloc H m size l = some (a, l')) :
    (∃ b, Gap H (· ∈ usedOf l) lo hi a b ∧ H + size ≤ b - a) ∧
      ∀ a' b', Gap H (· ∈ usedOf l) lo hi a' b' → H + size ≤ b' - a' → a ≤ a' := by
  obtain ⟨pre, f, post, rfl, rfl, hu, hsize, hpre⟩ := alloc_eq_some ha
  refine ⟨⟨f.fin H, (h.gap_iff hH hs).2 ⟨f, by simp, hu, rfl, rfl⟩, ?_⟩, fun a' b' hg hroom => ?_⟩
  · unfold Blk.fin
    omega
  · obtain ⟨g, hmem, hgu, rfl, rfl⟩ := (h.gap_iff hH hs).1 hg
    rcases List.mem_append.1 hmem with hgpre | hgrest
    · -- a gap in front of `f` was passed over
      have := (hpre g hgpre).resolve_left (by simp [hgu])
      unfold Blk.fin at hroom
      omega
    · rcases List.mem_cons.1 hgrest with rfl | hgpost
      · exact Nat.le_refl _
      · have hp := (List.pairwise_append.1 h.pairwise).2.1
        have := (List.pairwise_cons.1 hp).1 g hgpost
        unfold Blk.fin at this
        omega

end Tiling
