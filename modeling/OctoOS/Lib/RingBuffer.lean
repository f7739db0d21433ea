import Mathlib.Logic.Function.Basic
import Mathlib.Algebra.Group.Nat.Defs

set_option autoImplicit false

/-! # Ring buffers with wrapping indices

A buffer of `2 ^ w` cells with two `w`-bit indices. One cell stays unused: with `head = tail` the
ring is empty, with `head + 1 = tail` it is full, with `2 ^ w - 1` elements in it (`full_iff`).
`contents` is the queue the ring stands for. -/

/-- The cells and the two indices of a ring. -/
structure RingBuffer (w : ℕ) (α : Type) where
  buf : BitVec w → α
  head : BitVec w
  tail : BitVec w

namespace RingBuffer

variable {w : ℕ} {α : Type} {x : BitVec w} {r : RingBuffer w α}

/-- The queue, oldest first. -/
def contents (r : RingBuffer w α) : List α :=
  (List.range (r.head - r.tail).toNat).map (fun k => r.buf (r.tail + BitVec.ofNat w k))

/-- Write a cell and move the head. -/
def push (r : RingBuffer w α) (a : α) : RingBuffer w α :=
  ⟨Function.update r.buf r.head a, r.head + 1, r.tail⟩

/-- Move the tail. -/
def pop (r : RingBuffer w α) : RingBuffer w α := ⟨r.buf, r.head, r.tail + 1⟩

theorem sub_eq_zero_iff {y : BitVec w} : x - y = 0#w ↔ x = y := by
  constructor
  · intro h
    have hxy : x - y + y = 0#w + y := congrArg (· + y) h
    rwa [BitVec.sub_add_cancel, BitVec.zero_add] at hxy
  · rintro rfl
    exact BitVec.sub_self x

/-- A counter that does not wrap around grows by one. -/
theorem toNat_succ (h : x + 1 ≠ 0#w) : (x + 1).toNat = x.toNat + 1 := by
  rw [BitVec.toNat_add]
  have hx := x.isLt
  rcases Nat.eq_zero_or_pos w with rfl | hw
  · exact absurd (BitVec.eq_of_zero_length rfl) h
  have hone : (1 : BitVec w).toNat = 1 := BitVec.toNat_one hw
  rw [hone]
  refine Nat.mod_eq_of_lt (Nat.lt_of_le_of_ne hx (fun hc => h ?_))
  apply BitVec.eq_of_toNat_eq
  rw [BitVec.toNat_add, hone, hc, Nat.mod_self]
  rfl

/-- Pushing into a ring that is not full appends to the queue. -/
theorem contents_push (h : r.head + 1 ≠ r.tail) (a : α) :
    (r.push a).contents = r.contents ++ [a] := by
  have hstep : r.head + 1 - r.tail = r.head - r.tail + 1 := by
    rw [BitVec.sub_eq_add_neg, BitVec.sub_eq_add_neg, BitVec.add_assoc, BitVec.add_assoc,
      BitVec.add_comm 1]
  have hlen : (r.head + 1 - r.tail).toNat = (r.head - r.tail).toNat + 1 := by
    rw [hstep]
    exact toNat_succ (fun hc => h (sub_eq_zero_iff.1 (hstep.trans hc)))
  have hback : ∀ x : BitVec w, r.tail + (x - r.tail) = x := fun x => by
    rw [BitVec.add_comm, BitVec.sub_add_cancel]
  unfold contents push
  rw [hlen, List.range_succ, List.map_append, List.map_singleton]
  congr 1
  · -- the cells of the queue are not the one written
    refine List.map_congr_left (fun k hk => Function.update_of_ne (fun hc => ?_) _ _)
    have hk' := List.mem_range.1 hk
    have hidx : BitVec.ofNat w k = r.head - r.tail := by
      rw [← hc, BitVec.add_comm, BitVec.add_sub_cancel]
    rw [← hidx, BitVec.toNat_ofNat] at hk'
    exact absurd (Nat.mod_le k (2 ^ w)) (by omega)
  · rw [BitVec.ofNat_toNat, BitVec.setWidth_eq, hback]
    exact congrArg (fun b => [b]) (Function.update_self ..)

/-- Popping takes the oldest element. -/
theorem contents_pop (h : r.head ≠ r.tail) : r.contents = r.buf r.tail :: r.pop.contents := by
  have hstep : r.head - (r.tail + 1) + 1 = r.head - r.tail := by
    rw [BitVec.sub_eq_add_neg, BitVec.neg_add, BitVec.sub_eq_add_neg, ← BitVec.add_assoc,
      ← BitVec.sub_eq_add_neg, BitVec.sub_add_cancel, BitVec.sub_eq_add_neg]
  have hlen : (r.head - r.tail).toNat = (r.head - (r.tail + 1)).toNat + 1 := by
    rw [← hstep]
    exact toNat_succ (fun hc => h (sub_eq_zero_iff.1 (hstep.symm.trans hc)))
  unfold contents pop
  rw [hlen, List.range_succ_eq_map, List.map_cons, List.map_map]
  congr 1
  · rw [show BitVec.ofNat w 0 = 0#w from rfl, BitVec.add_zero]
  · refine List.map_congr_left (fun k _ => ?_)
    have hk : BitVec.ofNat w (k + 1) = 1 + BitVec.ofNat w k := by
      rw [BitVec.ofNat_add, BitVec.add_comm]
      rfl
    rw [Function.comp_apply, Nat.succ_eq_add_one, hk, BitVec.add_assoc]

theorem length_contents (r : RingBuffer w α) : r.contents.length = (r.head - r.tail).toNat := by
  rw [contents, List.length_map, List.length_range]

theorem contents_eq_nil_iff : r.contents = [] ↔ r.head = r.tail := by
  rw [← List.length_eq_zero_iff, length_contents, ← sub_eq_zero_iff, BitVec.toNat_eq]
  rfl

/-- A counter wraps around from its greatest value. -/
theorem add_one_eq_zero_iff : x + 1 = 0#w ↔ x.toNat + 1 = 2 ^ w := by
  have hx := x.isLt
  constructor
  · intro h
    rcases Nat.eq_zero_or_pos w with rfl | hw
    · have hpow : 2 ^ 0 = 1 := rfl
      omega
    · have hzero := congrArg BitVec.toNat h
      rw [BitVec.toNat_add, show (1 : BitVec w).toNat = 1 from BitVec.toNat_one hw,
        BitVec.toNat_zero] at hzero
      have hdvd := Nat.le_of_dvd (Nat.succ_pos _) (Nat.dvd_of_mod_eq_zero hzero)
      omega
  · intro h
    by_contra hne
    have hlt := (x + 1).isLt
    rw [toNat_succ hne] at hlt
    omega

/-- The ring is full when all cells but one hold an element. -/
theorem full_iff : r.head + 1 = r.tail ↔ r.contents.length + 1 = 2 ^ w := by
  have hstep : r.head + 1 - r.tail = r.head - r.tail + 1 := by
    rw [BitVec.sub_eq_add_neg, BitVec.sub_eq_add_neg, BitVec.add_assoc, BitVec.add_assoc,
      BitVec.add_comm 1]
  rw [length_contents, ← sub_eq_zero_iff, hstep, add_one_eq_zero_iff]

end RingBuffer
