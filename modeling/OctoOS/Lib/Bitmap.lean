import Mathlib.Data.List.Nodup
import Mathlib.Data.List.Perm.Basic
import Mathlib.Data.Nat.Notation
import Mathlib.Logic.Function.Basic
import Mathlib.Tactic.Common

set_option autoImplicit false

/-! # Bitmaps

A set of small numbers in an array of bytes: number `i` is bit `i % 8` of byte `i / 8`. The three
operations are the usual mask expressions; `members` lists the set. Taking a number in or out
changes the list by that number, up to order. -/

/-- The bytes of a bitmap. -/
abbrev Bitmap := ℕ → BitVec 8

namespace Bitmap

variable {b : Bitmap} {i j n : ℕ}

/-- `bitmap[i / 8] & (1u << (i % 8))` -/
def get (b : Bitmap) (i : ℕ) : Bool := b (i / 8) &&& (1#8 <<< (i % 8)) ≠ 0#8

/-- `bitmap[i / 8] |= (1u << (i % 8))` -/
def set (b : Bitmap) (i : ℕ) : Bitmap :=
  Function.update b (i / 8) (b (i / 8) ||| (1#8 <<< (i % 8)))

/-- `bitmap[i / 8] &= ~(1u << (i % 8))` -/
def clear (b : Bitmap) (i : ℕ) : Bitmap :=
  Function.update b (i / 8) (b (i / 8) &&& ~~~(1#8 <<< (i % 8)))

/-- The bitmap of the empty set. -/
def zero : Bitmap := fun _ => 0#8

/-- The numbers below `n` that are in the set. -/
def members (n : ℕ) (b : Bitmap) : List ℕ := (List.range n).filter (fun i => b.get i)

theorem getLsbD_mask {k : ℕ} (hk : k < 8) : (1#8 <<< k).getLsbD j = decide (j = k) := by
  rw [BitVec.getLsbD_shiftLeft, BitVec.getLsbD_one]
  by_cases h : j = k
  · subst h; simp [hk]
  · rw [decide_eq_false h]
    simp
    omega

/-- The mask expression tests one bit. -/
theorem get_eq_getLsbD (b : Bitmap) (i : ℕ) : b.get i = (b (i / 8)).getLsbD (i % 8) := by
  have hk : i % 8 < 8 := Nat.mod_lt _ (by decide)
  rw [get]
  cases h : (b (i / 8)).getLsbD (i % 8) with
  | true =>
    refine decide_eq_true (fun heq => ?_)
    have := congrArg (fun x => x.getLsbD (i % 8)) heq
    simp [getLsbD_mask hk, h] at this
  | false =>
    refine decide_eq_false (not_not.2 (BitVec.eq_of_getLsbD_eq (fun j hj => ?_)))
    rw [BitVec.getLsbD_and, getLsbD_mask hk, BitVec.getLsbD_zero]
    by_cases hji : j = i % 8
    · rw [hji, h]; rfl
    · rw [decide_eq_false hji, Bool.and_false]

theorem get_zero (i : ℕ) : zero.get i = false := by
  rw [get_eq_getLsbD]
  exact BitVec.getLsbD_zero

/-- Setting a bit puts its number in. -/
theorem get_set (b : Bitmap) (i j : ℕ) : (b.set i).get j = (decide (j = i) || b.get j) := by
  have hk : i % 8 < 8 := Nat.mod_lt _ (by decide)
  rw [get_eq_getLsbD, get_eq_getLsbD, set]
  by_cases hw : j / 8 = i / 8
  · rw [hw, Function.update_self, BitVec.getLsbD_or, getLsbD_mask hk, Bool.or_comm]
    congr 1
    exact decide_eq_decide.2 (by omega)
  · rw [Function.update_of_ne hw, decide_eq_false (fun h => hw (by rw [h])), Bool.false_or]

/-- Clearing a bit takes its number out. -/
theorem get_clear (b : Bitmap) (i j : ℕ) : (b.clear i).get j = (!decide (j = i) && b.get j) := by
  have hk : i % 8 < 8 := Nat.mod_lt _ (by decide)
  have hj : j % 8 < 8 := Nat.mod_lt _ (by decide)
  rw [get_eq_getLsbD, get_eq_getLsbD, clear]
  by_cases hw : j / 8 = i / 8
  · rw [hw, Function.update_self, BitVec.getLsbD_and, BitVec.getLsbD_not, getLsbD_mask hk,
      Bool.and_comm, decide_eq_true hj, Bool.true_and]
    congr 2
    exact decide_eq_decide.2 (by omega)
  · rw [Function.update_of_ne hw, decide_eq_false (fun h => hw (by rw [h])), Bool.not_false, Bool.true_and]

theorem mem_members : i ∈ b.members n ↔ i < n ∧ b.get i = true := by
  rw [members, List.mem_filter, List.mem_range]

theorem nodup_members (n : ℕ) (b : Bitmap) : (b.members n).Nodup := List.nodup_range.filter _

theorem members_set (hi : i < n) (hb : b.get i = false) :
    ((b.set i).members n).Perm (i :: b.members n) := by
  have hnot : i ∉ b.members n := fun h => by
    rw [mem_members, hb] at h
    exact absurd h.2 (by decide)
  refine (List.perm_ext_iff_of_nodup (nodup_members n _)
    (List.nodup_cons.2 ⟨hnot, nodup_members n b⟩)).2 (fun j => ?_)
  rw [mem_members, get_set, Bool.or_eq_true, decide_eq_true_eq, List.mem_cons, mem_members]
  constructor
  · rintro ⟨hj, rfl | hb⟩
    · exact Or.inl rfl
    · exact Or.inr ⟨hj, hb⟩
  · rintro (rfl | ⟨hj, hb⟩)
    · exact ⟨hi, Or.inl rfl⟩
    · exact ⟨hj, Or.inr hb⟩

theorem members_clear (hi : i < n) (hb : b.get i = true) :
    (b.members n).Perm (i :: (b.clear i).members n) := by
  have hnot : i ∉ (b.clear i).members n := fun h => by
    rw [mem_members, get_clear, decide_eq_true rfl] at h
    exact absurd h.2 (by simp)
  refine (List.perm_ext_iff_of_nodup (nodup_members n _)
    (List.nodup_cons.2 ⟨hnot, nodup_members n _⟩)).2 (fun j => ?_)
  rw [List.mem_cons, mem_members, mem_members, get_clear, Bool.and_eq_true, Bool.not_eq_true',
    decide_eq_false_iff_not]
  constructor
  · rintro ⟨hj, hjb⟩
    by_cases hji : j = i
    · exact Or.inl hji
    · exact Or.inr ⟨hj, hji, hjb⟩
  · rintro (rfl | ⟨hj, -, hjb⟩)
    · exact ⟨hi, hb⟩
    · exact ⟨hj, hjb⟩

theorem members_zero (n : ℕ) : zero.members n = [] :=
  List.filter_eq_nil_iff.2 (fun i _ => by rw [get_zero]; decide)

end Bitmap
