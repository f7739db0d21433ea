import Mathlib.Data.List.Basic
import Mathlib.Tactic.Common

set_option autoImplicit false

/-! # Round robin

`n` places in a circle, of which some are ready. The next turn goes to the first ready place behind
the current one; the current one comes last. Every turn that goes to another place brings the turn
nearer to a place that is ready. -/

namespace RoundRobin

variable {n c j : ℕ}

/-- The first ready place behind `c`. -/
def pick (n : ℕ) (ready : ℕ → Bool) (c : ℕ) : Option ℕ :=
  ((List.range' 1 n).map (fun i => (c + i) % n)).find? ready

/-- How many places `j` is behind `c`. -/
def ahead (n c j : ℕ) : ℕ := (j + n - c) % n

theorem mod_of_lt_twice {x : ℕ} (hx : x < n + n) : x % n = if x < n then x else x - n := by
  split_ifs with hlt
  · exact Nat.mod_eq_of_lt hlt
  · rw [Nat.mod_eq_sub_mod (by omega)]
    exact Nat.mod_eq_of_lt (by omega)

theorem ahead_eq (hc : c < n) (hj : j < n) : ahead n c j = if c ≤ j then j - c else j + n - c := by
  rw [ahead, mod_of_lt_twice (by omega)]
  split_ifs <;> omega

theorem ahead_lt (hc : c < n) (hj : j < n) : ahead n c j < n := by
  rw [ahead_eq hc hj]
  split_ifs <;> omega

theorem ahead_pos (hc : c < n) (hj : j < n) (hne : c ≠ j) : 0 < ahead n c j := by
  rw [ahead_eq hc hj]
  split_ifs <;> omega

/-- The turn goes to a ready place, and not past `j`. -/
theorem pick_nearer (ready : ℕ → Bool) (hc : c < n) (hj : j < n) (hne : c ≠ j) (hready : ready j = true) :
    ∃ d, pick n ready c = some d ∧ d < n ∧ ready d = true ∧ ahead n d j < ahead n c j := by
  have hpos := ahead_pos hc hj hne
  have hlt := ahead_lt hc hj
  -- `j` is one of the places
  have hreach : (c + ahead n c j) % n = j := by
    rw [mod_of_lt_twice (by omega), ahead_eq hc hj]
    split_ifs <;> omega
  have hfound : ((List.range' 1 n).find? (ready ∘ fun i => (c + i) % n)).isSome = true := by
    rw [List.find?_isSome]
    refine ⟨ahead n c j, List.mem_range'_1.2 ⟨hpos, by omega⟩, ?_⟩
    rw [Function.comp_apply, hreach]
    exact hready
  obtain ⟨i, hi⟩ := Option.isSome_iff_exists.1 hfound
  obtain ⟨hd, hmem, hfirst⟩ := List.find?_range'_eq_some.1 hi
  obtain ⟨h1, h2⟩ := List.mem_range'_1.1 hmem
  -- the search stops at `j` at the latest
  have hle : i ≤ ahead n c j := by
    by_contra hgt
    have hno := hfirst (ahead n c j) hpos (by omega)
    simp [hreach, hready] at hno
  refine ⟨(c + i) % n, ?_, Nat.mod_lt _ (by omega), hd, ?_⟩
  · rw [pick, List.find?_map, hi]
    rfl
  · rw [ahead_eq hc hj] at hle ⊢
    rw [mod_of_lt_twice (by omega), ahead_eq (by split_ifs <;> omega) hj]
    split_ifs at hle ⊢ <;> omega

end RoundRobin
