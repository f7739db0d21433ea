import Mathlib.Data.Nat.Notation
import OctoOS.Lib.Prog

set_option autoImplicit false

/-! # Runs under an oracle

A handler may consult an oracle for what chance decides: its `n`-th question is answered by `f n`,
and a clock in the state counts the questions. Another handler decides these things itself, by events
that it counts; an answer of the oracle is the number of such an event, or none. The two agree if
every operation can be foretold, that is, if some answers make the oracle's handler do the same. The
answers of one operation say nothing about the next one's, and the events of one come before those
of the next, so they can be put together: every run can be foretold as a whole, by events in their
order. -/

namespace Atomic

variable {S : Sig} {σ τ ι α : Type} {h : Handler S σ}

/-- First the answers of `g`, then those of `g'`. -/
def joinAt (a : ℕ) (g g' : ℕ → ι) : ℕ → ι := fun n => if n < a then g n else g' n

/-- The answers are events from the `u`-th up to the `v`-th, each for one question and in order. -/
structure Dated (u v : ℕ) (g : ℕ → Option ℕ) : Prop where
  within : ∀ n, ∀ c ∈ g n, u ≤ c ∧ c < v
  ordered : ∀ m n, m < n → ∀ c ∈ g m, ∀ c' ∈ g n, c < c'

namespace Dated

variable {u v w : ℕ} {g g' : ℕ → Option ℕ}

theorem none (u v : ℕ) : Dated u v (fun _ => Option.none) := ⟨by simp, by simp⟩

theorem join (h : Dated u v g) (h' : Dated v w g') (huv : u ≤ v) (hvw : v ≤ w) (a : ℕ) :
    Dated u w (joinAt a g g') := by
  constructor
  · intro n c hc
    rw [joinAt] at hc
    split_ifs at hc
    · have := h.within n c hc
      omega
    · have := h'.within n c hc
      omega
  · intro m n hmn c hc c' hc'
    rw [joinAt] at hc hc'
    split_ifs at hc hc' with hm hn
    · exact h.ordered m n hmn c hc c' hc'
    · have := h.within m c hc
      have := h'.within n c' hc'
      omega
    · omega
    · exact h'.ordered m n hmn c hc c' hc'

end Dated

end Atomic
