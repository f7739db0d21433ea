import OctoOS.Lib.Prog
import Mathlib.Data.Nat.Notation

set_option autoImplicit false

/-! # Programs that are interrupted

Between any two operations of a program another party may act on the same state. `Mixed` is a run
of a program with such actions in it. -/

namespace Atomic

variable {S : Sig} {σ α β ι : Type}

/-- A run of `p` with the actions `l` in it; `act i s s'` says that the action `i` may take the
    state from `s` to `s'`. -/
inductive Prog.Mixed (h : Handler S σ) (act : ι → σ → σ → Prop) :
    Prog S α → σ → List ι → α → σ → Prop where
  | ret {a : α} {s : σ} : Mixed h act (.ret a) s [] a s
  | op {o : S.Op} {k : S.Ans o → Prog S α} {r : S.Ans o} {s s' s'' : σ} {l : List ι} {a : α} :
      h o s = .ok (r, s') → Mixed h act (k r) s' l a s'' → Mixed h act (.op o k) s l a s''
  | act {p : Prog S α} {i : ι} {s s' s'' : σ} {l : List ι} {a : α} :
      act i s s' → Mixed h act p s' l a s'' → Mixed h act p s (i :: l) a s''

section Mixed

variable {h : Handler S σ} {act : ι → σ → σ → Prop}

/-- The first `n` operations of a program. -/
def Prog.steps (h : Handler S σ) : ℕ → Prog S α → σ → Except Stop (Prog S α × σ)
  | 0, p, s => .ok (p, s)
  | _ + 1, .ret a, s => .ok (.ret a, s)
  | _ + 1, .stop w, _ => .error w
  | n + 1, .op o k, s =>
    match h o s with
    | .ok (r, s') => (k r).steps h n s'
    | .error w => .error w

/-- Behind `n` operations of `p` from `s` the rest of the program and the state have `P`. -/
def Prog.After (h : Handler S σ) (n : ℕ) (p : Prog S α) (s : σ) (P : Prog S α → σ → Prop) : Prop :=
  ∃ q s', p.steps h n s = .ok (q, s') ∧ P q s'

instance {n : ℕ} {p : Prog S α} {s : σ} {P : Prog S α → σ → Prop} [∀ q s', Decidable (P q s')] :
    Decidable (p.After h n s P) :=
  match hr : p.steps h n s with
  | .error w => isFalse (by
      rintro ⟨q, s', heq, -⟩
      rw [hr] at heq
      cases heq)
  | .ok (q, s') => decidable_of_iff (P q s') (by
      constructor
      · intro hP
        exact ⟨q, s', hr, hP⟩
      · rintro ⟨q', s'', heq, hP⟩
        rw [hr] at heq
        cases heq
        exact hP)

/-- A run may be interrupted behind any number of operations. -/
theorem Prog.Mixed.of_steps {n : ℕ} {p q : Prog S α} {s s' s'' : σ} {l : List ι} {a : α}
    (hn : p.steps h n s = .ok (q, s')) (hm : q.Mixed h act s' l a s'') : p.Mixed h act s l a s'' := by
  induction n generalizing p s with
  | zero =>
    cases hn
    exact hm
  | succ n ih =>
    cases p with
    | ret b =>
      cases hn
      exact hm
    | stop w => exact absurd hn (by simp [Prog.steps])
    | op o k =>
      rw [Prog.steps] at hn
      cases ho : h o s with
      | error w => rw [ho] at hn; cases hn
      | ok r =>
        rw [ho] at hn
        exact Prog.Mixed.op ho (ih hn)

/-- A run is a run without actions. -/
theorem Prog.Mixed.of_run {p : Prog S α} {s s' : σ} {a : α} (hrun : p.run h s = .ok (a, s')) :
    p.Mixed h act s [] a s' := by
  induction p generalizing s with
  | ret b =>
    cases hrun
    exact Prog.Mixed.ret
  | stop w => cases hrun
  | op o k ih =>
    rw [Prog.run] at hrun
    cases ho : h o s with
    | error w => rw [ho] at hrun; cases hrun
    | ok r =>
      rw [ho] at hrun
      exact Prog.Mixed.op ho (ih r.1 hrun)

end Mixed

end Atomic
