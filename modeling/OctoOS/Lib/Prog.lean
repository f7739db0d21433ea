import Mathlib.Logic.Basic
import Mathlib.Tactic.SplitIfs

set_option autoImplicit false

/-! # Programs of atomic operations

A program is a tree of operations: each node performs one operation of a signature and goes on
with its answer. The tree says nothing about what an operation does; a `Handler` gives the
operations their meaning on a state, and `Prog.run` runs a program to its end under one handler.
Keeping the operations as data lets one program be run under several handlers (with and without
device faults) and lets another party act between any two of its operations.

A run may have no result: a loop that does not end and a store outside an object are `Stop`s,
never values. -/

namespace Atomic

/-- Why a run has no result. -/
inductive Stop where
  | diverges
  | undefined
  deriving DecidableEq, Repr

/-- Operations and the type of each operation's answer. -/
structure Sig where
  Op : Type
  Ans : Op → Type

/-- A program over the operations of `S` with results in `α`. -/
inductive Prog (S : Sig) (α : Type) where
  | ret (a : α)
  | op (o : S.Op) (k : S.Ans o → Prog S α)
  | stop (why : Stop)

variable {S : Sig} {σ ν α β : Type}

/-- Sequencing: the leaves of `p` go on with `f`. -/
def Prog.bind (p : Prog S α) (f : α → Prog S β) : Prog S β :=
  match p with
  | .ret a => f a
  | .op o k => .op o (fun r => (k r).bind f)
  | .stop w => .stop w

instance : Monad (Prog S) where
  pure := Prog.ret
  bind := Prog.bind

theorem Prog.bind_assoc {γ : Type} (p : Prog S α) (f : α → Prog S β) (g : β → Prog S γ) :
    p >>= f >>= g = p >>= fun a => f a >>= g := by
  change (p.bind f).bind g = p.bind (fun a => (f a).bind g)
  induction p with
  | ret a => rfl
  | stop w => rfl
  | op o k ih => exact congrArg (Prog.op o) (funext ih)

/-- The program that performs `o` and returns its answer. -/
def perform (o : S.Op) : Prog S (S.Ans o) := .op o .ret

/-- The meaning of the operations on states `σ`. -/
abbrev Handler (S : Sig) (σ : Type) := (o : S.Op) → σ → Except Stop (S.Ans o × σ)

/-- Run a program to its end. -/
def Prog.run (h : Handler S σ) : Prog S α → σ → Except Stop (α × σ)
  | .ret a, s => .ok (a, s)
  | .op o k, s =>
    match h o s with
    | .ok (r, s') => (k r).run h s'
    | .error w => .error w
  | .stop w, _ => .error w

section Run

variable (h : Handler S σ)

@[simp] theorem Prog.run_stop (w : Stop) (s : σ) :
    (Prog.stop w : Prog S α).run h s = .error w := rfl

@[simp] theorem Prog.run_pure (a : α) (s : σ) :
    (pure a : Prog S α).run h s = .ok (a, s) := rfl

@[simp] theorem Prog.run_perform (o : S.Op) (s : σ) : (perform o).run h s = h o s := by
  simp only [perform, Prog.run]
  cases h o s <;> rfl

theorem Prog.run_ite (c : Prop) [Decidable c] (p q : Prog S α) (s : σ) :
    (if c then p else q).run h s = if c then p.run h s else q.run h s := by
  split_ifs <;> rfl

theorem Prog.run_bind (p : Prog S α) (f : α → Prog S β) (s : σ) :
    (p >>= f).run h s = match p.run h s with
      | .ok (a, s') => (f a).run h s'
      | .error w => .error w := by
  change (p.bind f).run h s = _
  induction p generalizing s with
  | ret a => rfl
  | stop w => rfl
  | op o k ih =>
    simp only [Prog.bind, Prog.run]
    cases h o s with
    | error w => rfl
    | ok r => exact ih r.1 r.2

theorem Prog.run_bind_ok {p : Prog S α} {s s' : σ} {a : α} (hp : p.run h s = .ok (a, s'))
    (f : α → Prog S β) : (p >>= f).run h s = (f a).run h s' := by
  rw [Prog.run_bind, hp]

/-- A run of `p >>= f` that ends is a run of `p` followed by one of `f`. -/
theorem Prog.run_bind_inv {p : Prog S α} {f : α → Prog S β} {s s'' : σ} {b : β}
    (hr : (p >>= f).run h s = .ok (b, s'')) :
    ∃ a s', p.run h s = .ok (a, s') ∧ (f a).run h s' = .ok (b, s'') := by
  rw [Prog.run_bind] at hr
  cases hp : p.run h s with
  | error w => rw [hp] at hr; cases hr
  | ok r => rw [hp] at hr; exact ⟨r.1, r.2, rfl, hr⟩

end Run

/-! ## Big-step evaluation over a view

Most of a driver's state is scratch: what a function leaves in a shared buffer is not part of
what it computes. `Computes` evaluates a program over a view of the state, from every state with
that view, and so for every content of the rest. -/

/-- From every state with view `v`, `p` ends with result `a` in a state with view `v'`. -/
def Prog.Computes (h : Handler S σ) (view : σ → ν) (p : Prog S α) (v : ν) (a : α) (v' : ν) :
    Prop :=
  ∀ s, view s = v → ∃ s', p.run h s = .ok (a, s') ∧ view s' = v'

section Computes

variable {h : Handler S σ} {view : σ → ν} {v v1 v2 : ν}

theorem Prog.Computes.pure (a : α) : (pure a : Prog S α).Computes h view v a v :=
  fun s hs => ⟨s, rfl, hs⟩

theorem Prog.Computes.bind {p : Prog S α} {f : α → Prog S β} {a : α} {b : β}
    (hp : p.Computes h view v a v1) (hf : (f a).Computes h view v1 b v2) :
    (p >>= f).Computes h view v b v2 := by
  intro s hs
  obtain ⟨s', hr, hs'⟩ := hp s hs
  obtain ⟨s'', hr', hs''⟩ := hf s' hs'
  exact ⟨s'', by rw [Prog.run_bind_ok h hr, hr'], hs''⟩

/-- An operation whose meaning on the view is known. -/
theorem Prog.Computes.perform {o : S.Op} {r : S.Ans o}
    (ho : ∀ s, view s = v → ∃ s', h o s = .ok (r, s') ∧ view s' = v1) :
    (perform o).Computes h view v r v1 := by
  intro s hs
  obtain ⟨s', hr, hs'⟩ := ho s hs
  exact ⟨s', by rw [Prog.run_perform, hr], hs'⟩

/-- Evaluation is deterministic. -/
theorem Prog.Computes.run_eq {p : Prog S α} {a b : α} {s s' : σ}
    (hp : p.Computes h view (view s) a v1) (hr : p.run h s = .ok (b, s')) :
    b = a ∧ view s' = v1 := by
  obtain ⟨t, ht, hv⟩ := hp s rfl
  rw [ht] at hr
  cases hr
  exact ⟨rfl, hv⟩

end Computes

/-! ## Runs that meet no faulty operation -/

/-- No operation performed in the run of the program from `s` is `bad` in the state it is
    performed in. -/
def Prog.Clean (h : Handler S σ) (bad : S.Op → σ → Prop) : Prog S α → σ → Prop
  | .ret _, _ => True
  | .stop _, _ => True
  | .op o k, s => ¬ bad o s ∧ ∀ r s', h o s = .ok (r, s') → (k r).Clean h bad s'

section Clean

variable {h : Handler S σ} {bad : S.Op → σ → Prop} {p : Prog S α} {f : α → Prog S β} {s : σ}

/-- Where two handlers agree off the bad operations, a clean run is the same under both. -/
theorem Prog.run_eq_of_clean {h' : Handler S σ} (hh : ∀ o s, ¬ bad o s → h o s = h' o s)
    (p : Prog S α) (s : σ) (hc : p.Clean h bad s) : p.run h s = p.run h' s := by
  induction p generalizing s with
  | ret a => rfl
  | stop w => rfl
  | op o k ih =>
    obtain ⟨hb, hk⟩ := hc
    simp only [Prog.run, ← hh o s hb]
    cases ho : h o s with
    | error w => rfl
    | ok r => exact ih r.1 r.2 (hk r.1 r.2 ho)

/-- A clean run of `p >>= f` is one of `p` and then one of `f`. -/
theorem Prog.Clean.of_bind (hc : (p >>= f).Clean h bad s) :
    p.Clean h bad s ∧ ∀ a s', p.run h s = .ok (a, s') → (f a).Clean h bad s' := by
  change (p.bind f).Clean h bad s at hc
  induction p generalizing s with
  | ret a =>
    refine ⟨trivial, fun b s' hr => ?_⟩
    cases hr
    exact hc
  | stop w => exact ⟨trivial, fun b s' hr => absurd hr (by simp)⟩
  | op o k ih =>
    obtain ⟨hb, hk⟩ := hc
    refine ⟨⟨hb, fun r s' ho => (ih r (hk r s' ho)).1⟩, fun a s'' hr => ?_⟩
    rw [Prog.run] at hr
    cases ho : h o s with
    | error w => rw [ho] at hr; cases hr
    | ok r =>
      rw [ho] at hr
      exact (ih r.1 (hk r.1 r.2 ho)).2 a s'' hr

theorem Prog.Clean.bind (hp : p.Clean h bad s)
    (hf : ∀ a s', p.run h s = .ok (a, s') → (f a).Clean h bad s') : (p >>= f).Clean h bad s := by
  change (p.bind f).Clean h bad s
  induction p generalizing s with
  | ret a => exact hf a s rfl
  | stop w => trivial
  | op o k ih =>
    refine ⟨hp.1, fun r s' ho => ih r (hp.2 r s' ho) (fun a s'' hr => hf a s'' ?_)⟩
    rw [Prog.run, ho]
    exact hr

theorem Prog.Clean.bind_iff : (p >>= f).Clean h bad s ↔
      p.Clean h bad s ∧ ∀ a s', p.run h s = .ok (a, s') → (f a).Clean h bad s' :=
  ⟨Prog.Clean.of_bind, fun hc => Prog.Clean.bind hc.1 hc.2⟩

theorem Prog.Clean.step {o : S.Op} {f : S.Ans o → Prog S β} (hb : ¬ bad o s)
    (hf : ∀ r s', h o s = .ok (r, s') → (f r).Clean h bad s') : (perform o >>= f).Clean h bad s :=
  ⟨hb, hf⟩

/-- Whether a run is clean can be found out by running the program. -/
instance Prog.Clean.decidable [∀ o s, Decidable (bad o s)] : (p : Prog S α) → (s : σ) → Decidable (p.Clean h bad s)
  | .ret _, _ | .stop _, _ => isTrue trivial
  | .op o k, s =>
    match ho : h o s with
    | .error w => decidable_of_iff (¬ bad o s) (by simp [Prog.Clean, ho])
    | .ok (r, s') =>
      have : Decidable ((k r).Clean h bad s') := Prog.Clean.decidable (k r) s'
      decidable_of_iff (¬ bad o s ∧ (k r).Clean h bad s') (by
        constructor
        · rintro ⟨hb, hk⟩
          refine ⟨hb, fun r' s'' heq => ?_⟩
          rw [ho] at heq
          cases heq
          exact hk
        · rintro ⟨hb, hk⟩
          exact ⟨hb, hk r s' ho⟩)

end Clean

/-- The run of `p` from `s` ends, in a result and a state with `P`. -/
def Prog.Ends (h : Handler S σ) (p : Prog S α) (s : σ) (P : α → σ → Prop) : Prop :=
  ∃ a s', p.run h s = .ok (a, s') ∧ P a s'

section Ends

variable {h : Handler S σ} {P Q : α → σ → Prop} {R : β → σ → Prop} {s s' : σ} {p : Prog S α}
  {f : α → Prog S β} {o : S.Op} {r : S.Ans o}

theorem Prog.Ends.pure {a : α} (hP : P a s) : (pure a : Prog S α).Ends h s P := ⟨a, s, rfl, hP⟩

theorem Prog.Ends.mono (hp : p.Ends h s P) (hPQ : ∀ a s', P a s' → Q a s') :
    p.Ends h s Q := by
  obtain ⟨a, s', hrun, hP⟩ := hp
  exact ⟨a, s', hrun, hPQ a s' hP⟩

theorem Prog.Ends.bind (hp : p.Ends h s P) (hf : ∀ a s', P a s' → (f a).Ends h s' R) :
    (p >>= f).Ends h s R := by
  obtain ⟨a, s', hrun, hP⟩ := hp
  obtain ⟨b, s'', hrun', hR⟩ := hf a s' hP
  exact ⟨b, s'', (Prog.run_bind_ok h hrun f).trans hrun', hR⟩

/-- A part whose run is known, and then the rest. -/
theorem Prog.Ends.bind_ok {a : α} (hp : p.run h s = .ok (a, s')) (hf : (f a).Ends h s' R) :
    (p >>= f).Ends h s R := by
  obtain ⟨b, s'', hrun, hR⟩ := hf
  exact ⟨b, s'', (Prog.run_bind_ok h hp f).trans hrun, hR⟩

/-- One operation, and then the rest. -/
theorem Prog.Ends.step {f : S.Ans o → Prog S α} (ho : h o s = .ok (r, s'))
    (hf : (f r).Ends h s' P) : (Atomic.perform o >>= f).Ends h s P := by
  obtain ⟨a, s'', hrun, hP⟩ := hf
  refine ⟨a, s'', ?_, hP⟩
  rw [Prog.run_bind, Prog.run_perform, ho]
  exact hrun

theorem Prog.Ends.perform {R : S.Ans o → σ → Prop} (ho : h o s = .ok (r, s')) (hR : R r s') :
    (Atomic.perform o).Ends h s R :=
  ⟨r, s', (Prog.run_perform h o s).trans ho, hR⟩

end Ends

/-- Whether it does can be found out by running the program. -/
instance {h : Handler S σ} {p : Prog S α} {s : σ} {P : α → σ → Prop} [∀ a s', Decidable (P a s')] :
    Decidable (p.Ends h s P) :=
  match hr : p.run h s with
  | .error w => isFalse (by
      rintro ⟨a, s', heq, -⟩
      rw [hr] at heq
      cases heq)
  | .ok (a, s') => decidable_of_iff (P a s') (by
      constructor
      · intro hP
        exact ⟨a, s', hr, hP⟩
      · rintro ⟨a', s'', heq, hP⟩
        rw [hr] at heq
        cases heq
        exact hP)

end Atomic
