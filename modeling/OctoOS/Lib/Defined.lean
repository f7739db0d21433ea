import OctoOS.Lib.Prog

set_option autoImplicit false

/-! # Runs that stay defined

On arbitrary data a run may fail to end, but it must not leave what the source language defines.
`Defined` is partial correctness with that obligation, for a result and for the run of a program.
`Prog.Only` is its syntactic counterpart for programs all of whose operations have a result; such a
program also keeps every relation its operations keep, and commutes with every map of states its
operations commute with. -/

namespace Atomic

variable {S : Sig} {σ α β : Type}

/-- A result with `Q`, or none because the computation does not end. -/
def Defined (e : Except Stop α) (Q : α → Prop) : Prop :=
  match e with
  | .ok a => Q a
  | .error w => w = .diverges

namespace Defined

variable {e : Except Stop α} {Q R : α → Prop}

theorem mono (he : Defined e Q) (hQR : ∀ a, Q a → R a) : Defined e R := by
  cases e with
  | error w => exact he
  | ok a => exact hQR a he

theorem bind {f : α → Except Stop β} {R : β → Prop} (he : Defined e Q)
    (hf : ∀ a, Q a → Defined (f a) R) : Defined (e >>= f) R := by
  cases e with
  | error w => exact he
  | ok a => exact hf a he

theorem post (he : Defined e Q) {a : α} (ha : e = .ok a) : Q a := by
  subst ha
  exact he

theorem ne_undefined (he : Defined e Q) : e ≠ .error .undefined := by
  rintro rfl
  exact absurd he (by simp [Defined])

/-- What holds of every result may be added. -/
theorem and_eq (he : Defined e Q) (hR : ∀ a, e = .ok a → R a) : Defined e (fun a => Q a ∧ R a) := by
  cases e with
  | error w => exact he
  | ok a => exact ⟨he, hR a rfl⟩

end Defined

theorem ok_bind (a : α) (f : α → Except Stop β) : ((.ok a : Except Stop α) >>= f) = f a := rfl

/-- A sequence that has a result is a result and then another one. -/
theorem ok_of_bind {e : Except Stop α} {f : α → Except Stop β} {b : β} (h : (e >>= f) = .ok b) :
    ∃ a, e = .ok a ∧ f a = .ok b := by
  cases e with
  | error w => cases h
  | ok a => exact ⟨a, rfl, h⟩

/-- The run of `p` from `s` ends with `Q` or does not end; it never stops as undefined. -/
def Prog.Defined (h : Handler S σ) (p : Prog S α) (s : σ) (Q : α → σ → Prop) : Prop :=
  Atomic.Defined (p.run h s) (fun r => Q r.1 r.2)

namespace Prog.Defined

variable {h : Handler S σ} {p : Prog S α} {s : σ} {Q R : α → σ → Prop}

theorem pure {a : α} (hQ : Q a s) : (pure a : Prog S α).Defined h s Q := hQ

theorem diverges : (Prog.stop .diverges : Prog S α).Defined h s Q := rfl

theorem mono (hp : p.Defined h s Q) (hQR : ∀ a s', Q a s' → R a s') : p.Defined h s R :=
  Atomic.Defined.mono hp (fun r => hQR r.1 r.2)

theorem bind {f : α → Prog S β} {R : β → σ → Prop} (hp : p.Defined h s Q)
    (hf : ∀ a s', Q a s' → (f a).Defined h s' R) : (p >>= f).Defined h s R := by
  unfold Prog.Defined at hp ⊢
  rw [Prog.run_bind]
  cases hr : p.run h s with
  | error w => rw [hr] at hp; exact hp
  | ok r => rw [hr] at hp; exact hf _ _ hp

/-- One operation. -/
theorem perform {o : S.Op} {r : S.Ans o} {s' : σ} {R : S.Ans o → σ → Prop}
    (ho : h o s = .ok (r, s')) (hR : R r s') : (Atomic.perform o).Defined h s R := by
  unfold Prog.Defined
  rw [Prog.run_perform, ho]
  exact hR

/-- What holds of every ending of the run may be added. -/
theorem and_run (hp : p.Defined h s Q) (hR : ∀ a s', p.run h s = .ok (a, s') → R a s') :
    p.Defined h s (fun a s' => Q a s' ∧ R a s') :=
  Atomic.Defined.and_eq hp (fun r hr => hR r.1 r.2 hr)

end Prog.Defined

/-- Every operation `p` can come to is in `P`. -/
def Prog.All (P : S.Op → Prop) : Prog S α → Prop
  | .ret _ => True
  | .stop _ => True
  | .op o k => P o ∧ ∀ r, (k r).All P

section All

variable {P : S.Op → Prop}

/-- A program that never comes to a bad operation is clean from every state. -/
theorem Prog.All.clean {h : Handler S σ} {bad : S.Op → σ → Prop} {p : Prog S α}
    (hbad : ∀ o s, P o → ¬ bad o s) (hp : p.All P) (s : σ) : p.Clean h bad s := by
  induction p generalizing s with
  | ret a => trivial
  | stop w => trivial
  | op o k ih => exact ⟨hbad o s hp.1, fun r s' _ => ih r (hp.2 r) s'⟩

/-- Operations that do not touch a second component of the state give runs that do not. -/
theorem Prog.All.run_beside {τ : Type} {h : Handler S σ} {h' : Handler S (σ × τ)} {t : τ}
    (hop : ∀ o s, P o → h' o (s, t) = (h o s).map (fun r => (r.1, r.2, t))) {p : Prog S α}
    (hp : p.All P) (s : σ) : p.run h' (s, t) = (p.run h s).map (fun r => (r.1, r.2, t)) := by
  induction p generalizing s with
  | ret a => rfl
  | stop w => rfl
  | op o k ih =>
    rw [Prog.run, Prog.run, hop o s hp.1]
    cases h o s with
    | error w => rfl
    | ok r => exact ih r.1 (hp.2 r.1) r.2

theorem Prog.all_true (p : Prog S α) : p.All (fun _ => True) := by
  induction p with
  | ret a => trivial
  | stop w => trivial
  | op o k ih => exact ⟨trivial, ih⟩

end All

/-- Every operation `p` can come to is in `P`, and `p` never stops as undefined by itself. -/
def Prog.Only (P : S.Op → Prop) : Prog S α → Prop
  | .ret _ => True
  | .stop w => w = .diverges
  | .op o k => P o ∧ ∀ r, (k r).Only P

namespace Prog.Only

variable {P Q : S.Op → Prop} {h : Handler S σ} {p : Prog S α}

theorem pure (a : α) : (pure a : Prog S α).Only P := trivial

theorem perform {o : S.Op} (ho : P o) : (Atomic.perform o).Only P := ⟨ho, fun _ => trivial⟩

theorem bind {f : α → Prog S β} (hp : p.Only P) (hf : ∀ a, (f a).Only P) : (p >>= f).Only P := by
  change (p.bind f).Only P
  induction p with
  | ret a => exact hf a
  | stop w => exact hp
  | op o k ih => exact ⟨hp.1, fun r => ih r (hp.2 r)⟩

theorem ite {c : Prop} [Decidable c] {q : Prog S α} (hp : p.Only P) (hq : q.Only P) :
    (if c then p else q).Only P := by
  split_ifs
  · exact hp
  · exact hq

theorem mono (hp : p.Only P) (hPQ : ∀ o, P o → Q o) : p.Only Q := by
  induction p with
  | ret a => trivial
  | stop w => exact hp
  | op o k ih => exact ⟨hPQ o hp.1, fun r => ih r (hp.2 r)⟩

theorem all (hp : p.Only P) : p.All P := by
  induction p with
  | ret a => trivial
  | stop w => trivial
  | op o k ih => exact ⟨hp.1, fun r => ih r (hp.2 r)⟩

/-- Operations that have a result and keep a relation give runs that do. -/
theorem defined {R : σ → σ → Prop} (hrefl : ∀ s, R s s) (htrans : ∀ {a b c}, R a b → R b c → R a c)
    (hop : ∀ o s, P o → ∃ r s', h o s = .ok (r, s') ∧ R s s') (hp : p.Only P) (s : σ) :
    p.Defined h s (fun _ s' => R s s') := by
  induction p generalizing s with
  | ret a => exact hrefl s
  | stop w => exact hp
  | op o k ih =>
    obtain ⟨r, s', ho, hR⟩ := hop o s hp.1
    have hk := (ih r (hp.2 r) s').mono (fun _ _ hR' => htrans hR hR')
    unfold Prog.Defined at hk ⊢
    rw [Prog.run, ho]
    exact hk

/-- A map of states that the operations commute with. -/
theorem run_map {f : σ → σ} (hop : ∀ o s, P o → h o (f s) = (h o s).map (fun r => (r.1, f r.2)))
    (hp : p.Only P) (s : σ) : p.run h (f s) = (p.run h s).map (fun r => (r.1, f r.2)) := by
  induction p generalizing s with
  | ret a => rfl
  | stop w => rfl
  | op o k ih =>
    rw [Prog.run, Prog.run, hop o s hp.1]
    cases h o s with
    | error w => rfl
    | ok r => exact ih r.1 (hp.2 r.1) r.2

theorem clean_map {bad : S.Op → σ → Prop} {f : σ → σ}
    (hop : ∀ o s, P o → h o (f s) = (h o s).map (fun r => (r.1, f r.2)))
    (hbad : ∀ o s, bad o (f s) → bad o s) (hp : p.Only P) {s : σ} (hc : p.Clean h bad s) :
    p.Clean h bad (f s) := by
  induction p generalizing s with
  | ret a => trivial
  | stop w => trivial
  | op o k ih =>
    refine ⟨fun hb => hc.1 (hbad o s hb), fun r s' ho => ?_⟩
    rw [hop o s hp.1] at ho
    cases hs : h o s with
    | error w => rw [hs] at ho; cases ho
    | ok q =>
      rw [hs] at ho
      cases ho
      exact ih q.1 (hp.2 q.1) (hc.2 q.1 q.2 hs)

end Prog.Only

end Atomic
