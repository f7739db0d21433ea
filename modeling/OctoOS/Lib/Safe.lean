import OctoOS.Lib.Defined

set_option autoImplicit false

/-! # Partial correctness with a check at every operation

`Prog.Safe h ok Q p s` says that the run of `p` from `s` only performs operations that are `ok` in
the state they are performed in, and that it is in `Q` if it ends. It is meant for programs that
may not end on every input. A `monitor` adds ghost state to a handler, so that a check can depend
on the operations performed so far. -/

namespace Atomic

variable {S : Sig} {σ γ α β : Type}

/-- The operations of the run of `p` from `s` are `ok`, and a result and a state it ends with have
    `Q`. -/
inductive Prog.Safe (h : Handler S σ) (ok : S.Op → σ → Prop) (Q : α → σ → Prop) :
    Prog S α → σ → Prop where
  | ret {a : α} {s : σ} : Q a s → Safe h ok Q (.ret a) s
  | stop {w : Stop} {s : σ} : Safe h ok Q (.stop w) s
  | op {o : S.Op} {k : S.Ans o → Prog S α} {s : σ} : ok o s →
      (∀ r s', h o s = .ok (r, s') → Safe h ok Q (k r) s') → Safe h ok Q (.op o k) s

namespace Prog.Safe

variable {h : Handler S σ} {ok : S.Op → σ → Prop} {Q R : α → σ → Prop} {s : σ} {p : Prog S α}

theorem pure {a : α} (hQ : Q a s) : Prog.Safe h ok Q (pure a : Prog S α) s := ret hQ

theorem mono (hp : p.Safe h ok Q s) (hQR : ∀ a s', Q a s' → R a s') : p.Safe h ok R s := by
  induction hp with
  | ret hQ => exact ret (hQR _ _ hQ)
  | stop => exact stop
  | op hok _ ih => exact op hok ih

theorem bind {f : α → Prog S β} {R : β → σ → Prop} (hp : p.Safe h ok Q s)
    (hf : ∀ a s', Q a s' → (f a).Safe h ok R s') : (p >>= f).Safe h ok R s := by
  change (p.bind f).Safe h ok R s
  induction hp with
  | ret hQ => exact hf _ _ hQ
  | stop => exact stop
  | op hok _ ih => exact op hok ih

/-- One operation, and then the rest. -/
theorem step {o : S.Op} {f : S.Ans o → Prog S α} (hok : ok o s)
    (hf : ∀ r s', h o s = .ok (r, s') → (f r).Safe h ok Q s') :
    (Atomic.perform o >>= f).Safe h ok Q s := op hok hf

theorem perform {o : S.Op} {R : S.Ans o → σ → Prop} (hok : ok o s)
    (hR : ∀ r s', h o s = .ok (r, s') → R r s') : (Atomic.perform o).Safe h ok R s :=
  op hok (fun r s' ho => ret (hR r s' ho))

/-- What holds of every ending of the run may be added. -/
theorem and_run (hp : p.Safe h ok Q s) (hR : ∀ a s', p.run h s = .ok (a, s') → R a s') :
    p.Safe h ok (fun a s' => Q a s' ∧ R a s') s := by
  induction hp with
  | ret hQ => exact ret ⟨hQ, hR _ _ rfl⟩
  | stop => exact stop
  | op hok _ ih =>
    refine op hok (fun r s' ho => ih r s' ho (fun a s'' hrun => hR a s'' ?_))
    rw [Prog.run, ho]
    exact hrun

/-- A program that never comes to an operation that is not ok. -/
theorem of_all {P : S.Op → Prop} (hok : ∀ o s, P o → ok o s) (hp : p.All P) (s : σ) :
    p.Safe h ok (fun _ _ => True) s := by
  induction p generalizing s with
  | ret a => exact ret trivial
  | stop w => exact stop
  | op o k ih => exact op (hok o s hp.1) (fun r s' _ => ih r (hp.2 r) s')

theorem clean {bad : S.Op → σ → Prop} (hp : p.Safe h ok Q s) (hbad : ∀ o s, bad o s → ¬ ok o s) :
    p.Clean h bad s := by
  induction hp with
  | ret _ => trivial
  | stop => trivial
  | op hok _ ih => exact ⟨fun hb => hbad _ _ hb hok, ih⟩

theorem post (hp : p.Safe h ok Q s) {a : α} {s' : σ} (hrun : p.run h s = .ok (a, s')) : Q a s' := by
  induction hp with
  | ret hQ =>
    cases hrun
    exact hQ
  | stop => cases hrun
  | @op o k s _ _ ih =>
    rw [Prog.run] at hrun
    cases ho : h o s with
    | error w => rw [ho] at hrun; cases hrun
    | ok r =>
      rw [ho] at hrun
      exact ih r.1 r.2 ho hrun

end Prog.Safe

/-- The handler `h` with ghost state that every operation updates. -/
def Handler.monitor (upd : S.Op → γ → γ) (h : Handler S σ) : Handler S (γ × σ) := fun o gs =>
  match h o gs.2 with
  | .ok (r, s') => .ok (r, (upd o gs.1, s'))
  | .error w => .error w

section Monitor

variable {upd : S.Op → γ → γ} {h : Handler S σ}

theorem Handler.monitor_ok {o : S.Op} {r : S.Ans o} {gs gs' : γ × σ}
    (ho : h.monitor upd o gs = .ok (r, gs')) : gs'.1 = upd o gs.1 ∧ h o gs.2 = .ok (r, gs'.2) := by
  unfold Handler.monitor at ho
  cases hstep : h o gs.2 with
  | error w => rw [hstep] at ho; cases ho
  | ok r' =>
    rw [hstep] at ho
    cases ho
    exact ⟨rfl, rfl⟩

/-- Ghost state does not change a run. -/
theorem Prog.run_of_monitor {p : Prog S α} {gs gs' : γ × σ} {a : α}
    (hrun : p.run (h.monitor upd) gs = .ok (a, gs')) : p.run h gs.2 = .ok (a, gs'.2) := by
  induction p generalizing gs with
  | ret b =>
    cases hrun
    rfl
  | stop w => cases hrun
  | op o k ih =>
    rw [Prog.run] at hrun ⊢
    cases ho : h.monitor upd o gs with
    | error w => rw [ho] at hrun; cases hrun
    | ok r =>
      rw [ho] at hrun
      rw [(Handler.monitor_ok ho).2]
      exact ih r.1 hrun

/-- A run without ghost state is one with it. -/
theorem Prog.run_monitor {p : Prog S α} {s s' : σ} {a : α} (hrun : p.run h s = .ok (a, s')) (g : γ) :
    ∃ g', p.run (h.monitor upd) (g, s) = .ok (a, (g', s')) := by
  induction p generalizing s g with
  | ret b =>
    cases hrun
    exact ⟨g, rfl⟩
  | stop w => cases hrun
  | op o k ih =>
    rw [Prog.run] at hrun
    cases ho : h o s with
    | error w => rw [ho] at hrun; cases hrun
    | ok r =>
      rw [ho] at hrun
      obtain ⟨g', hg⟩ := ih r.1 hrun (upd o g)
      refine ⟨g', ?_⟩
      have hstep : h.monitor upd o (g, s) = .ok (r.1, (upd o g, r.2)) := by
        unfold Handler.monitor
        rw [ho]
      rw [Prog.run, hstep]
      exact hg

end Monitor

end Atomic
