import OctoOS.Lib.Interleave
import Mathlib.Data.List.Basic

set_option autoImplicit false

/-! # Actions that can be moved out of a run

The state of a program consists of cells, and an operation reads some of them and writes some. Actions
of another party, programs themselves, come between the operations of a run. Such an action can be moved
to the front if it has no conflict with the operations before it, and behind the end if the operations
after it have none with it. Scratch cells are for everybody: there it is enough that nobody reads what
another one has written.

A run in which every action can be moved one way or the other ends, outside the scratch cells, as a serial
one: some of the actions, the program in one go, and the other actions (`Mixed.serial`). The runs are
those of a `watched` machine, which notes the cells used so far and stops at a conflict. -/

namespace Atomic

variable {S : Sig} {σ α ι C : Type}

/-- The cells that the operations read and those that they write. -/
structure Footprint (S : Sig) (C : Type) where
  reads : S.Op → List C
  writes : S.Op → List C

/-- The state as cells: an operation does the same in two states that agree on what it reads, and it
    changes only what it writes. -/
structure Cells (h : Handler S σ) (F : Footprint S C) where
  same : C → σ → σ → Prop
  equiv : ∀ c, Equivalence (same c)
  again : ∀ {o s t r s'}, h o s = .ok (r, s') → (∀ c ∈ F.reads o, same c s t) →
    ∃ t', h o t = .ok (r, t') ∧ ∀ c, c ∈ F.writes o ∨ same c s t → same c s' t'
  frame : ∀ {o s r s'}, h o s = .ok (r, s') → ∀ c ∉ F.writes o, same c s s'

variable {h : Handler S σ} {F : Footprint S C} {cs : Cells h F}

/-! ## Transitions with a footprint -/

/-- The transitions `T` read `R` and write `W`. -/
structure Moves (cs : Cells h F) (R W : List C) (T : σ → σ → Prop) : Prop where
  frame : ∀ {s s'}, T s s' → ∀ c ∉ W, cs.same c s s'
  again : ∀ {s s' t}, T s s' → (∀ c ∈ R, cs.same c s t) →
    ∃ t', T t t' ∧ ∀ c, c ∈ W ∨ cs.same c s t → cs.same c s' t'

theorem Moves.none : Moves cs [] [] (fun s s' => s = s') := by
  constructor
  · rintro s s' rfl c -
    exact (cs.equiv c).refl s
  · rintro s s' t rfl -
    refine ⟨t, rfl, fun c hc => ?_⟩
    simpa using hc

theorem Moves.op (o : S.Op) (r : S.Ans o) :
    Moves cs (F.reads o) (F.writes o) (fun s s' => h o s = .ok (r, s')) :=
  ⟨cs.frame, cs.again⟩

variable [DecidableEq C]

/-- One transition behind another: the second does not read afresh what the first has written. -/
theorem Moves.comp {R W R' W' : List C} {T T' : σ → σ → Prop} (hT : Moves cs R W T) (hT' : Moves cs R' W' T') :
    Moves cs (R ++ R'.filter (· ∉ W)) (W ++ W') (fun s s' => ∃ u, T s u ∧ T' u s') := by
  constructor
  · rintro s s' ⟨u, hsu, hus⟩ c hc
    rw [List.mem_append, not_or] at hc
    exact (cs.equiv c).trans (hT.frame hsu c hc.1) (hT'.frame hus c hc.2)
  · rintro s s' t ⟨u, hsu, hus⟩ hR
    obtain ⟨v, htv, hsame⟩ := hT.again hsu (fun c hc => hR c (List.mem_append_left _ hc))
    obtain ⟨t', hvt, hsame'⟩ := hT'.again hus (t := v) (fun c hc => by
      by_cases hW : c ∈ W
      · exact hsame c (Or.inl hW)
      · exact hsame c (Or.inr (hR c (List.mem_append_right _ (List.mem_filter.2 ⟨hc, by simpa using hW⟩)))))
    refine ⟨t', ⟨v, htv, hvt⟩, fun c hc => hsame' c ?_⟩
    rcases hc with hc | hc
    · rcases List.mem_append.1 hc with hW | hW'
      · exact Or.inr (hsame c (Or.inl hW))
      · exact Or.inl hW'
    · exact Or.inr (hsame c (Or.inr hc))

/-- A machine that notes what was read, unless it was written before, and what was written. -/
def tracked (F : Footprint S C) (h : Handler S σ) : Handler S (σ × List C × List C) := fun o x =>
  match h o x.1 with
  | .ok (r, s) => .ok (r, s, x.2.1 ++ (F.reads o).filter (· ∉ x.2.2), x.2.2 ++ F.writes o)
  | .error w => .error w

/-- A run of a program, behind the transitions `T`. -/
theorem Moves.of_tracked {p : Prog S α} {R W R' W' : List C} {T : σ → σ → Prop} (hT : Moves cs R W T)
    {s0 s s' : σ} {a : α} (hs : T s0 s) (hrun : p.run (tracked F h) (s, R, W) = .ok (a, s', R', W')) :
    ∃ T', Moves cs R' W' T' ∧ T' s0 s' ∧ ∀ x y, T' x y → ∃ z, T x z ∧ p.run h z = .ok (a, y) := by
  induction p generalizing R W T s with
  | ret b =>
    cases hrun
    exact ⟨T, hT, hs, fun x y hxy => ⟨y, hxy, rfl⟩⟩
  | stop w => cases hrun
  | op o k ih =>
    rw [Prog.run, tracked] at hrun
    cases ho : h o s with
    | error w =>
      rw [ho] at hrun
      cases hrun
    | ok r =>
      obtain ⟨r, u⟩ := r
      rw [ho] at hrun
      obtain ⟨T', hT', hs', hall⟩ := ih r (hT.comp (Moves.op o r)) ⟨s, hs, ho⟩ hrun
      refine ⟨T', hT', hs', fun x y hxy => ?_⟩
      obtain ⟨z, ⟨v, hxv, hvz⟩, hz⟩ := hall x y hxy
      refine ⟨v, hxv, ?_⟩
      rw [Prog.run, hvz]
      exact hz

/-! ## Actions -/

/-- Actions one after another. -/
inductive Acts (h : Handler S σ) (prog : ι → Prog S Unit) : σ → List ι → σ → Prop where
  | nil {s : σ} : Acts h prog s [] s
  | cons {s s' s'' : σ} {i : ι} {l : List ι} : (prog i).run h s = .ok ((), s') → Acts h prog s' l s'' →
      Acts h prog s (i :: l) s''

theorem Acts.snoc {prog : ι → Prog S Unit} {s s' s'' : σ} {i : ι} {l : List ι} (hl : Acts h prog s l s')
    (hi : (prog i).run h s' = .ok ((), s'')) : Acts h prog s (l ++ [i]) s'' := by
  induction hl with
  | nil => exact .cons hi .nil
  | cons hj _ ih => exact .cons hj (ih hi)

/-- What was used so far: by the program, by the actions that are to go behind it, and the scratch
    cells that an action has written since the program did. -/
structure Marks (C : Type) where
  read : List C
  wrote : List C
  lateRead : List C
  lateWrote : List C
  stale : List C

def Marks.start : Marks C := ⟨[], [], [], [], []⟩

/-- The operation has no conflict with the actions that are to go behind it. -/
def Marks.Admits (F : Footprint S C) (m : Marks C) (o : S.Op) : Prop :=
  (∀ c ∈ F.reads o, c ∉ m.lateWrote ∧ c ∉ m.stale) ∧ ∀ c ∈ F.writes o, c ∉ m.lateRead ∧ c ∉ m.lateWrote

instance (m : Marks C) (o : S.Op) : Decidable (m.Admits F o) := inferInstanceAs (Decidable (_ ∧ _))

def Marks.step (F : Footprint S C) (m : Marks C) (o : S.Op) : Marks C :=
  { m with
    read := m.read ++ (F.reads o).filter (· ∉ m.wrote), wrote := m.wrote ++ F.writes o
    stale := m.stale.filter (· ∉ F.writes o) }

/-- The machine of a program with actions in it. -/
def watched (F : Footprint S C) (h : Handler S σ) : Handler S (σ × Marks C) := fun o x =>
  if x.2.Admits F o then
    match h o x.1 with
    | .ok (r, s) => .ok (r, s, x.2.step F o)
    | .error w => .error w
  else .error .undefined

/-- An action that reads `R` and writes `W` has no conflict with anything so far. -/
def Marks.Early (scratch : List C) (m : Marks C) (R W : List C) : Prop :=
  (∀ c ∈ R, c ∉ m.wrote ∧ c ∉ m.lateWrote) ∧
    ∀ c ∈ W, c ∉ m.read ∧ c ∉ m.lateRead ∧ (c ∈ scratch ∨ c ∉ m.wrote ∧ c ∉ m.lateWrote)

/-- The action goes before the program. -/
def Marks.before (scratch : List C) (m : Marks C) (W : List C) : Marks C :=
  { m with stale := m.stale ++ W.filter (· ∈ scratch) }

/-- The action goes behind the program. -/
def Marks.behind (scratch : List C) (m : Marks C) (R W : List C) : Marks C :=
  { m with
    lateRead := m.lateRead ++ R, lateWrote := m.lateWrote ++ W.filter (· ∉ scratch)
    stale := m.stale ++ W.filter (· ∈ scratch) }

/-- The action `i`, to be moved before the program or behind it. It takes nothing over from a scratch
    cell. -/
inductive Movable (F : Footprint S C) (h : Handler S σ) (prog : ι → Prog S Unit) (scratch : List C) :
    ι → σ × Marks C → σ × Marks C → Prop where
  | before {i : ι} {s s' : σ} {m : Marks C} {R W : List C} :
      (prog i).run (tracked F h) (s, [], []) = .ok ((), s', R, W) → (∀ c ∈ R, c ∉ scratch) →
      m.Early scratch R W → Movable F h prog scratch i (s, m) (s', m.before scratch W)
  | behind {i : ι} {s s' : σ} {m : Marks C} {R W : List C} :
      (prog i).run (tracked F h) (s, [], []) = .ok ((), s', R, W) → (∀ c ∈ R, c ∉ scratch) →
      Movable F h prog scratch i (s, m) (s', m.behind scratch R W)

/-! ## The serial run -/

section Serial

variable {prog : ι → Prog S Unit} {scratch : List C} {p q : Prog S α} {st s s' : σ} {m : Marks C}
  {l : List ι} {a : α}

/-- The serial run of what has happened so far: the actions `l1`, the program up to where `q` is left,
    and the actions `l2`, from `st` over `e` and `t` to `v`. The transitions `T` are those of the
    program, `U` those of the late actions. -/
structure Order (cs : Cells h F) (prog : ι → Prog S Unit) (scratch : List C) (p : Prog S α) (st : σ)
    (l : List ι) (q : Prog S α) (s : σ) (m : Marks C) (l1 l2 : List ι) (e t v : σ) (T U : σ → σ → Prop)
    (W : List C) : Prop where
  perm : (l1 ++ l2).Perm l
  first : Acts h prog st l1 e
  middle : T e t
  last : U t v
  moves : Moves cs m.read m.wrote T
  movesLate : Moves cs m.lateRead W U
  late : ∀ c ∈ W, c ∈ m.lateWrote ∨ c ∈ scratch
  runs : ∀ x y, T x y → p.run h x = q.run h y
  acts : ∀ x y, U x y → Acts h prog x l2 y
  /-- The end is the one of the real run. -/
  same : ∀ c ∉ scratch, cs.same c v s
  fresh : ∀ c ∈ scratch, c ∉ m.stale → cs.same c t s

/-- So far there is a serial run. -/
def Serialised (cs : Cells h F) (prog : ι → Prog S Unit) (scratch : List C) (p : Prog S α) (st : σ)
    (l : List ι) (q : Prog S α) (s : σ) (m : Marks C) : Prop :=
  ∃ l1 l2 e t v T U W, Order cs prog scratch p st l q s m l1 l2 e t v T U W

omit [DecidableEq C] in
theorem Serialised.start (cs : Cells h F) (prog : ι → Prog S Unit) (scratch : List C) (p : Prog S α) (st : σ) :
    Serialised cs prog scratch p st [] p st .start :=
  ⟨[], [], st, st, st, _, _, [], List.Perm.refl _, .nil, rfl, rfl, Moves.none, Moves.none, by simp,
    fun _ _ hxy => by rw [hxy], fun _ _ hxy => hxy ▸ .nil, fun c _ => (cs.equiv c).refl st,
    fun c _ _ => (cs.equiv c).refl st⟩

namespace Order

variable {l1 l2 : List ι} {e t v : σ} {T U : σ → σ → Prop} {W : List C}

/-- What the late actions have not written is as the program left it. -/
theorem same_middle (ho : Order cs prog scratch p st l q s m l1 l2 e t v T U W) {c : C} (hlate : c ∉ m.lateWrote)
    (hstale : c ∉ m.stale) : cs.same c t s := by
  by_cases hc : c ∈ scratch
  · exact ho.fresh c hc hstale
  · have hW : c ∉ W := fun hW => (ho.late c hW).elim hlate hc
    exact (cs.equiv c).trans (ho.movesLate.frame ho.last c hW) (ho.same c hc)

/-- An operation of the program. -/
theorem step {o : S.Op} {k : S.Ans o → Prog S α} {r : S.Ans o}
    (ho : Order cs prog scratch p st l (.op o k) s m l1 l2 e t v T U W) (hm : m.Admits F o)
    (hstep : h o s = .ok (r, s')) : Serialised cs prog scratch p st l (k r) s' (m.step F o) := by
  -- the serial run answers the same, and the late actions run again behind it
  obtain ⟨t', ht, hsame⟩ := cs.again hstep (t := t) (fun c hc =>
    (cs.equiv c).symm (ho.same_middle (hm.1 c hc).1 (hm.1 c hc).2))
  obtain ⟨v', hv, hsame'⟩ := ho.movesLate.again ho.last (t := t')
    (fun c hc => cs.frame ht c (fun hw => (hm.2 c hw).1 hc))
  refine ⟨l1, l2, e, t', v', _, U, W, ho.perm, ho.first, ⟨t, ho.middle, ht⟩, hv,
    ho.moves.comp (Moves.op o r), ho.movesLate, ho.late, ?_, ho.acts, fun c hc => ?_, fun c hc hstale => ?_⟩
  · rintro x y ⟨z, hxz, hzy⟩
    rw [ho.runs x z hxz, Prog.run, hzy]
  · by_cases hw : c ∈ F.writes o
    · have hW : c ∉ W := fun hW => (ho.late c hW).elim (hm.2 c hw).2 hc
      exact (cs.equiv c).trans ((cs.equiv c).symm (ho.movesLate.frame hv c hW))
        ((cs.equiv c).symm (hsame c (Or.inl hw)))
    · have hv' := hsame' c (Or.inr (cs.frame ht c hw))
      exact (cs.equiv c).trans ((cs.equiv c).symm hv')
        ((cs.equiv c).trans (ho.same c hc) (cs.frame hstep c hw))
  · by_cases hw : c ∈ F.writes o
    · exact (cs.equiv c).symm (hsame c (Or.inl hw))
    · have hold : c ∉ m.stale := fun h => hstale (List.mem_filter.2 ⟨h, by simpa using hw⟩)
      exact (cs.equiv c).trans ((cs.equiv c).symm (cs.frame ht c hw))
        ((cs.equiv c).trans (ho.fresh c hc hold) (cs.frame hstep c hw))

variable {i : ι} {R V : List C}

section

variable (ho : Order cs prog scratch p st l q s m l1 l2 e t v T U W)
  (hi : (prog i).run (tracked F h) (s, [], []) = .ok ((), s', R, V)) (hR : ∀ c ∈ R, c ∉ scratch)

include ho hi hR

/-- An action that goes behind the program. -/
theorem behind :
    Serialised cs prog scratch p st (l ++ [i]) q s' (m.behind scratch R V) := by
  obtain ⟨A, hA, hs, hall⟩ := (Moves.none : Moves cs _ _ _).of_tracked rfl hi
  obtain ⟨v', hv, hsame⟩ := hA.again hs (t := v) (fun c hc => (cs.equiv c).symm (ho.same c (hR c hc)))
  have hmoves : Moves cs (m.lateRead ++ R) (W ++ V) (fun x y => ∃ z, U x z ∧ A z y) := by
    refine ⟨(ho.movesLate.comp hA).frame, fun hT hread => (ho.movesLate.comp hA).again hT (fun c hc => hread c ?_)⟩
    rcases List.mem_append.1 hc with hc | hc
    · exact List.mem_append_left _ hc
    · exact List.mem_append_right _ (List.mem_filter.1 hc).1
  refine ⟨l1, l2 ++ [i], e, t, v', T, _, W ++ V, ?_, ho.first, ho.middle, ⟨v, ho.last, hv⟩, ho.moves, hmoves,
    fun c hc => ?_, ho.runs, ?_, fun c hc => ?_, fun c hc hstale => ?_⟩
  · rw [← List.append_assoc]
    exact ho.perm.append_right _
  · rcases List.mem_append.1 hc with hc | hc
    · exact (ho.late c hc).imp (List.mem_append_left _) id
    · by_cases hscratch : c ∈ scratch
      · exact Or.inr hscratch
      · exact Or.inl (List.mem_append_right _ (List.mem_filter.2 ⟨hc, by simpa using hscratch⟩))
  · rintro x y ⟨z, hxz, hzy⟩
    obtain ⟨_, rfl, hrun⟩ := hall z y hzy
    exact (ho.acts x z hxz).snoc hrun
  · exact (cs.equiv c).symm (hsame c (Or.inr ((cs.equiv c).symm (ho.same c hc))))
  · obtain ⟨hold, hV⟩ := not_or.1 (fun h => hstale (List.mem_append.2 h))
    have hc' : c ∉ V := fun h => hV (List.mem_filter.2 ⟨h, by simpa using hc⟩)
    exact (cs.equiv c).trans (ho.fresh c hc hold) (hA.frame hs c hc')

/-- An action that goes before the program: the program and the late actions run again behind it. -/
theorem before (hearly : m.Early scratch R V) :
    Serialised cs prog scratch p st (l ++ [i]) q s' (m.before scratch V) := by
  obtain ⟨A, hA, hs, hall⟩ := (Moves.none : Moves cs _ _ _).of_tracked rfl hi
  have hback : ∀ c, c ∉ scratch → c ∉ m.wrote → c ∉ m.lateWrote → cs.same c e s := fun c hc hw hl => by
    have hW : c ∉ W := fun hW => (ho.late c hW).elim hl hc
    exact (cs.equiv c).trans (ho.moves.frame ho.middle c hw)
      ((cs.equiv c).trans (ho.movesLate.frame ho.last c hW) (ho.same c hc))
  obtain ⟨e', he, hsame⟩ := hA.again hs (t := e) (fun c hc =>
    (cs.equiv c).symm (hback c (hR c hc) (hearly.1 c hc).1 (hearly.1 c hc).2))
  obtain ⟨t', ht, hsame1⟩ := ho.moves.again ho.middle (t := e')
    (fun c hc => hA.frame he c (fun hV => (hearly.2 c hV).1 hc))
  -- what the action does not write, the program and the late actions find as before
  have hkeep : ∀ c ∉ V, cs.same c t t' := fun c hV => hsame1 c (Or.inr (hA.frame he c hV))
  obtain ⟨v', hv, hsame2⟩ := ho.movesLate.again ho.last (t := t')
    (fun c hc => hkeep c (fun hV => (hearly.2 c hV).2.1 hc))
  refine ⟨l1 ++ [i], l2, e', t', v', T, U, W, ?_, ?_, ht, hv, ho.moves, ho.movesLate, ho.late, ho.runs, ho.acts,
    fun c hc => ?_, fun c hc hstale => ?_⟩
  · rw [List.append_assoc]
    exact ((List.perm_append_comm : (l2 ++ [i]).Perm _).symm.append_left l1).trans
      (by rw [← List.append_assoc]; exact ho.perm.append_right [i])
  · obtain ⟨_, rfl, hrun⟩ := hall e e' he
    exact ho.first.snoc hrun
  · by_cases hV : c ∈ V
    · obtain ⟨hw, hl⟩ := (hearly.2 c hV).2.2.resolve_left hc
      have hW : c ∉ W := fun hW => (ho.late c hW).elim hl hc
      exact (cs.equiv c).symm ((cs.equiv c).trans (hsame c (Or.inl hV))
        ((cs.equiv c).trans (ho.moves.frame ht c hw) (ho.movesLate.frame hv c hW)))
    · exact (cs.equiv c).trans ((cs.equiv c).symm (hsame2 c (Or.inr (hkeep c hV))))
        ((cs.equiv c).trans (ho.same c hc) (hA.frame hs c hV))
  · obtain ⟨hold, hV⟩ := not_or.1 (fun h => hstale (List.mem_append.2 h))
    have hc' : c ∉ V := fun h => hV (List.mem_filter.2 ⟨h, by simpa using hc⟩)
    exact (cs.equiv c).trans ((cs.equiv c).symm (hkeep c hc'))
      ((cs.equiv c).trans (ho.fresh c hc hold) (hA.frame hs c hc'))

end

end Order

/-- A whole run. -/
theorem Prog.Mixed.serialised {x x' : σ × Marks C} {l' : List ι}
    (hm : q.Mixed (watched F h) (Movable F h prog scratch) x l' a x')
    (ho : Serialised cs prog scratch p st l q x.1 x.2) :
    Serialised cs prog scratch p st (l ++ l') (.ret a) x'.1 x'.2 := by
  induction hm generalizing l with
  | ret => rwa [List.append_nil]
  | @op o k r x x1 x2 l' a hop _ ih =>
    rw [watched] at hop
    split_ifs at hop with hadmits
    cases hstep : h o x.1 with
    | error w =>
      rw [hstep] at hop
      cases hop
    | ok y =>
      rw [hstep] at hop
      cases hop
      obtain ⟨l1, l2, e, t, v, T, U, W, ho⟩ := ho
      exact ih (ho.step hadmits hstep)
  | act hact _ ih =>
    obtain ⟨l1, l2, e, t, v, T, U, W, ho⟩ := ho
    rw [List.append_cons]
    cases hact with
    | before hi hR hearly => exact ih (ho.before hi hR hearly)
    | behind hi hR => exact ih (ho.behind hi hR)

/-- Without the notes it is a run with the same actions in it. -/
theorem Prog.Mixed.unwatched (cs : Cells h F) {x x' : σ × Marks C}
    (hm : p.Mixed (watched F h) (Movable F h prog scratch) x l a x') :
    p.Mixed h (fun i s s' => (prog i).run h s = .ok ((), s')) x.1 l a x'.1 := by
  induction hm with
  | ret => exact .ret
  | @op o k r x x1 x2 l a hop _ ih =>
    rw [watched] at hop
    split_ifs at hop
    cases hstep : h o x.1 with
    | error w =>
      rw [hstep] at hop
      cases hop
    | ok y =>
      rw [hstep] at hop
      cases hop
      exact .op hstep ih
  | act hact _ ih =>
    have hrun : ∀ {s s' : σ} {R W : List C} {i : ι},
        (prog i).run (tracked F h) (s, [], []) = .ok ((), s', R, W) → (prog i).run h s = .ok ((), s') := by
      intro s s' R W i hi
      obtain ⟨T, -, hs, hall⟩ := (Moves.none : Moves cs _ _ _).of_tracked rfl hi
      obtain ⟨_, rfl, hrun⟩ := hall _ _ hs
      exact hrun
    cases hact with
    | before hi _ _ => exact .act (hrun hi) ih
    | behind hi _ => exact .act (hrun hi) ih

/-- **A run whose actions can be moved is a serial one**, outside the scratch cells. -/
theorem Prog.Mixed.serial (cs : Cells h F)
    (hm : p.Mixed (watched F h) (Movable F h prog scratch) (st, .start) l a (s, m)) :
    ∃ l1 l2 e t v, (l1 ++ l2).Perm l ∧ Acts h prog st l1 e ∧ p.run h e = .ok (a, t) ∧ Acts h prog t l2 v ∧
      ∀ c ∉ scratch, cs.same c v s := by
  obtain ⟨l1, l2, e, t, v, T, U, W, ho⟩ := hm.serialised (Serialised.start cs prog scratch p st)
  exact ⟨l1, l2, e, t, v, ho.perm, ho.first, ho.runs e t ho.middle, ho.acts t v ho.last, ho.same⟩

end Serial

end Atomic
