import Mathlib.Logic.Basic
import Mathlib.Tactic.ByContra

set_option autoImplicit false

/-! # Walks through named directories

A tree gives, for every directory and every name, what the name stands for there: a directory, a
file, or nothing. A path is walked name by name. `Meets` says that a walk makes one of a given set
of lookups; two trees that agree on all other lookups lead every walk that makes none of them to
the same place, and a walk that makes one of them can only end where the new tree lets it. -/

namespace NameTree

/-- What a name stands for. -/
inductive Node (ι δ : Type) where
  | dir (i : ι)
  | file (content : δ)
  deriving DecidableEq

/-- For every directory, what the names in it stand for. -/
abbrev Tree (ι κ δ : Type) := ι → κ → Option (Node ι δ)

variable {ι κ δ : Type}

/-- One name on; a file has no names in it. -/
def step (t : Tree ι κ δ) : Node ι δ → κ → Option (Node ι δ)
  | .dir i, k => t i k
  | .file _, _ => none

/-- Where a path leads. -/
def walk (t : Tree ι κ δ) : Node ι δ → List κ → Option (Node ι δ)
  | x, [] => some x
  | x, k :: ks => (step t x k).bind (fun y => walk t y ks)

/-- The walk makes a lookup in `hit`. -/
def Meets (t : Tree ι κ δ) (hit : ι → κ → Prop) : Node ι δ → List κ → Prop
  | _, [] => False
  | .file _, _ :: _ => False
  | .dir i, k :: ks => hit i k ∨ ∃ y, t i k = some y ∧ Meets t hit y ks

/-- The trees agree off `hit` on the directories in `ok`, and no other lookup leaves `ok`. -/
structure Agree (t t' : Tree ι κ δ) (hit : ι → κ → Prop) (ok : ι → Prop) : Prop where
  closed : ∀ i k j, ok i → ¬ hit i k → t i k = some (.dir j) → ok j
  same : ∀ i k, ok i → ¬ hit i k → t' i k = t i k

section Walk

variable {t t' : Tree ι κ δ} {hit : ι → κ → Prop} {ok : ι → Prop} {ks : List κ} {x : Node ι δ}
  {k : κ}

theorem walk_append (x : Node ι δ) (ks ls : List κ) :
    walk t x (ks ++ ls) = (walk t x ks).bind (fun y => walk t y ls) := by
  induction ks generalizing x with
  | nil => rfl
  | cons k ks ih =>
    rw [List.cons_append, walk, walk]
    cases step t x k with
    | none => rfl
    | some y => exact ih y

theorem walk_singleton (x : Node ι δ) (k : κ) : walk t x [k] = step t x k := by
  rw [walk]
  cases step t x k <;> rfl

/-- A walk that starts at a file stays there. -/
theorem walk_file {c : δ} {y : Node ι δ} (h : walk t (.file c) ks = some y) : y = .file c := by
  cases ks with
  | nil => exact (Option.some.inj h).symm
  | cons k ks => exact absurd h (by simp [walk, step])

/-- The last name of a walk. -/
theorem walk_concat {y : Node ι δ} :
    walk t x (ks ++ [k]) = some y ↔ ∃ i, walk t x ks = some (.dir i) ∧ t i k = some y := by
  rw [walk_append, Option.bind_eq_some_iff]
  constructor
  · rintro ⟨z, hz, hy⟩
    rw [walk_singleton] at hy
    cases z with
    | dir i => exact ⟨i, hz, hy⟩
    | file c => exact absurd hy (by simp [step])
  · rintro ⟨i, hi, hy⟩
    exact ⟨.dir i, hi, by rw [walk_singleton]; exact hy⟩

/-- The first name of a walk between directories. -/
theorem walk_cons_dir {i j : ι} (h : walk t (.dir i) (k :: ks) = some (.dir j)) :
    ∃ i', t i k = some (.dir i') ∧ walk t (.dir i') ks = some (.dir j) := by
  rw [walk, Option.bind_eq_some_iff] at h
  obtain ⟨y, hy, hw⟩ := h
  cases y with
  | dir i' => exact ⟨i', hy, hw⟩
  | file c => exact absurd (walk_file hw) (by simp)

/-- A walk that makes none of the lookups does not see the difference. -/
theorem Agree.walk_eq (h : Agree t t' hit ok) (hx : ∀ i, x = .dir i → ok i)
    (hno : ¬ Meets t hit x ks) : walk t' x ks = walk t x ks := by
  induction ks generalizing x with
  | nil => rfl
  | cons k ks ih =>
    cases x with
    | file c => rfl
    | dir i =>
      rw [Meets, not_or] at hno
      obtain ⟨hk, hrest⟩ := hno
      rw [walk, walk, step, step, h.same i k (hx i rfl) hk]
      cases hy : t i k with
      | none => rfl
      | some y =>
        refine ih (fun j hj => ?_) (fun hm => hrest ⟨y, hy, hm⟩)
        subst hj
        exact h.closed i k j (hx i rfl) hk hy

end Walk

end NameTree
