import Mathlib.Data.List.Nodup
import Mathlib.Data.List.Infix
import Mathlib.Tactic.Common

set_option autoImplicit false

/-! # Chains in a successor table

A table `next` gives every node its successor. A path runs through nodes that are `ok`, as a chain
of an allocation table runs through the numbers that name an allocation unit, and a chain is a path
that ends in a `stop` value. Where no node is both, a chain is determined by its first node and
meets no node twice. -/

namespace Linked

variable {α : Type} {l : List α} {c d x : α}

/-- From `c`, following `next` through `ok` nodes visits `l` and arrives at `d`. -/
def Path (next : α → α) (ok : α → Prop) : α → List α → α → Prop
  | c, [], d => c = d
  | c, x :: xs, d => x = c ∧ ok c ∧ Path next ok (next c) xs d

/-- From `c`, the chain is `l` and then ends in a `stop` value. -/
def Links (next : α → α) (ok stop : α → Prop) (c : α) (l : List α) : Prop :=
  ∃ e, stop e ∧ Path next ok c l e

/-- The `ok` nodes met from `c`, at most `n` of them. -/
def walk (next : α → α) (ok : α → Prop) [DecidablePred ok] : ℕ → α → List α
  | 0, _ => []
  | n + 1, c => if ok c then c :: walk next ok n (next c) else []

/-- The nodes met from `c` on, as long as they are `ok`; on a cycle they are met again. -/
inductive Reached (next : α → α) (ok : α → Prop) (c : α) : α → Prop
  | start : ok c → Reached next ok c c
  | step {x : α} : Reached next ok c x → ok (next x) → Reached next ok c (next x)

variable {next next' : α → α} {ok stop : α → Prop}

theorem walk_of_pos [DecidablePred ok] {n : ℕ} (hn : 0 < n) (c : α) :
    walk next ok n c = if ok c then c :: walk next ok (n - 1) (next c) else [] := by
  cases n with
  | zero => exact absurd hn (by omega)
  | succ n => rfl

theorem walk_length_le [DecidablePred ok] (n : ℕ) (c : α) : (walk next ok n c).length ≤ n := by
  induction n generalizing c with
  | zero => exact le_refl _
  | succ n ih =>
    rw [walk]
    split_ifs
    · exact Nat.succ_le_succ (ih _)
    · exact Nat.zero_le _

theorem ok_of_mem_walk [DecidablePred ok] {n : ℕ} (hx : x ∈ walk next ok n c) : ok x := by
  induction n generalizing c with
  | zero => exact absurd hx (by simp [walk])
  | succ n ih =>
    rw [walk] at hx
    split_ifs at hx with hok
    · rcases List.mem_cons.1 hx with rfl | hx'
      · exact hok
      · exact ih hx'
    · cases hx

/-! ## Paths -/

theorem Path.append {e : α} {l' : List α} (h : Path next ok c l d) (h' : Path next ok d l' e) :
    Path next ok c (l ++ l') e := by
  induction l generalizing c with
  | nil =>
    obtain rfl : c = d := h
    exact h'
  | cons x xs ih =>
    obtain ⟨rfl, hok, hp⟩ := h
    exact ⟨rfl, hok, ih hp⟩

/-- A path survives in a table that agrees on its nodes. -/
theorem Path.congr (h : Path next ok c l d) (hn : ∀ x ∈ l, next' x = next x) :
    Path next' ok c l d := by
  induction l generalizing c with
  | nil => exact h
  | cons x xs ih =>
    obtain ⟨rfl, hok, hp⟩ := h
    refine ⟨rfl, hok, ?_⟩
    rw [hn x (List.mem_cons_self ..)]
    exact ih hp (fun y hy => hn y (List.mem_cons_of_mem _ hy))

section

variable {c d x : α} {l : List α} (h : Path next ok c l d) (hx : x ∈ l)

include h hx

theorem Path.ok_of_mem : ok x := by
  induction l generalizing c with
  | nil => cases hx
  | cons y ys ih =>
    obtain ⟨rfl, hok, hp⟩ := h
    rcases List.mem_cons.1 hx with rfl | hx'
    · exact hok
    · exact ih hp hx'

/-- From a node of a path, the rest of the path. -/
theorem Path.suffix_of_mem : ∃ l', Path next ok x l' d ∧ l' <:+ l ∧ l' ≠ [] := by
  induction l generalizing c with
  | nil => cases hx
  | cons y ys ih =>
    rcases List.mem_cons.1 hx with rfl | hx'
    · obtain rfl := h.1
      exact ⟨x :: ys, h, List.suffix_rfl, by simp⟩
    · obtain ⟨l', hp, hsuf, hne⟩ := ih h.2.2 hx'
      exact ⟨l', hp, hsuf.trans (List.suffix_cons ..), hne⟩

/-- The successor of a node of a path is a node of it, or where the path arrives. -/
theorem Path.next_mem : next x ∈ l ∨ next x = d := by
  obtain ⟨l', hp, hsuf, hne⟩ := h.suffix_of_mem hx
  cases l' with
  | nil => exact absurd rfl hne
  | cons y ys =>
    obtain ⟨rfl, -, hp⟩ := hp
    cases ys with
    | nil => exact Or.inr hp
    | cons z zs =>
      obtain rfl := hp.1
      exact Or.inl (hsuf.subset (by simp))

end

/-- A path arrives where its last node leads. -/
theorem Path.exists_last (h : Path next ok c l d) (hne : l ≠ []) : ∃ x ∈ l, d = next x := by
  induction l generalizing c with
  | nil => exact absurd rfl hne
  | cons y ys ih =>
    obtain ⟨rfl, -, hp⟩ := h
    by_cases hys : ys = []
    · subst hys
      exact ⟨y, List.mem_cons_self .., hp.symm⟩
    · obtain ⟨x, hx, hd⟩ := ih hp hys
      exact ⟨x, List.mem_cons_of_mem y hx, hd⟩

/-! ## Chains -/

theorem Links.congr (h : Links next ok stop c l) (hn : ∀ x ∈ l, next' x = next x) :
    Links next' ok stop c l := by
  obtain ⟨e, he, hp⟩ := h
  exact ⟨e, he, hp.congr hn⟩

theorem Links.ok_of_mem (h : Links next ok stop c l) (hx : x ∈ l) : ok x := by
  obtain ⟨e, -, hp⟩ := h
  exact hp.ok_of_mem hx

theorem Links.nil_iff : Links next ok stop c [] ↔ stop c := by
  constructor
  · rintro ⟨e, he, rfl⟩
    exact he
  · intro hc
    exact ⟨c, hc, rfl⟩

theorem Links.cons_iff {xs : List α} :
    Links next ok stop c (x :: xs) ↔ x = c ∧ ok c ∧ Links next ok stop (next c) xs := by
  constructor
  · rintro ⟨e, he, hx, hok, hp⟩
    exact ⟨hx, hok, e, he, hp⟩
  · rintro ⟨hx, hok, e, he, hp⟩
    exact ⟨e, he, hx, hok, hp⟩

instance Links.decidable [DecidableEq α] [DecidablePred ok] [DecidablePred stop] :
    (c : α) → (l : List α) → Decidable (Links next ok stop c l)
  | _, [] => decidable_of_iff _ Links.nil_iff.symm
  | c, x :: xs =>
    have := Links.decidable (next c) xs
    decidable_of_iff (x = c ∧ ok c ∧ Links next ok stop (next c) xs) Links.cons_iff.symm

/-- The first node of a chain that has one. -/
theorem Links.mem_self (h : Links next ok stop c l) (hne : l ≠ []) : c ∈ l := by
  cases l with
  | nil => exact absurd rfl hne
  | cons x xs =>
    obtain rfl := (Links.cons_iff.1 h).1
    exact List.mem_cons_self ..

/-- Every node of a chain is followed by a node of it or by a `stop` value. -/
theorem Links.next_mem (h : Links next ok stop c l) (hx : x ∈ l) : next x ∈ l ∨ stop (next x) := by
  obtain ⟨e, he, hp⟩ := h
  rcases hp.next_mem hx with hm | heq
  · exact Or.inl hm
  · exact Or.inr (by rwa [heq])

section Disjoint

variable (hd : ∀ c, ok c → ¬ stop c) {l : List α} {c : α}

include hd

/-- A chain is determined by where it starts. -/
theorem Links.unique {l' : List α} (h : Links next ok stop c l) (h' : Links next ok stop c l') :
    l = l' := by
  induction l generalizing c l' with
  | nil =>
    cases l' with
    | nil => rfl
    | cons y ys => exact absurd (Links.nil_iff.1 h) (hd c (Links.cons_iff.1 h').2.1)
  | cons x xs ih =>
    obtain ⟨rfl, hok, hrest⟩ := Links.cons_iff.1 h
    cases l' with
    | nil => exact absurd (Links.nil_iff.1 h') (hd x hok)
    | cons y ys =>
      obtain ⟨rfl, -, hrest'⟩ := Links.cons_iff.1 h'
      rw [ih hrest hrest']

/-- A chain meets no node twice: the rest of the chain from a repeated node would be longer than
    itself. -/
theorem Links.nodup (h : Links next ok stop c l) : l.Nodup := by
  induction l generalizing c with
  | nil => exact List.nodup_nil
  | cons x xs ih =>
    obtain ⟨rfl, -, hrest⟩ := Links.cons_iff.1 h
    refine List.nodup_cons.2 ⟨fun hx => ?_, ih hrest⟩
    obtain ⟨e, he, hp⟩ := hrest
    obtain ⟨l', hp', hsuf, -⟩ := hp.suffix_of_mem hx
    have heq := Links.unique hd h ⟨e, he, hp'⟩
    have hlen := hsuf.length_le
    rw [← heq, List.length_cons] at hlen
    omega

theorem Links.walk_eq [DecidablePred ok] {n : ℕ} (h : Links next ok stop c l) (hn : l.length ≤ n) :
    walk next ok n c = l := by
  induction l generalizing c n with
  | nil =>
    have hc := Links.nil_iff.1 h
    cases n with
    | zero => rfl
    | succ n => rw [walk, if_neg (fun hok => hd c hok hc)]
  | cons x xs ih =>
    obtain ⟨rfl, hok, hrest⟩ := Links.cons_iff.1 h
    obtain ⟨n, rfl⟩ : ∃ m, n = m + 1 := ⟨n - 1, by simp only [List.length_cons] at hn; omega⟩
    rw [walk, if_pos hok, ih hrest (Nat.le_of_succ_le_succ hn)]

end Disjoint

end Linked
