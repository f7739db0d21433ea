import OctoOS.Shell
import Mathlib.Data.List.DropRight

set_option autoImplicit false

/-! # The history holds the last lines

The rows of `history` as a list of strings. A push appends to that list and drops its head when the
array is full, so the list is the end of the sequence of all lines that were kept: those that differ
from the line pushed before them. -/

namespace OctoOS

variable {lay : EditLayout} {s s' : Editor} {m m' : Mem} {ls : List (List UInt8)} {t : List UInt8}
  {a : ℕ}

/-! ## Addresses -/

theorem elemAddr_natCast (a i : ℕ) : elemAddr a i = a + i := by
  unfold elemAddr
  omega

theorem EditLayout.row_natCast (lay : EditLayout) (i : ℕ) : lay.row i = lay.history + lineMax * i := by
  unfold EditLayout.row
  exact elemAddr_natCast lay.history (lineMax * i)

/-- An address in the history. -/
def EditLayout.InHistory (lay : EditLayout) (a : ℕ) : Prop :=
  lay.history ≤ a ∧ a < lay.history + histMax * lineMax

/-- Nothing outside the history differs. -/
def OffHistory (lay : EditLayout) (m m' : Mem) : Prop := ∀ a, ¬ lay.InHistory a → m' a = m a

/-! ## Rows -/

/-- From `a` on there are rows of `lineMax` bytes with the strings `ls`. -/
def Rows (m : Mem) : ℕ → List (List UInt8) → Prop
  | _, [] => True
  | a, t :: ls => IsCString m a t ∧ t.length < lineMax ∧ Rows m (a + lineMax) ls

/-- Memories that agree on the rows hold the same strings in them. -/
theorem Rows.congr {b : ℕ} (h : Rows m a ls)
    (hm : ∀ i < lineMax * ls.length, m' (b + i) = m (a + i)) : Rows m' b ls := by
  induction ls generalizing a b with
  | nil => trivial
  | cons t ls ih =>
    obtain ⟨ht, hlen, hrest⟩ := h
    rw [List.length_cons, Nat.mul_succ] at hm
    have hrow : IsCString m' b t := ht.congr (fun i hi => hm i (by omega))
    refine ⟨hrow, hlen, ih hrest (fun i hi => ?_)⟩
    rw [Nat.add_assoc, Nat.add_assoc]
    exact hm (lineMax + i) (by omega)

/-- One more row at the end. -/
theorem Rows.concat (h : Rows m a ls) (ht : IsCString m (a + lineMax * ls.length) t)
    (hlen : t.length < lineMax) : Rows m a (ls ++ [t]) := by
  induction ls generalizing a with
  | nil => exact ⟨ht, hlen, trivial⟩
  | cons u ls ih =>
    refine ⟨h.1, h.2.1, ih h.2.2 ?_⟩
    rwa [List.length_cons, Nat.mul_succ, Nat.add_comm _ lineMax, ← Nat.add_assoc] at ht

/-- The last row. -/
theorem Rows.getLast (h : Rows m a (ls ++ [t])) :
    IsCString m (a + lineMax * ls.length) t ∧ t.length < lineMax := by
  induction ls generalizing a with
  | nil => exact ⟨h.1, h.2.1⟩
  | cons u ls ih =>
    have := ih h.2.2
    rwa [List.length_cons, Nat.mul_succ, Nat.add_comm _ lineMax, ← Nat.add_assoc]

/-! ## The end of a list -/

section Rtake

variable {α : Type} {l : List α} {n : ℕ}

theorem rtake_of_length_le (h : l.length ≤ n) : l.rtake n = l := by
  rw [List.rtake, Nat.sub_eq_zero_of_le h, List.drop_zero]

theorem getLast?_rtake_succ (l : List α) (n : ℕ) : (l.rtake (n + 1)).getLast? = l.getLast? := by
  rcases List.eq_nil_or_concat l with rfl | ⟨l, x, rfl⟩
  · simp
  · rw [List.concat_eq_append, List.rtake_concat_succ]
    simp

/-- Of the end of a list and one more element the end is the same as of the whole list. -/
theorem rtake_concat_rtake (l : List α) (x : α) (n : ℕ) :
    (l.rtake n ++ [x]).rtake n = (l ++ [x]).rtake n := by
  cases n with
  | zero => simp
  | succ n =>
    rw [List.rtake_concat_succ, List.rtake_concat_succ]
    congr 1
    simp only [List.rtake, List.length_drop, List.drop_drop]
    congr 1
    omega

end Rtake

/-! ## One push -/

/-- `line` points to the string `t`, which fits a row and lies outside the history. -/
structure LineAt (lay : EditLayout) (m : Mem) (line : ℕ) (t : List UInt8) : Prop where
  text : IsCString m line t
  fits : t.length < lineMax
  apart : line + t.length < lay.history ∨ lay.history + histMax * lineMax ≤ line

theorem LineAt.offHistory {line : ℕ} (h : LineAt lay m line t) (hm : OffHistory lay m m') :
    LineAt lay m' line t := by
  have happ := h.apart
  refine ⟨h.text.congr (fun i hi => hm _ ?_), h.fits, happ⟩
  unfold EditLayout.InHistory
  omega

/-- The history consists of the rows with the strings `ls`. -/
structure HistoryIs (lay : EditLayout) (s : Editor) (ls : List (List UInt8)) : Prop where
  count : s.histLen = ls.length
  room : ls.length ≤ histMax
  rows : Rows s.mem lay.history ls

/-- What a push makes of the history: nothing if the line is the newest one, and else the last
    `histMax` lines with it. -/
def pushLine (ls : List (List UInt8)) (t : List UInt8) : List (List UInt8) :=
  if ls.getLast? = some t then ls else (ls ++ [t]).rtake histMax

section

variable {ls : List (List UInt8)} (h : HistoryIs lay s ls) {t : List UInt8} {line : ℕ}

include h

theorem histAppend_is (hroom : ls.length < histMax) (ht : LineAt lay s.mem line t) :
    ∃ s', histAppend lay line s = some s' ∧ HistoryIs lay s' (ls ++ [t]) ∧
      OffHistory lay s.mem s'.mem := by
  have happ := ht.apart
  have hfits := ht.fits
  have hcopy : memcpy (lay.row s.histLen) line (t.length + 1) s.mem
      = s.mem.copy (lay.history + lineMax * ls.length) line (t.length + 1) := by
    rw [h.count, lay.row_natCast]
    apply memcpy_eq
    unfold histMax lineMax at *
    omega
  have hmem : Rows (s.mem.copy (lay.history + lineMax * ls.length) line (t.length + 1)) lay.history
      (ls ++ [t]) := by
    apply Rows.concat _ _ hfits
    · -- the rows before the new one are not touched
      apply h.rows.congr
      intro i hi
      rw [Mem.copy, if_neg (by omega)]
    · apply ht.text.congr
      intro i hi
      rw [Mem.copy, if_pos (by omega), Nat.add_sub_cancel_left]
  rw [histAppend, strlen_eq ht.text (Nat.lt_trans hfits (by decide))]
  simp only [hcopy]
  refine ⟨_, rfl, ⟨by simp [h.count], by simpa [Nat.succ_le_iff] using hroom, hmem⟩, ?_⟩
  intro a ha
  apply Mem.sameOff_copy
  unfold EditLayout.InHistory histMax lineMax at *
  omega

/-- The array is full: all rows move down by one and the oldest is lost. -/
theorem HistoryIs.shift (hfull : ls.length = histMax) :
    HistoryIs lay { s with
        mem := memmove (lay.row 0) (lay.row 1) ((histMax - 1) * lineMax) s.mem
        histLen := s.histLen - 1 } ls.tail ∧
      OffHistory lay s.mem (memmove (lay.row 0) (lay.row 1) ((histMax - 1) * lineMax) s.mem) := by
  have h0 : lay.row 0 = lay.history := lay.row_natCast 0
  have h1 : lay.row 1 = lay.history + lineMax := lay.row_natCast 1
  cases ls with
  | nil => cases hfull
  | cons u ls =>
    have hcount := h.count
    rw [List.length_cons] at hfull hcount
    rw [h0, h1, memmove_eq]
    have hrows : Rows (s.mem.copy lay.history (lay.history + lineMax) ((histMax - 1) * lineMax))
        lay.history ls := by
      apply h.rows.2.2.congr
      intro i hi
      rw [Mem.copy, if_pos (by unfold lineMax histMax at *; omega), Nat.add_sub_cancel_left]
    refine ⟨⟨?_, ?_, hrows⟩, ?_⟩
    · simp only [List.tail_cons]
      omega
    · simp only [List.tail_cons]
      omega
    · intro a ha
      apply Mem.sameOff_copy
      unfold EditLayout.InHistory histMax lineMax at *
      omega

/-- The comparison with the newest row. -/
theorem histPush_compare (ht : LineAt lay s.mem line t) :
    ∃ r, (if s.histLen ≠ 0 then strcmp s.mem (lay.row (s.histLen - 1)) line else some 1) = some r ∧
      (r = 0 ↔ ls.getLast? = some t) := by
  have hcount := h.count
  rcases List.eq_nil_or_concat ls with rfl | ⟨ls, u, rfl⟩
  · rw [if_neg (by simpa using hcount)]
    exact ⟨1, rfl, by simp⟩
  · rw [List.concat_eq_append] at h hcount ⊢
    obtain ⟨hu, hlen⟩ := h.rows.getLast
    rw [List.length_append, List.length_singleton] at hcount
    have hrow : lay.row (s.histLen - 1) = lay.history + lineMax * ls.length := by
      rw [← lay.row_natCast]
      congr 1
      omega
    obtain ⟨r, hr, heq⟩ := strcmp_eq hu ht.text (Nat.lt_trans hlen (by decide))
    rw [if_pos (by omega), hrow]
    exact ⟨r, hr, by simpa using heq⟩

/-- `hist_push` returns, and the history is what `pushLine` says. -/
theorem histPush_is (ht : LineAt lay s.mem line t) :
    ∃ s', histPush lay line s = some s' ∧ HistoryIs lay s' (pushLine ls t) ∧
      OffHistory lay s.mem s'.mem := by
  obtain ⟨r, hcmp, hr⟩ := histPush_compare h ht
  have hcount := h.count
  have hroom := h.room
  rw [histPush, hcmp, pushLine]
  simp only [hr]
  by_cases hsame : ls.getLast? = some t
  · rw [if_pos hsame, if_pos hsame]
    exact ⟨s, rfl, h, fun _ _ => rfl⟩
  rw [if_neg hsame, if_neg hsame]
  by_cases hfull : ls.length = histMax
  · rw [if_pos (by omega)]
    obtain ⟨hshift, hoff⟩ := h.shift hfull
    have htail : ls.tail.length < histMax := by
      rw [List.length_tail, hfull]
      decide
    obtain ⟨s', hs', his, hoff'⟩ := histAppend_is hshift htail (ht.offHistory hoff)
    have hlast : (ls ++ [t]).rtake histMax = ls.tail ++ [t] := by
      rw [show histMax = 7 + 1 from rfl] at hfull ⊢
      rw [List.rtake_concat_succ, List.rtake, hfull, Nat.add_sub_cancel_left, List.drop_one]
    rw [hlast]
    exact ⟨s', hs', his, fun a ha => (hoff' a ha).trans (hoff a ha)⟩
  · rw [if_neg (by omega)]
    rw [rtake_of_length_le (by simp; omega)]
    exact histAppend_is h (by omega) ht

end

/-! ## All lines -/

/-- The lines of `ts` that differ from the line before them, where `last` came before the first. -/
def withoutRepeats (last : Option (List UInt8)) : List (List UInt8) → List (List UInt8)
  | [] => []
  | t :: ts => if last = some t then withoutRepeats (some t) ts else t :: withoutRepeats (some t) ts

theorem getLast?_cons_or (u : List UInt8) (ts : List (List UInt8)) (last : Option (List UInt8)) :
    (u :: ts).getLast?.or last = ts.getLast?.or (some u) := by
  cases h : ts.getLast? <;> simp [List.getLast?_cons, h]

theorem withoutRepeats_getLast? (last : Option (List UInt8)) (ts : List (List UInt8)) :
    (withoutRepeats last ts).getLast?.or last = ts.getLast?.or last := by
  induction ts generalizing last with
  | nil => rfl
  | cons t ts ih =>
    rw [withoutRepeats, getLast?_cons_or]
    split_ifs with h
    · rw [h]
      exact ih (some t)
    · rw [getLast?_cons_or]
      exact ih (some t)

theorem withoutRepeats_concat (last : Option (List UInt8)) (ts : List (List UInt8)) (t : List UInt8) :
    withoutRepeats last (ts ++ [t])
      = if ts.getLast?.or last = some t then withoutRepeats last ts
        else withoutRepeats last ts ++ [t] := by
  induction ts generalizing last with
  | nil => rfl
  | cons u ts ih =>
    rw [List.cons_append, withoutRepeats, withoutRepeats, ih, getLast?_cons_or]
    split_ifs <;> rfl

/-- The lines `ts` were pushed one after the other, beginning with an empty history, and `s` is the
    state now. Between two calls everything but the history may change. -/
inductive Pushed (lay : EditLayout) : List (List UInt8) → Editor → Prop
  | empty {s : Editor} (h : s.histLen = 0) : Pushed lay [] s
  | other {ts : List (List UInt8)} {s s' : Editor} (h : Pushed lay ts s)
    (hlen : s'.histLen = s.histLen) (hm : ∀ a, lay.InHistory a → s'.mem a = s.mem a) :
    Pushed lay ts s'
  | push {ts : List (List UInt8)} {s s' : Editor} {line : ℕ} {t : List UInt8} (h : Pushed lay ts s)
    (ht : LineAt lay s.mem line t) (hpush : histPush lay line s = some s') :
    Pushed lay (ts ++ [t]) s'

theorem HistoryIs.congr (h : HistoryIs lay s ls) (hlen : s'.histLen = s.histLen)
    (hm : ∀ a, lay.InHistory a → s'.mem a = s.mem a) : HistoryIs lay s' ls := by
  have hroom := h.room
  refine ⟨hlen.trans h.count, hroom, h.rows.congr (fun i hi => hm _ ?_)⟩
  unfold EditLayout.InHistory histMax lineMax at *
  omega

/-- A push adds the line to the sequence of lines. -/
theorem pushLine_withoutRepeats (ts : List (List UInt8)) (t : List UInt8) :
    pushLine ((withoutRepeats none ts).rtake histMax) t
      = (withoutRepeats none (ts ++ [t])).rtake histMax := by
  have hnewest : ((withoutRepeats none ts).rtake histMax).getLast? = ts.getLast? := by
    have := withoutRepeats_getLast? none ts
    rw [Option.or_none, Option.or_none] at this
    rw [← this]
    exact getLast?_rtake_succ _ 7
  rw [pushLine, hnewest, withoutRepeats_concat, Option.or_none]
  split_ifs with h
  · rfl
  · exact rtake_concat_rtake ..

theorem Pushed.historyIs {ts : List (List UInt8)} (h : Pushed lay ts s) :
    HistoryIs lay s ((withoutRepeats none ts).rtake histMax) := by
  induction h with
  | empty h => exact ⟨h, Nat.zero_le _, trivial⟩
  | other h hlen hm ih => exact ih.congr hlen hm
  | push h ht hpush ih =>
    obtain ⟨s', hs', his, -⟩ := histPush_is ih ht
    rw [hs'] at hpush
    cases hpush
    rwa [pushLine_withoutRepeats] at his

/-- **The history is the end of the sequence of lines, without the lines equal to the line before
    them**, and the next push returns. -/
theorem pushed_last_lines {ts : List (List UInt8)} (h : Pushed lay ts s) :
    s.histLen = ((withoutRepeats none ts).rtake histMax).length ∧
    Rows s.mem lay.history ((withoutRepeats none ts).rtake histMax) ∧
    ∀ line t, LineAt lay s.mem line t → ∃ s', histPush lay line s = some s' := by
  have his := h.historyIs
  refine ⟨his.count, his.rows, fun line t ht => ?_⟩
  obtain ⟨s', hs', -⟩ := histPush_is his ht
  exact ⟨s', hs'⟩

/-- The history behind the buffer. -/
def smallLayout : EditLayout := ⟨0x1000, 0x800, Or.inr (by decide)⟩

/-- The line `a`, pushed twice, is one row. -/
theorem pushed_last_lines_repeated : ∃ s, Pushed smallLayout [[0x61], [0x61]] s ∧ s.histLen = 1 ∧
    Rows s.mem smallLayout.history [[0x61]] := by
  have hline : LineAt smallLayout (fun a => if a = 0x800 then 0x61 else 0) 0x800 [0x61] :=
    ⟨⟨by decide, by simp, by simp [IsCString]⟩, by decide, Or.inl (by decide)⟩
  have h0 : Pushed smallLayout [] ⟨fun a => if a = 0x800 then 0x61 else 0, 0, 0, -1, 0, []⟩ :=
    Pushed.empty rfl
  obtain ⟨s1, hs1, -, hoff⟩ := histPush_is h0.historyIs hline
  have h1 := h0.push hline hs1
  obtain ⟨s2, hs2, -⟩ := histPush_is h1.historyIs (hline.offHistory hoff)
  have h2 := h1.push (hline.offHistory hoff) hs2
  exact ⟨s2, h2, (pushed_last_lines h2).1, (pushed_last_lines h2).2.1⟩

end OctoOS
