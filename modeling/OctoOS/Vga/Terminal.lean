import OctoOS.Vga

set_option autoImplicit false

/-! # The screen is a window of an unbounded terminal

`Terminal` has rows without end and never scrolls. `ShowsFrom attr top s t` says that the screen
shows 25 rows of `t` from row `top` on: the `switch` and the wrap at column 80 keep `top`, and
`scroll` moves it on by one. After each byte the window ends at the row of the cursor, or begins at
the first row while there are fewer than 25 rows above it. -/

namespace OctoOS

/-! ## The terminal -/

/-- A cursor and the characters of all rows. -/
structure Terminal where
  row : ℕ
  col : ℕ
  char : ℕ → ℕ → UInt8

namespace Terminal

/-- All rows are blank. -/
def cleared : Terminal := ⟨0, 0, fun _ _ => 0x20⟩

/-- Replace the character at row `r` and column `c`. -/
def set (t : Terminal) (r c : ℕ) (x : UInt8) : Terminal :=
  { t with char := fun r' c' => if r' = r ∧ c' = c then x else t.char r' c' }

/-- The meaning of one byte, without the wrap. -/
def type (t : Terminal) (x : UInt8) : Terminal :=
  if x = 0x0A then { t with row := t.row + 1, col := 0 }
  else if x = 0x0D then { t with col := 0 }
  else if x = 0x08 then
    if 0 < t.col then { t.set t.row (t.col - 1) 0x20 with col := t.col - 1 } else t
  else if x = 0x09 then { t with col := (t.col / 8 + 1) * 8 }
  else { t.set t.row t.col x with col := t.col + 1 }

/-- Behind column 79 the next row begins. -/
def wrap (t : Terminal) : Terminal :=
  if vgaCols ≤ t.col then { t with row := t.row + 1, col := 0 } else t

/-- The terminal interprets one byte. -/
def step (t : Terminal) (x : UInt8) : Terminal := (t.type x).wrap

/-- What the terminal shows after some bytes. -/
def run (t : Terminal) (bytes : List UInt8) : Terminal := bytes.foldl step t

/-- The first of the last 25 rows, or the first row while there are fewer. -/
def top (t : Terminal) : ℕ := t.row + 1 - vgaRows

end Terminal

/-! ## Cells -/

section Cells

variable {m : Mem} {i j w : ℕ} {s : Vga}

theorem cellWord_lt (attr c : UInt8) : cellWord attr c < 2 ^ 16 := by
  have ha := attr.toNat_lt
  have hc := c.toNat_lt
  unfold cellWord
  omega

theorem cell_lt {r c : ℕ} (hr : r < vgaRows) (hc : c < vgaCols) :
    r * vgaCols + c < vgaRows * vgaCols := by
  unfold vgaRows vgaCols at *
  omega

/-- `m'` differs from `m` in the cells of the screen only, which are now as `f` says. -/
structure Draws (m m' : Mem) (f : ℕ → ℕ) : Prop where
  off : Mem.SameOff vmem (2 * (vgaRows * vgaCols)) m m'
  cells : ∀ j < vgaRows * vgaCols, cellAt m' j = f j

theorem Draws.trans {m' m'' : Mem} {f g : ℕ → ℕ} (h : Draws m m' f) (h' : Draws m' m'' g) :
    Draws m m'' g := ⟨h.off.trans h'.off, h'.cells⟩

theorem Draws.congr {m' : Mem} {f g : ℕ → ℕ} (h : Draws m m' f)
    (hfg : ∀ j < vgaRows * vgaCols, f j = g j) : Draws m m' g :=
  ⟨h.off, fun j hj => (h.cells j hj).trans (hfg j hj)⟩

theorem vmemStore_draws (hi : i < vgaRows * vgaCols) (hw : w < 2 ^ 16) :
    ∃ m', vmemStore i w s = some { s with mem := m' } ∧
      Draws s.mem m' (fun j => if j = i then w else cellAt s.mem j) := by
  have hin : 0 ≤ (i : Int) ∧ (i : Int) < vgaRows * vgaCols := by
    unfold vgaRows vgaCols at *
    omega
  rw [vmemStore, if_pos hin, Int.toNat_natCast]
  refine ⟨_, rfl, ?_, ?_⟩
  · exact (Mem.sameOff_setHalf _ _ _).mono (by omega) (by omega)
  · intro j _
    unfold cellAt
    split_ifs with hj
    · rw [hj, Mem.half_setHalf _ _ hw]
    · exact Mem.half_setHalf_of_ne _ _ (by omega)

/-- The rounds of a blanking loop, by induction on their number. -/
theorem blankCells_draws {n : ℕ} (hin : i + n ≤ vgaRows * vgaCols) :
    ∃ m', blankCells n i s = some { s with mem := m' } ∧
      Draws s.mem m'
        (fun j => if i ≤ j ∧ j < i + n then cellWord s.attr 0x20 else cellAt s.mem j) := by
  induction n generalizing i s with
  | zero =>
    refine ⟨s.mem, rfl, Mem.SameOff.refl _ _ _, ?_⟩
    intro j _
    rw [if_neg (by omega)]
  | succ n ih =>
    obtain ⟨m1, hstore, h1⟩ := @vmemStore_draws i _ s (by omega) (cellWord_lt s.attr 0x20)
    obtain ⟨m2, hloop, h2⟩ := @ih (i + 1) { s with mem := m1 } (by omega)
    refine ⟨m2, ?_, (h1.trans h2).congr ?_⟩
    · rw [blankCells, hstore]
      exact hloop
    · intro j hj
      simp only
      rw [h1.cells j hj]
      by_cases hji : j = i
      · rw [if_neg (by omega), if_pos hji, if_pos (by omega)]
      · by_cases hloop : i + 1 ≤ j ∧ j < i + 1 + n
        · rw [if_pos hloop, if_pos (by omega)]
        · rw [if_neg hloop, if_neg hji, if_neg (by omega)]

/-- The block move of `scroll`. -/
theorem vmemMove_draws :
    ∃ m', vmemMove 0 vgaCols ((vgaRows - 1) * vgaCols) s = some { s with mem := m' } ∧
      Draws s.mem m' (fun j => if j < (vgaRows - 1) * vgaCols then cellAt s.mem (vgaCols + j)
        else cellAt s.mem j) := by
  rw [vmemMove, if_pos (by decide), memmove_eq]
  refine ⟨_, rfl, ?_, ?_⟩
  · exact (Mem.sameOff_copy _ _ _ _).mono (by omega) (by decide)
  · intro j hj
    unfold cellAt
    split_ifs with h
    · rw [Nat.mul_zero, Nat.add_zero, Mem.half_copy _ (by omega), Nat.mul_add, Nat.add_assoc]
    · apply Mem.half_congr
      intro a h1 h2
      exact Mem.sameOff_copy _ _ _ _ a (by unfold vgaRows vgaCols at *; omega)

end Cells

/-! ## The window -/

/-- The screen shows rows `top` to `top + 24` of the terminal, whose rows below are blank. -/
structure ShowsFrom (attr : UInt8) (top : ℕ) (s : Vga) (t : Terminal) : Prop where
  colour : s.attr = attr
  row : s.curRow + top = t.row
  col : s.curCol = t.col
  above : top ≤ t.row
  cells : ∀ r < vgaRows, ∀ c < vgaCols,
    cellAt s.mem (r * vgaCols + c) = cellWord attr (t.char (top + r) c)
  below : ∀ r c, top + vgaRows ≤ r → t.char r c = 0x20

section Window

variable {attr : UInt8} {top : ℕ} {s : Vga} {t : Terminal}

section

variable (h : ShowsFrom attr top s t)

include h

/-- A store to a cell of the cursor's row. -/
theorem ShowsFrom.store (hrow : t.row < top + vgaRows) {c : ℕ} (hc : c < vgaCols) (x : UInt8) :
    ∃ m', vmemStore (s.curRow * vgaCols + c) (cellWord s.attr x) s = some { s with mem := m' } ∧
      Mem.SameOff vmem (2 * (vgaRows * vgaCols)) s.mem m' ∧
      ShowsFrom attr top { s with mem := m' } (t.set t.row c x) := by
  have habove := h.above
  have hcur : s.curRow = ((t.row - top : ℕ) : Int) := by
    have := h.row
    omega
  have hidx : s.curRow * vgaCols + c = (((t.row - top) * vgaCols + c : ℕ) : Int) := by
    rw [hcur]
    push_cast
    rfl
  have hin : (t.row - top) * vgaCols + c < vgaRows * vgaCols := cell_lt (by omega) hc
  obtain ⟨m', hstore, hdraw⟩ := @vmemStore_draws _ _ s hin (cellWord_lt s.attr x)
  rw [hidx, hstore]
  refine ⟨m', rfl, hdraw.off, h.colour, h.row, h.col, h.above, ?_, ?_⟩
  · intro r hr c' hc'
    have hcell := cell_lt hr hc'
    -- the two numbers of a cell, its index and its place, determine each other
    have hsame : r * vgaCols + c' = (t.row - top) * vgaCols + c ↔ top + r = t.row ∧ c' = c := by
      unfold vgaCols at *
      omega
    simp only [hdraw.cells _ hcell, hsame, Terminal.set]
    split_ifs with hit
    · rw [h.colour]
    · exact h.cells r hr c' hc'
  · intro r c' hr
    have hmiss : ¬ (r = t.row ∧ c' = c) := by omega
    simp only [Terminal.set, if_neg hmiss]
    exact h.below r c' hr

/-- The `switch` of `vga_putc` does what the byte means. -/
theorem putcSwitch_shows (hrow : t.row < top + vgaRows) (hcol : t.col < vgaCols) (x : UInt8) :
    ∃ s', putcSwitch x s = some s' ∧ Mem.SameOff vmem (2 * (vgaRows * vgaCols)) s.mem s'.mem ∧
      ShowsFrom attr top s' (t.type x) := by
  have hkeep : Mem.SameOff vmem (2 * (vgaRows * vgaCols)) s.mem s.mem := Mem.SameOff.refl _ _ _
  have hr := h.row
  have hc := h.col
  unfold putcSwitch Terminal.type
  by_cases hn : x = 0x0A
  · simp only [if_pos hn]
    refine ⟨_, rfl, hkeep, h.colour, ?_, rfl, Nat.le_succ_of_le h.above, h.cells, h.below⟩
    simp only
    omega
  simp only [if_neg hn]
  by_cases hret : x = 0x0D
  · simp only [if_pos hret]
    exact ⟨_, rfl, hkeep, h.colour, hr, rfl, h.above, h.cells, h.below⟩
  simp only [if_neg hret]
  by_cases hback : x = 0x08
  · simp only [if_pos hback]
    by_cases hpos : 0 < t.col
    · have hcast : s.curCol - 1 = ((t.col - 1 : ℕ) : Int) := by omega
      rw [if_pos (by omega), if_pos hpos, hcast]
      -- first the cursor moves, then the cell under it is erased
      have hmoved : ShowsFrom attr top { s with curCol := ((t.col - 1 : ℕ) : Int) }
          { t with col := t.col - 1 } := ⟨h.colour, hr, rfl, h.above, h.cells, h.below⟩
      obtain ⟨m', hstore, hoff, h'⟩ := hmoved.store hrow (c := t.col - 1) (by omega) 0x20
      exact ⟨_, hstore, hoff, h'⟩
    · rw [if_neg (by omega), if_neg hpos]
      exact ⟨s, rfl, hkeep, h⟩
  simp only [if_neg hback]
  by_cases htab : x = 0x09
  · simp only [if_pos htab]
    refine ⟨_, rfl, hkeep, h.colour, hr, ?_, h.above, h.cells, h.below⟩
    simp only
    omega
  · simp only [if_neg htab]
    obtain ⟨m', hstore, hoff, h'⟩ := h.store hrow hcol x
    rw [hc, hstore]
    refine ⟨_, rfl, hoff, h'.colour, h'.row, ?_, h'.above, h'.cells, h'.below⟩
    simp only [hc]
    rfl

theorem wrapLine_shows : ShowsFrom attr top (wrapLine s) t.wrap := by
  have hr := h.row
  have hc := h.col
  unfold wrapLine Terminal.wrap
  by_cases hend : vgaCols ≤ t.col
  · rw [if_pos (by omega), if_pos hend]
    refine ⟨h.colour, ?_, rfl, Nat.le_succ_of_le h.above, h.cells, h.below⟩
    simp only
    omega
  · rw [if_neg (by omega), if_neg hend]
    exact h

/-- With the cursor one row below the screen, `scroll` moves the window down by one. -/
theorem scroll_shows (hrow : t.row = top + vgaRows) :
    ∃ s', scroll s = some s' ∧ Mem.SameOff vmem (2 * (vgaRows * vgaCols)) s.mem s'.mem ∧
      ShowsFrom attr (top + 1) s' t := by
  obtain ⟨m1, hmove, h1⟩ := @vmemMove_draws s
  obtain ⟨m2, hloop, h2⟩ := @blankCells_draws ((vgaRows - 1) * vgaCols) { s with mem := m1 } vgaCols
    (by decide)
  have hcast : (((vgaRows - 1) * vgaCols : ℕ) : Int) = (vgaRows - 1) * vgaCols := rfl
  rw [hcast] at hloop
  refine ⟨{ s with mem := m2, curRow := vgaRows - 1 }, ?_, (h1.trans h2).off, ?_⟩
  · rw [scroll, hmove, Option.bind_some, hloop]
    rfl
  refine ⟨h.colour, ?_, h.col, ?_, ?_, ?_⟩
  · simp only
    rw [hrow]
    unfold vgaRows
    omega
  · unfold vgaRows at hrow
    omega
  · intro r hr c hc
    have hcell := cell_lt hr hc
    have hmoved := h1.cells _ hcell
    simp only
    rw [h2.cells _ hcell]
    by_cases hlast : r = vgaRows - 1
    · -- the row that comes into sight was blank
      have hblank : t.char (top + 1 + r) c = 0x20 := by
        apply h.below
        unfold vgaRows at *
        omega
      rw [if_pos (by unfold vgaRows vgaCols at *; omega), hblank, ← h.colour]
    · have hup : r * vgaCols + c < (vgaRows - 1) * vgaCols := by
        unfold vgaRows vgaCols at *
        omega
      have hidx : vgaCols + (r * vgaCols + c) = (r + 1) * vgaCols + c := by
        rw [Nat.succ_mul]
        omega
      rw [if_neg (by omega), hmoved, if_pos hup, hidx, h.cells (r + 1) (by omega) c hc,
        Nat.add_right_comm, Nat.add_assoc]
  · intro r c hr
    exact h.below r c (by omega)

/-- `scroll` is called when the cursor has left the screen, which is by one row. -/
theorem scrollIfBelow_shows (hrow : t.row ≤ top + vgaRows) :
    ∃ s', scrollIfBelow s = some s' ∧ Mem.SameOff vmem (2 * (vgaRows * vgaCols)) s.mem s'.mem ∧
      ShowsFrom attr (if t.row = top + vgaRows then top + 1 else top) s' t := by
  have hr := h.row
  rw [scrollIfBelow]
  by_cases hend : t.row = top + vgaRows
  · rw [if_pos (by omega), if_pos hend]
    exact scroll_shows h hend
  · rw [if_neg (by omega), if_neg hend]
    exact ⟨s, rfl, Mem.SameOff.refl _ _ _, h⟩

end

end Window

/-! ## All bytes -/

section Run

variable {attr : UInt8} {s : Vga} {t : Terminal}

/-- The row of the cursor is among the last 25. -/
theorem Terminal.row_lt_top (t : Terminal) : t.row < t.top + vgaRows := by
  unfold Terminal.top vgaRows
  omega

/-- A byte takes the terminal to the next row at most, and to a column of it. -/
theorem Terminal.step_bounds (t : Terminal) (x : UInt8) (hcol : t.col < vgaCols) :
    t.row ≤ (t.step x).row ∧ (t.step x).row ≤ t.row + 1 ∧ (t.step x).col < vgaCols := by
  have hcols : 0 < vgaCols := by decide
  unfold Terminal.step Terminal.wrap Terminal.type
  split_ifs <;> simp_all [Terminal.set]

/-- The screen shows the last rows of the terminal, and the cursor is in one of them. -/
structure Shows (attr : UInt8) (s : Vga) (t : Terminal) : Prop where
  window : ShowsFrom attr t.top s t
  col : t.col < vgaCols

theorem vgaPutc_shows (h : Shows attr s t) (x : UInt8) :
    ∃ s', vgaPutc x s = some s' ∧ Mem.SameOff vmem (2 * (vgaRows * vgaCols)) s.mem s'.mem ∧
      Shows attr s' (t.step x) := by
  obtain ⟨hlo, hhi, hcol⟩ := t.step_bounds x h.col
  obtain ⟨s1, hs1, hoff1, h1⟩ := putcSwitch_shows h.window t.row_lt_top h.col x
  obtain ⟨s2, hs2, hoff2, h2⟩ := @scrollIfBelow_shows _ _ _ (t.step x) (wrapLine_shows h1)
    (Nat.le_trans hhi t.row_lt_top)
  have hnext : (if (t.step x).row = t.top + vgaRows then t.top + 1 else t.top) = (t.step x).top := by
    unfold Terminal.top vgaRows at *
    split_ifs <;> omega
  rw [hnext] at h2
  have hwrap : (wrapLine s1).mem = s1.mem := by
    unfold wrapLine
    split_ifs <;> rfl
  rw [hwrap] at hoff2
  refine ⟨moveCursor s2, ?_, hoff1.trans hoff2, ⟨h2.colour, h2.row, h2.col, h2.above, h2.cells,
    h2.below⟩, hcol⟩
  rw [vgaPutc, hs1, Option.bind_some, hs2]
  rfl

theorem vgaPutAll_shows (h : Shows attr s t) (bytes : List UInt8) :
    ∃ s', vgaPutAll bytes s = some s' ∧ Mem.SameOff vmem (2 * (vgaRows * vgaCols)) s.mem s'.mem ∧
      Shows attr s' (t.run bytes) := by
  induction bytes generalizing s t with
  | nil => exact ⟨s, rfl, Mem.SameOff.refl _ _ _, h⟩
  | cons x bytes ih =>
    obtain ⟨s1, hs1, hoff1, h1⟩ := vgaPutc_shows h x
    obtain ⟨s2, hs2, hoff2, h2⟩ := ih h1
    refine ⟨s2, ?_, hoff1.trans hoff2, h2⟩
    rw [vgaPutAll, hs1]
    exact hs2

theorem vgaClear_shows (s : Vga) :
    ∃ s', vgaClear s = some s' ∧ Mem.SameOff vmem (2 * (vgaRows * vgaCols)) s.mem s'.mem ∧
      Shows s.attr s' Terminal.cleared := by
  obtain ⟨m', hloop, hdraw⟩ := @blankCells_draws 0 s (vgaCols * vgaRows) (by decide)
  refine ⟨moveCursor { s with mem := m', curRow := 0, curCol := 0 }, ?_, hdraw.off,
    ⟨rfl, rfl, rfl, Nat.le_refl _, ?_, fun _ _ _ => rfl⟩, by decide⟩
  · have hloop' : blankCells (vgaCols * vgaRows) 0 s = _ := hloop
    rw [vgaClear, hloop']
    rfl
  · intro r hr c hc
    have hcell := cell_lt hr hc
    refine (hdraw.cells _ hcell).trans ?_
    rw [if_pos ⟨Nat.zero_le _, by rwa [Nat.zero_add, Nat.mul_comm vgaCols]⟩]
    rfl

/-- **The screen is the bottom window of an unbounded terminal.** After `vga_clear` every sequence of
    bytes is written inside the 2000 cells, the cursor stays on the screen, and the screen shows the
    last 25 rows of a terminal that never scrolls. -/
theorem vgaPutAll_terminal (s : Vga) (bytes : List UInt8) :
    ∃ s0 s', vgaClear s = some s0 ∧ vgaPutAll bytes s0 = some s' ∧
      (0 ≤ s'.curRow ∧ s'.curRow < vgaRows) ∧ (0 ≤ s'.curCol ∧ s'.curCol < vgaCols) ∧
      (∀ r < vgaRows, ∀ c < vgaCols, cellAt s'.mem (r * vgaCols + c)
        = cellWord s.attr ((Terminal.cleared.run bytes).char
            ((Terminal.cleared.run bytes).top + r) c)) ∧
      ∀ a, ¬ (vmem ≤ a ∧ a < vmem + 2 * (vgaRows * vgaCols)) → s'.mem a = s.mem a := by
  obtain ⟨s0, hs0, hoff0, h0⟩ := vgaClear_shows s
  obtain ⟨s', hs', hoff, h⟩ := vgaPutAll_shows h0 bytes
  have hrow := h.window.row
  have habove := h.window.above
  have hcol := h.window.col
  have hlt := h.col
  refine ⟨s0, s', hs0, hs', ?_, ⟨by omega, by omega⟩, h.window.cells, hoff0.trans hoff⟩
  have htop := (Terminal.cleared.run bytes).row_lt_top
  omega

end Run

end OctoOS
