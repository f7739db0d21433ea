import Mathlib.Algebra.Group.Nat.Defs
import Mathlib.Tactic.Common

set_option autoImplicit false

/-! # Byte memory with little-endian words

`word` and `setWord` are the 32-bit loads and stores of a little-endian machine, `half` and
`setHalf` the 16-bit ones, `fill`, `copy` and `write` the block operations. Two memories that agree on
a range give the same words in it, so an update is described by the range it stays in: `SameOff a n m m'`
says that `m'` is `m` except in the `n` bytes from `a` on. -/

/-- A statement about bytes can be decided on the 256 of them. -/
theorem forall_byte {P : UInt8 → Prop} (h : ∀ i : Fin 256, P (UInt8.ofFin i)) (c : UInt8) : P c := h c.toFin

/-- A byte at every address. -/
abbrev Mem := ℕ → UInt8

namespace Mem

variable {m m' m'' : Mem} {a b n k v : ℕ}

/-- The word at `a`. -/
def word (m : Mem) (a : ℕ) : ℕ :=
  (m a).toNat + 256 * (m (a + 1)).toNat + 65536 * (m (a + 2)).toNat + 16777216 * (m (a + 3)).toNat

/-- The low 32 bits of `v` stored at `a`. -/
def setWord (m : Mem) (a v : ℕ) : Mem :=
  fun i => if a ≤ i ∧ i < a + 4 then UInt8.ofNat (v / 256 ^ (i - a)) else m i

/-- The 16-bit word at `a`. -/
def half (m : Mem) (a : ℕ) : ℕ := (m a).toNat + 256 * (m (a + 1)).toNat

/-- The low 16 bits of `v` stored at `a`. -/
def setHalf (m : Mem) (a v : ℕ) : Mem :=
  fun i => if a ≤ i ∧ i < a + 2 then UInt8.ofNat (v / 256 ^ (i - a)) else m i

/-- `n` bytes from `a` on set to `c`. -/
def fill (m : Mem) (a : ℕ) (c : UInt8) (n : ℕ) : Mem :=
  fun i => if a ≤ i ∧ i < a + n then c else m i

/-- `n` bytes copied from `src` to `dst`, all of them read before one is written. -/
def copy (m : Mem) (dst src n : ℕ) : Mem :=
  fun i => if dst ≤ i ∧ i < dst + n then m (src + (i - dst)) else m i

/-- `data` stored from `a` on. -/
def write (m : Mem) (a : ℕ) (data : List UInt8) : Mem :=
  fun i => if a ≤ i ∧ i < a + data.length then data.getD (i - a) 0 else m i

/-- `m'` is `m` except in the `n` bytes from `a` on. -/
def SameOff (a n : ℕ) (m m' : Mem) : Prop := ∀ i, ¬ (a ≤ i ∧ i < a + n) → m' i = m i

theorem word_lt (m : Mem) (a : ℕ) : m.word a < 2 ^ 32 := by
  have h0 := (m a).toNat_lt
  have h1 := (m (a + 1)).toNat_lt
  have h2 := (m (a + 2)).toNat_lt
  have h3 := (m (a + 3)).toNat_lt
  unfold word
  omega

theorem word_congr (h : ∀ i, a ≤ i → i < a + 4 → m' i = m i) : m'.word a = m.word a := by
  unfold word
  rw [h a (by omega) (by omega), h (a + 1) (by omega) (by omega), h (a + 2) (by omega) (by omega),
    h (a + 3) (by omega) (by omega)]

theorem setWord_add (hk : k < 4) : m.setWord a v (a + k) = UInt8.ofNat (v / 256 ^ k) := by
  rw [setWord, if_pos (by omega), Nat.add_sub_cancel_left]

theorem word_setWord (m : Mem) (a : ℕ) (hv : v < 2 ^ 32) : (m.setWord a v).word a = v := by
  have h0 := setWord_add (m := m) (a := a) (v := v) (k := 0) (by omega)
  rw [Nat.add_zero] at h0
  unfold word
  rw [h0, setWord_add (by omega), setWord_add (by omega), setWord_add (by omega)]
  simp only [UInt8.toNat_ofNat']
  omega

theorem half_congr (h : ∀ i, a ≤ i → i < a + 2 → m' i = m i) : m'.half a = m.half a := by
  unfold half
  rw [h a (by omega) (by omega), h (a + 1) (by omega) (by omega)]

theorem half_setHalf (m : Mem) (a : ℕ) (hv : v < 2 ^ 16) : (m.setHalf a v).half a = v := by
  have h0 : m.setHalf a v a = UInt8.ofNat (v / 256 ^ (a - a)) := if_pos (by omega)
  have h1 : m.setHalf a v (a + 1) = UInt8.ofNat (v / 256 ^ (a + 1 - a)) := if_pos (by omega)
  rw [Nat.sub_self] at h0
  rw [Nat.add_sub_cancel_left] at h1
  unfold half
  rw [h0, h1]
  simp only [UInt8.toNat_ofNat']
  omega

theorem SameOff.refl (a n : ℕ) (m : Mem) : SameOff a n m m := fun _ _ => rfl

theorem SameOff.trans (h : SameOff a n m m') (h' : SameOff a n m' m'') : SameOff a n m m'' :=
  fun i hi => (h' i hi).trans (h i hi)

theorem SameOff.mono (h : SameOff b k m m') (hlo : a ≤ b) (hhi : b + k ≤ a + n) : SameOff a n m m' :=
  fun i hi => h i (by omega)

theorem SameOff.word (h : SameOff a n m m') (hb : b + 4 ≤ a ∨ a + n ≤ b) : m'.word b = m.word b :=
  word_congr (fun i h1 h2 => h i (by omega))

theorem sameOff_setWord (m : Mem) (a v : ℕ) : SameOff a 4 m (m.setWord a v) :=
  fun _ hi => if_neg hi

theorem sameOff_setHalf (m : Mem) (a v : ℕ) : SameOff a 2 m (m.setHalf a v) :=
  fun _ hi => if_neg hi

theorem sameOff_fill (m : Mem) (a : ℕ) (c : UInt8) (n : ℕ) : SameOff a n m (m.fill a c n) :=
  fun _ hi => if_neg hi

theorem sameOff_copy (m : Mem) (dst src n : ℕ) : SameOff dst n m (m.copy dst src n) :=
  fun _ hi => if_neg hi

theorem sameOff_write (m : Mem) (a : ℕ) (data : List UInt8) :
    SameOff a data.length m (m.write a data) :=
  fun _ hi => if_neg hi

theorem word_setWord_of_ne (m : Mem) (v : ℕ) (h : b + 4 ≤ a ∨ a + 4 ≤ b) :
    (m.setWord a v).word b = m.word b := (sameOff_setWord m a v).word h

theorem half_setHalf_of_ne (m : Mem) (v : ℕ) (h : b + 2 ≤ a ∨ a + 2 ≤ b) :
    (m.setHalf a v).half b = m.half b :=
  half_congr (fun i h1 h2 => sameOff_setHalf m a v i (by omega))

theorem word_fill_zero (m : Mem) (hlo : a ≤ b) (hhi : b + 4 ≤ a + n) : (m.fill a 0 n).word b = 0 := by
  have h : ∀ i, b ≤ i → i < b + 4 → m.fill a 0 n i = 0 := fun i h1 h2 => if_pos (by omega)
  unfold word
  rw [h b (by omega) (by omega), h (b + 1) (by omega) (by omega), h (b + 2) (by omega) (by omega),
    h (b + 3) (by omega) (by omega)]
  rfl

theorem word_copy (m : Mem) {dst src : ℕ} (hk : k + 4 ≤ n) :
    (m.copy dst src n).word (dst + k) = m.word (src + k) := by
  have h : ∀ j < 4, m.copy dst src n (dst + k + j) = m (src + k + j) := fun j hj => by
    rw [copy, if_pos (by omega)]
    congr 1
    omega
  have h0 := h 0 (by omega)
  rw [Nat.add_zero, Nat.add_zero] at h0
  unfold word
  rw [h0, h 1 (by omega), h 2 (by omega), h 3 (by omega)]

theorem half_copy (m : Mem) {dst src : ℕ} (hk : k + 2 ≤ n) :
    (m.copy dst src n).half (dst + k) = m.half (src + k) := by
  have h : ∀ j < 2, m.copy dst src n (dst + k + j) = m (src + k + j) := by
    intro j hj
    rw [copy, if_pos (by omega)]
    congr 1
    omega
  have h0 := h 0 (by omega)
  rw [Nat.add_zero, Nat.add_zero] at h0
  unfold half
  rw [h0, h 1 (by omega)]

/-- The words `ws` lie at `a`, one behind the other. -/
def Words (m : Mem) : ℕ → List ℕ → Prop
  | _, [] => True
  | a, w :: ws => m.word a = w ∧ m.Words (a + 4) ws

theorem Words.congr {ws : List ℕ} (h : m.Words a ws)
    (hsame : ∀ i, a ≤ i → i < a + 4 * ws.length → m' i = m i) : m'.Words a ws := by
  induction ws generalizing a with
  | nil => trivial
  | cons w ws ih =>
    rw [List.length_cons] at hsame
    refine ⟨?_, ih h.2 (fun i h1 h2 => hsame i (by omega) (by omega))⟩
    rw [word_congr (fun i h1 h2 => hsame i h1 (by omega))]
    exact h.1

/-- One more word below. -/
theorem Words.setWord {ws : List ℕ} (h : m.Words (a + 4) ws) (hv : v < 2 ^ 32) :
    (m.setWord a v).Words a (v :: ws) :=
  ⟨word_setWord m a hv, h.congr (fun i h1 _ => sameOff_setWord m a v i (by omega))⟩

end Mem
