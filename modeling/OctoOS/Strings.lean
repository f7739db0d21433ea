import OctoOS.Lib.Memory
import Mathlib.Logic.Function.Basic

set_option autoImplicit false

/-! # Strings and block moves (`kernel/string.c`)

The loops of `string.c` over a byte memory. `memmove` picks its direction by the order of the two
pointers; whatever the overlap, its result is the block copy of `Lib/Memory.lean`, which reads the
bytes as they were before the call. Addresses are natural numbers; `memmove32` is `memmove` with the
32-bit pointers of the machine, which wrap, and agrees with it on ranges that do not. `IsCString m a
s` says that the bytes of `s` and a 0 behind them stand at `a`. -/

namespace OctoOS

/-- `while (n--) *d++ = *s++`: the loop of `memcpy`, and of `memmove` towards lower addresses. -/
def copyUp (d s : ℕ) : ℕ → Mem → Mem
  | 0, m => m
  | n + 1, m => copyUp (d + 1) (s + 1) n (Function.update m d (m s))

/-- `while (n--) *--d = *--s`, from the ends of the ranges: `memmove` towards higher addresses. -/
def copyDown (d s : ℕ) : ℕ → Mem → Mem
  | 0, m => m
  | n + 1, m => copyDown d s n (Function.update m (d + n) (m (s + n)))

/-- `memcpy`. -/
def memcpy (dst src n : ℕ) (m : Mem) : Mem := copyUp dst src n m

/-- `memmove`. -/
def memmove (dst src n : ℕ) (m : Mem) : Mem :=
  if dst < src then copyUp dst src n m else copyDown dst src n m

/-- `while (n--) *d++ = *s++` on 32-bit pointers. -/
def copyUp32 (d s : UInt32) : ℕ → Mem → Mem
  | 0, m => m
  | n + 1, m => copyUp32 (d + 1) (s + 1) n (Function.update m d.toNat (m s.toNat))

/-- `while (n--) *--d = *--s` on 32-bit pointers. -/
def copyDown32 (d s : UInt32) : ℕ → Mem → Mem
  | 0, m => m
  | n + 1, m => copyDown32 (d - 1) (s - 1) n (Function.update m (d - 1).toNat (m (s - 1).toNat))

/-- `memmove` on 32-bit pointers; `d += n` and `s += n` may wrap to 0. -/
def memmove32 (dst src n : UInt32) (m : Mem) : Mem :=
  if dst < src then copyUp32 dst src n.toNat m else copyDown32 (dst + n) (src + n) n.toNat m

/-- More rounds than a loop over distinct 32-bit addresses can make. -/
def stringLoopBound : ℕ := 2 ^ 32

/-- The loop of `strlen`. -/
def strlenCount (m : Mem) : ℕ → ℕ → ℕ → Option ℕ
  | 0, _, _ => none
  | fuel + 1, s, n => if m s = 0 then some n else strlenCount m fuel (s + 1) (n + 1)

/-- `strlen`; `none` if there is no end. -/
def strlen (m : Mem) (s : ℕ) : Option ℕ := strlenCount m stringLoopBound s 0

/-- The loop of `strcmp`. -/
def strcmpLoop (m : Mem) : ℕ → ℕ → ℕ → Option Int
  | 0, _, _ => none
  | fuel + 1, a, b =>
    if m a ≠ 0 ∧ m a = m b then strcmpLoop m fuel (a + 1) (b + 1)
    else some ((m a).toNat - (m b).toNat)

/-- `strcmp`; `none` if neither string ends. -/
def strcmp (m : Mem) (a b : ℕ) : Option Int := strcmpLoop m stringLoopBound a b

/-- The string `s` stands at `a`, with the 0 that ends it. -/
def IsCString (m : Mem) : ℕ → List UInt8 → Prop
  | a, [] => m a = 0
  | a, c :: s => c ≠ 0 ∧ m a = c ∧ IsCString m (a + 1) s

instance IsCString.decidable (m : Mem) : (a : ℕ) → (s : List UInt8) → Decidable (IsCString m a s)
  | a, [] => inferInstanceAs (Decidable (m a = 0))
  | a, c :: s =>
    have := IsCString.decidable m (a + 1) s
    inferInstanceAs (Decidable (c ≠ 0 ∧ m a = c ∧ IsCString m (a + 1) s))

section Moves

variable {m : Mem} {d s n : ℕ}

/-- Upwards nothing is read after it was overwritten if the target is lower or behind the source. -/
theorem copyUp_eq (h : d ≤ s ∨ s + n ≤ d) : copyUp d s n m = m.copy d s n := by
  induction n generalizing d s m with
  | zero =>
    funext i
    rw [copyUp, Mem.copy, if_neg (by omega)]
  | succ n ih =>
    rw [copyUp, ih (by omega)]
    funext i
    simp only [Mem.copy]
    by_cases hi : i = d
    · rw [if_neg (by omega), if_pos (by omega), hi, Function.update_self, Nat.sub_self, Nat.add_zero]
    · by_cases hin : d + 1 ≤ i ∧ i < d + 1 + n
      · rw [if_pos hin, if_pos (by omega), Function.update_of_ne (by omega)]
        congr 1
        omega
      · rw [if_neg hin, if_neg (by omega), Function.update_of_ne hi]

/-- Downwards the target has to be higher. -/
theorem copyDown_eq (h : s ≤ d) : copyDown d s n m = m.copy d s n := by
  induction n generalizing m with
  | zero =>
    funext i
    rw [copyDown, Mem.copy, if_neg (by omega)]
  | succ n ih =>
    rw [copyDown, ih]
    funext i
    simp only [Mem.copy]
    by_cases hi : i = d + n
    · rw [if_neg (by omega), if_pos (by omega), hi, Function.update_self, Nat.add_sub_cancel_left]
    · by_cases hin : d ≤ i ∧ i < d + n
      · rw [if_pos hin, if_pos (by omega), Function.update_of_ne (by omega)]
      · rw [if_neg hin, if_neg (by omega), Function.update_of_ne hi]

/-- `memmove` moves the bytes as they were, whatever the overlap. -/
theorem memmove_eq (d s n : ℕ) (m : Mem) : memmove d s n m = m.copy d s n := by
  rw [memmove]
  split_ifs with h
  · exact copyUp_eq (Or.inl (Nat.le_of_lt h))
  · exact copyDown_eq (Nat.le_of_not_lt h)

theorem memcpy_eq (h : s + n ≤ d ∨ d + n ≤ s) : memcpy d s n m = m.copy d s n :=
  copyUp_eq (by omega)

end Moves

section Pointers

variable {d s n p : UInt32} {k : ℕ} {m : Mem}

theorem pointer_succ (h : p.toNat + 1 < 2 ^ 32) : (p + 1).toNat = p.toNat + 1 := by
  rw [UInt32.toNat_add]
  exact Nat.mod_eq_of_lt h

theorem pointer_pred (p : UInt32) (k : ℕ) : p + UInt32.ofNat (k + 1) - 1 = p + UInt32.ofNat k := by
  rw [UInt32.ofNat_add, ← UInt32.add_assoc]
  exact UInt32.add_sub_cancel ..

theorem pointer_add (h : p.toNat + k < 2 ^ 32) : (p + UInt32.ofNat k).toNat = p.toNat + k := by
  rw [UInt32.toNat_add, UInt32.toNat_ofNat']
  omega

/-- The pointers are used while bytes are left only, so they may end up behind the last address. -/
theorem copyUp32_eq (hd : d.toNat + k ≤ 2 ^ 32) (hs : s.toNat + k ≤ 2 ^ 32) :
    copyUp32 d s k m = copyUp d.toNat s.toNat k m := by
  induction k generalizing d s m with
  | zero => rfl
  | succ k ih =>
    rw [copyUp32, copyUp]
    cases k with
    | zero => rfl
    | succ k =>
      have hd' : (d + 1).toNat = d.toNat + 1 := pointer_succ (by omega)
      have hs' : (s + 1).toNat = s.toNat + 1 := pointer_succ (by omega)
      rw [ih (by omega) (by omega), hd', hs']

theorem copyDown32_eq (hd : d.toNat + k ≤ 2 ^ 32) (hs : s.toNat + k ≤ 2 ^ 32) :
    copyDown32 (d + UInt32.ofNat k) (s + UInt32.ofNat k) k m = copyDown d.toNat s.toNat k m := by
  induction k generalizing m with
  | zero => rfl
  | succ k ih =>
    rw [copyDown32, copyDown, pointer_pred, pointer_pred, pointer_add (by omega),
      pointer_add (by omega)]
    exact ih (by omega) (by omega)

/-- On ranges that do not wrap the pointers of the machine make no difference. -/
theorem memmove32_eq (hd : d.toNat + n.toNat ≤ 2 ^ 32) (hs : s.toNat + n.toNat ≤ 2 ^ 32) :
    memmove32 d s n m = memmove d.toNat s.toNat n.toNat m := by
  rw [memmove32, memmove]
  by_cases h : d < s
  · rw [if_pos h, if_pos (UInt32.lt_iff_toNat_lt.1 h)]
    exact copyUp32_eq hd hs
  · rw [if_neg h, if_neg (fun hlt => h (UInt32.lt_iff_toNat_lt.2 hlt))]
    have hdown := copyDown32_eq (m := m) hd hs
    rwa [UInt32.ofNat_toNat] at hdown

/-- **`memmove` moves the bytes as they were before the call, for every overlap, and changes no
    other byte.** -/
theorem memmove32_moves (m : Mem) (dst src n : UInt32) (hdst : dst.toNat + n.toNat ≤ 2 ^ 32)
    (hsrc : src.toNat + n.toNat ≤ 2 ^ 32) :
    (∀ i < n.toNat, memmove32 dst src n m (dst.toNat + i) = m (src.toNat + i)) ∧
    ∀ a, (∀ i < n.toNat, a ≠ dst.toNat + i) → memmove32 dst src n m a = m a := by
  rw [memmove32_eq hdst hsrc, memmove_eq]
  constructor
  · intro i hi
    rw [Mem.copy, if_pos (by omega), Nat.add_sub_cancel_left]
  · intro a ha
    rw [Mem.copy, if_neg]
    rintro ⟨hlo, hhi⟩
    exact ha (a - dst.toNat) (by omega) (by omega)

/-- Three bytes move up by one, to the end of memory. -/
theorem memmove32_moves_overlap :
    (∀ i < 3, memmove32 0xFFFFFFFD 0xFFFFFFFC 3 UInt8.ofNat (0xFFFFFFFD + i)
      = UInt8.ofNat (0xFFFFFFFC + i)) ∧
    ∀ a, (∀ i < 3, a ≠ 0xFFFFFFFD + i) →
      memmove32 0xFFFFFFFD 0xFFFFFFFC 3 UInt8.ofNat a = UInt8.ofNat a :=
  memmove32_moves UInt8.ofNat 0xFFFFFFFD 0xFFFFFFFC 3 (by decide) (by decide)

end Pointers

section Strings

variable {m m' : Mem} {a b : ℕ} {s t : List UInt8}

/-- The `n` bytes from `a` on. -/
def readBytes (m : Mem) : ℕ → ℕ → List UInt8
  | _, 0 => []
  | a, n + 1 => m a :: readBytes m (a + 1) n

theorem length_readBytes (m : Mem) (a n : ℕ) : (readBytes m a n).length = n := by
  induction n generalizing a with
  | zero => rfl
  | succ n ih => rw [readBytes, List.length_cons, ih]

theorem mem_readBytes {n : ℕ} {c : UInt8} (h : c ∈ readBytes m a n) : ∃ i < n, m (a + i) = c := by
  induction n generalizing a with
  | zero => exact absurd h (by simp [readBytes])
  | succ n ih =>
    rcases List.mem_cons.1 h with rfl | h'
    · exact ⟨0, Nat.succ_pos n, rfl⟩
    · obtain ⟨i, hi, hc⟩ := ih h'
      exact ⟨i + 1, Nat.succ_lt_succ hi, by rw [← hc, Nat.add_right_comm, Nat.add_assoc]⟩

/-- The bytes up to a 0 are a string. -/
theorem isCString_readBytes {n : ℕ} (hne : ∀ i < n, m (a + i) ≠ 0) (hend : m (a + n) = 0) :
    IsCString m a (readBytes m a n) := by
  induction n generalizing a with
  | zero => exact hend
  | succ n ih =>
    have hshift : ∀ i, a + 1 + i = a + (i + 1) := fun i => by omega
    refine ⟨hne 0 (Nat.succ_pos n), rfl, ih (fun i hi => ?_) ?_⟩
    · rw [hshift]
      exact hne (i + 1) (Nat.succ_lt_succ hi)
    · rwa [hshift]

/-- Memories that agree on a string hold the same string there. -/
theorem IsCString.congr (h : IsCString m a s) (hm : ∀ i ≤ s.length, m' (b + i) = m (a + i)) :
    IsCString m' b s := by
  induction s generalizing a b with
  | nil => exact (hm 0 (Nat.le_refl _)).trans h
  | cons c s ih =>
    obtain ⟨hc, ha, hs⟩ := h
    refine ⟨hc, (hm 0 (Nat.zero_le _)).trans ha, ih hs (fun i hi => ?_)⟩
    have hi := hm (i + 1) (Nat.succ_le_succ hi)
    rwa [Nat.add_comm i 1, ← Nat.add_assoc, ← Nat.add_assoc] at hi

theorem strlenCount_eq {fuel n : ℕ} (h : IsCString m a s) (hfuel : s.length < fuel) :
    strlenCount m fuel a n = some (n + s.length) := by
  induction s generalizing a fuel n with
  | nil =>
    obtain ⟨fuel, rfl⟩ : ∃ k, fuel = k + 1 := ⟨fuel - 1, by omega⟩
    have ha : m a = 0 := h
    rw [strlenCount, if_pos ha]
    rfl
  | cons c s ih =>
    rw [List.length_cons] at hfuel
    obtain ⟨fuel, rfl⟩ : ∃ k, fuel = k + 1 := ⟨fuel - 1, by omega⟩
    obtain ⟨hc, rfl, hs⟩ := h
    rw [strlenCount, if_neg hc, ih hs (by omega), List.length_cons, Nat.add_right_comm, Nat.add_assoc]

theorem strlen_eq (h : IsCString m a s) (hlen : s.length < stringLoopBound) :
    strlen m a = some s.length := by
  rw [strlen, strlenCount_eq h hlen, Nat.zero_add]

/-- The difference of two bytes is 0 only if they are the same. -/
theorem byte_sub_eq_zero_iff {x y : UInt8} : (x.toNat : Int) - y.toNat = 0 ↔ x = y := by
  rw [← UInt8.toNat_inj]
  omega

theorem strcmpLoop_eq {fuel : ℕ} (h : IsCString m a s) (h' : IsCString m b t)
    (hfuel : s.length < fuel) : ∃ r, strcmpLoop m fuel a b = some r ∧ (r = 0 ↔ s = t) := by
  induction s generalizing a b t fuel with
  | nil =>
    obtain ⟨fuel, rfl⟩ : ∃ k, fuel = k + 1 := ⟨fuel - 1, by omega⟩
    have ha : m a = 0 := h
    refine ⟨_, by rw [strcmpLoop, if_neg (fun hc => hc.1 ha)], ?_⟩
    rw [byte_sub_eq_zero_iff, ha]
    cases t with
    | nil => exact iff_of_true (Eq.symm h') rfl
    | cons c t =>
      obtain ⟨hc, hb, -⟩ := h'
      exact iff_of_false (fun h0 => hc (hb.symm.trans h0.symm)) (List.cons_ne_nil c t).symm
  | cons c s ih =>
    rw [List.length_cons] at hfuel
    obtain ⟨fuel, rfl⟩ : ∃ k, fuel = k + 1 := ⟨fuel - 1, by omega⟩
    obtain ⟨hc, rfl, hs⟩ := h
    by_cases hab : m a = m b
    · -- the same byte: `t` starts with it too
      cases t with
      | nil => exact absurd (hab.trans h') hc
      | cons c' t =>
        obtain ⟨-, rfl, ht⟩ := h'
        obtain ⟨r, hr, hiff⟩ := ih hs ht (show s.length < fuel by omega)
        refine ⟨r, by rw [strcmpLoop, if_pos ⟨hc, hab⟩, hr], hiff.trans ?_⟩
        rw [hab, List.cons_inj_right]
    · refine ⟨_, by rw [strcmpLoop, if_neg (fun h => hab h.2)], ?_⟩
      rw [byte_sub_eq_zero_iff]
      refine iff_of_false hab (fun heq => hab ?_)
      subst heq
      exact h'.2.1.symm

/-- `strcmp` tells equal strings. -/
theorem strcmp_eq (h : IsCString m a s) (h' : IsCString m b t) (hlen : s.length < stringLoopBound) :
    ∃ r, strcmp m a b = some r ∧ (r = 0 ↔ s = t) := strcmpLoop_eq h h' hlen

end Strings

end OctoOS
