import Mathlib.Data.Nat.Digits.Defs

set_option autoImplicit false

/-! # Numerals

A numeral is a non-empty list of characters that are all digits; `numeral value base t` is the
number it denotes. Programs read it with an accumulator, from the first digit on; an accumulator
that keeps its value modulo `M` ends with the number modulo `M`, however long the numeral is. -/

namespace Numeral

variable {α : Type} {t : List α} {value : α → Option ℕ} {base n : ℕ}

/-- The number that `t` denotes in base `base`, if all of its characters are digits. -/
def numeral (value : α → Option ℕ) (base : ℕ) (t : List α) : Option ℕ :=
  if t = [] then none else (t.mapM value).map (fun ds => Nat.ofDigits base ds.reverse)

/-- Reading from the first digit on. -/
theorem ofDigits_reverse (base : ℕ) (ds : List ℕ) :
    Nat.ofDigits base ds.reverse = ds.foldl (fun v d => v * base + d) 0 := by
  rw [Nat.ofDigits_eq_foldr, List.foldr_reverse]
  congr 1
  funext v d
  rw [Nat.cast_id, Nat.mul_comm, Nat.add_comm]

/-- The digits behind do not tell a value from its remainder. -/
theorem foldl_mod (base M : ℕ) (ds : List ℕ) (v : ℕ) :
    ds.foldl (fun v d => v * base + d) (v % M) % M = ds.foldl (fun v d => v * base + d) v % M := by
  induction ds generalizing v with
  | nil => exact Nat.mod_mod v M
  | cons d ds ih =>
    have hstep : (v % M * base + d) % M = (v * base + d) % M := by simp [Nat.add_mod, Nat.mul_mod]
    rw [List.foldl_cons, List.foldl_cons, ← ih (v % M * base + d), hstep, ih]

section

variable {join : UInt32 → UInt32 → UInt32} {base : ℕ} {ds : List ℕ}
  (hjoin : ∀ v d, d < base → (join v (UInt32.ofNat d)).toNat = (v.toNat * base + d) % 2 ^ 32)
  (hds : ∀ d ∈ ds, d < base)

include hjoin hds

/-- A 32-bit word as the accumulator: `join` appends a digit. -/
theorem foldl_toNat (v : UInt32) :
    (ds.foldl (fun v d => join v (UInt32.ofNat d)) v).toNat
      = ds.foldl (fun v d => v * base + d) v.toNat % 2 ^ 32 := by
  induction ds generalizing v with
  | nil => exact (Nat.mod_eq_of_lt v.toNat_lt).symm
  | cons d ds ih =>
    have hrest : ∀ x ∈ ds, x < base := fun x hx => hds x (List.mem_cons_of_mem d hx)
    rw [List.foldl_cons, List.foldl_cons, ih hrest, hjoin v d (hds d (List.mem_cons_self ..)),
      foldl_mod]

/-- So the word that is read is the number modulo `2 ^ 32`. -/
theorem foldl_eq_ofNat :
    ds.foldl (fun v d => join v (UInt32.ofNat d)) 0 = UInt32.ofNat (Nat.ofDigits base ds.reverse) := by
  apply UInt32.toNat.inj
  rw [foldl_toNat hjoin hds, ofDigits_reverse, UInt32.toNat_ofNat']
  rfl

end

theorem lt_of_mem_mapM (hv : ∀ c d, value c = some d → d < base) {ds : List ℕ}
    (h : t.mapM value = some ds) : ∀ d ∈ ds, d < base := by
  induction t generalizing ds with
  | nil =>
    obtain rfl : ds = [] := by simpa using h.symm
    simp
  | cons c t ih =>
    simp only [List.mapM_cons, Option.bind_eq_bind, Option.bind_eq_some_iff] at h
    obtain ⟨d, hd, ds', hds', heq⟩ := h
    obtain rfl : d :: ds' = ds := Option.some.inj heq
    intro x hx
    rcases List.mem_cons.1 hx with rfl | hx
    · exact hv c x hd
    · exact ih hds' x hx

/-! ## Writing -/

theorem digits_of_numeral (h : numeral value base t = some n) :
    ∃ ds, t.mapM value = some ds ∧ Nat.ofDigits base ds.reverse = n := by
  by_cases hnil : t = []
  · rw [numeral, if_pos hnil] at h
    exact nomatch h
  · rw [numeral, if_neg hnil] at h
    exact Option.map_eq_some_iff.1 h

/-- What is no digit is not in a numeral. -/
theorem notMem_of_numeral {c : α} (h : numeral value base t = some n) (hc : value c = none) :
    c ∉ t := by
  obtain ⟨ds, hds, -⟩ := digits_of_numeral h
  intro hm
  obtain ⟨l1, l2, rfl⟩ := List.append_of_mem hm
  simp [hc] at hds

/-- One more digit behind a numeral. -/
theorem numeral_concat {d : ℕ} {c : α} (ht : numeral value base t = some n)
    (hc : value c = some d) : numeral value base (t ++ [c]) = some (n * base + d) := by
  obtain ⟨ds, hds, hn⟩ := digits_of_numeral ht
  have hall : (t ++ [c]).mapM value = some (ds ++ [d]) := by
    simp [hds, hc]
  rw [numeral, if_neg (by simp), hall]
  show some (Nat.ofDigits base (ds ++ [d]).reverse) = _
  rw [List.reverse_append, List.reverse_singleton, List.singleton_append, Nat.ofDigits_cons, hn,
    Nat.mul_comm, Nat.add_comm]

/-- Leading zeros do not count. -/
theorem numeral_zeros {z : α} (hz : value z = some 0) (ht : numeral value base t = some n) (k : ℕ) :
    numeral value base (List.replicate k z ++ t) = some n := by
  induction k with
  | zero => exact ht
  | succ k ih =>
    obtain ⟨ds, hds, hn⟩ := digits_of_numeral ih
    have hall : (z :: (List.replicate k z ++ t)).mapM value = some (0 :: ds) := by
      rw [List.mapM_cons, hz, hds]
      rfl
    rw [List.replicate_succ, List.cons_append, numeral, if_neg (List.cons_ne_nil _ _), hall, ← hn]
    show some (Nat.ofDigits base (0 :: ds).reverse) = _
    rw [ofDigits_reverse, ofDigits_reverse, List.foldl_cons, Nat.zero_mul]

/-- The digits of `n` are a numeral for `n`. -/
theorem numeral_toDigits (hb : 1 < base) {char : Char → α}
    (hval : ∀ d < base, value (char (Nat.digitChar d)) = some d) (n : ℕ) :
    numeral value base ((Nat.toDigits base n).map char) = some n := by
  induction n using Nat.strong_induction_on with
  | _ n ih =>
    rw [Nat.toDigits_eq_if hb]
    by_cases hn : n < base
    · rw [if_pos hn]
      simp [numeral, hval n hn]
    · have hpos : 0 < n := by omega
      rw [if_neg hn, List.map_append]
      have hdigit := hval (n % base) (Nat.mod_lt n (by omega))
      have hall := numeral_concat (ih (n / base) (Nat.div_lt_self hpos hb)) hdigit
      rwa [Nat.div_add_mod'] at hall

/-! ## Characters -/

/-- `0` to `9`. -/
def decimalDigits : List UInt8 := [0x30, 0x31, 0x32, 0x33, 0x34, 0x35, 0x36, 0x37, 0x38, 0x39]

/-- `0` to `9` and `a` to `f`. -/
def lowerDigits : List UInt8 := decimalDigits ++ [0x61, 0x62, 0x63, 0x64, 0x65, 0x66]

/-- `0` to `9` and `A` to `F`. -/
def upperDigits : List UInt8 := decimalDigits ++ [0x41, 0x42, 0x43, 0x44, 0x45, 0x46]

/-- A digit is worth its place in the list of digits. -/
def decValue (c : UInt8) : Option ℕ := decimalDigits.idxOf? c

def hexValue (c : UInt8) : Option ℕ := (lowerDigits.idxOf? c).or (upperDigits.idxOf? c)

theorem lt_of_idxOf? {l : List UInt8} {c : UInt8} {d : ℕ} (h : l.idxOf? c = some d) :
    d < l.length := (List.findIdx?_eq_some_iff_findIdx_eq.1 h).1

theorem decValue_lt (c : UInt8) (d : ℕ) (h : decValue c = some d) : d < 10 := lt_of_idxOf? h

theorem hexValue_lt (c : UInt8) (d : ℕ) (h : hexValue c = some d) : d < 16 := by
  rcases Option.or_eq_some_iff.1 h with h | ⟨-, h⟩
  · exact lt_of_idxOf? h
  · exact lt_of_idxOf? h

/-- What a text denotes as a decimal numeral. -/
def decimal (t : List UInt8) : Option ℕ := numeral decValue 10 t

/-- What a text denotes as a hexadecimal numeral. -/
def hexadecimal (t : List UInt8) : Option ℕ := numeral hexValue 16 t

end Numeral
