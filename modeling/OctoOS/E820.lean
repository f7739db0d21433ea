import Mathlib.Algebra.Group.Nat.Defs
import Mathlib.Tactic.Common

set_option autoImplicit false

/-! # The BIOS memory map (`kernel/e820.h`)

`heap_init` and `frame_init` start with the same loop over the map: the longest usable entry at or
above 1 MiB. The loop looks at the first 64 entries at most. -/

namespace OctoOS

/-- Truncation to `uint32_t`. -/
def w32 (x : ℕ) : ℕ := x % 2 ^ 32

/-- `a - b` on `uint32_t`. -/
def sub32 (a b : ℕ) : ℕ := (a + 2 ^ 32 - b) % 2 ^ 32

theorem w32_eq {x : ℕ} (h : x < 2 ^ 32) : w32 x = x := Nat.mod_eq_of_lt h

/-- Truncating before an addition makes no difference after it. -/
theorem w32_add (a b : ℕ) : w32 (w32 a + b) = w32 (a + b) := Nat.mod_add_mod ..

theorem sub32_eq {a b : ℕ} (hab : b ≤ a) (ha : a < 2 ^ 32) : sub32 a b = a - b := by
  unfold sub32
  omega

/-- The fields of `struct e820_entry` that the kernel reads. -/
structure E820Entry where
  base : UInt64
  length : UInt64
  type : UInt32
  deriving Repr

/-- `E820_USABLE`. -/
def e820Usable : UInt32 := 1

/-- `HEAP_MIN_BASE`, the same number in `heap.c` and `frame.c`. -/
def heapMinBase : ℕ := 0x100000

/-- The selection loop, from the pair `(best_base, best_len)` found so far. -/
def bestRegion : List E820Entry → ℕ × ℕ → ℕ × ℕ
  | [], best => best
  | e :: es, best =>
    if e.type ≠ e820Usable ∨ e.base.toNat < heapMinBase then bestRegion es best
    else if best.2 < e.length.toNat then bestRegion es (e.base.toNat, e.length.toNat)
    else bestRegion es best

/-- `best_base` and `best_len` after the loop over `E820_MAP`. -/
def e820Best (map : List E820Entry) : ℕ × ℕ := bestRegion (map.take 64) (0, 0)

end OctoOS
