import OctoOS.Lib.Interrupt
import Mathlib.Data.Nat.Bitwise

set_option autoImplicit false

/-! # Protection on the x86

What the processor makes of the bytes of a descriptor, and the checks that depend on them: which
selectors a privilege level can load, which gates it can use and which ports it can reach. A check that
fails is an exception; the results say only whether it passes. There is no local descriptor table. -/

namespace X86

/-- What `lgdt` and `lidt` load. -/
structure TableReg where
  base : ℕ
  limit : ℕ

/-- Bit `i` of a byte. -/
def bit (b : UInt8) (i : ℕ) : Bool := b.toNat.testBit i

inductive SegKind where
  | code (conforming readable : Bool)
  | data (expandDown writable : Bool)
  /-- A task state segment or a gate, by its type. -/
  | system (type : ℕ)
  deriving DecidableEq

/-- A segment; `limit` is its last byte. -/
@[ext]
structure Descriptor where
  base : ℕ
  limit : ℕ
  present : Bool
  dpl : ℕ
  kind : SegKind
  deriving DecidableEq

/-- The access byte says what kind of segment it is. -/
def SegKind.ofAccess (b : UInt8) : SegKind :=
  if bit b 4 then
    if bit b 3 then .code (bit b 2) (bit b 1) else .data (bit b 2) (bit b 1)
  else .system (b.toNat % 16)

/-- The limit counts bytes or pages. -/
def segLimit (pages : Bool) (n : ℕ) : ℕ := if pages then 4096 * n + 4095 else n

/-- The descriptor in the eight bytes at `a`. -/
def descriptor (m : Mem) (a : ℕ) : Descriptor where
  base := m.half (a + 2) + 65536 * (m (a + 4)).toNat + 16777216 * (m (a + 7)).toNat
  limit := segLimit (bit (m (a + 6)) 7) (m.half a + 65536 * ((m (a + 6)).toNat % 16))
  present := bit (m (a + 5)) 7
  dpl := (m (a + 5)).toNat / 32 % 4
  kind := .ofAccess (m (a + 5))

/-- The segment of a selector. -/
def segmentOf (m : Mem) (gdt : TableReg) (sel : ℕ) : Option Descriptor :=
  if sel / 4 % 2 = 0 ∧ 8 * (sel / 8) + 7 ≤ gdt.limit then some (descriptor m (gdt.base + 8 * (sel / 8)))
  else none

/-- A selector whose load leaves a data segment register that nothing can be accessed through. -/
def nullSelector (sel : ℕ) : Bool := sel / 4 = 0

/-- `mov ds, sel` and the like pass for `d`. -/
def Descriptor.loadable (d : Descriptor) (cpl rpl : ℕ) : Bool :=
  d.present &&
    match d.kind with
    | .code conforming readable => readable && (conforming || decide (max cpl rpl ≤ d.dpl))
    | .data _ _ => max cpl rpl ≤ d.dpl
    | .system _ => false

/-- `mov ds, sel` passes. -/
def loadsData (m : Mem) (gdt : TableReg) (cpl sel : ℕ) : Bool :=
  nullSelector sel || (segmentOf m gdt sel).any (·.loadable cpl (sel % 4))

/-- A store through a data segment register that holds `sel` passes, as far as the kind goes. -/
def storesThrough (m : Mem) (gdt : TableReg) (sel : ℕ) : Bool :=
  !nullSelector sel && (segmentOf m gdt sel).any
    (fun d => match d.kind with
      | .data _ writable => writable
      | _ => false)

/-- The ring a far jump or call to `d` leads to; a gate or a task may lead to ring 0. -/
def Descriptor.jump (d : Descriptor) (cpl rpl : ℕ) : Option ℕ :=
  if d.present then
    match d.kind with
    | .code true _ => if d.dpl ≤ cpl then some cpl else none
    | .code false _ => if rpl ≤ cpl ∧ d.dpl = cpl then some cpl else none
    | .data _ _ => none
    | .system _ => if max cpl rpl ≤ d.dpl then some 0 else none
  else none

/-- The ring a far jump or call to `sel` leads to. -/
def farJump (m : Mem) (gdt : TableReg) (cpl sel : ℕ) : Option ℕ :=
  if nullSelector sel then none else (segmentOf m gdt sel).bind (·.jump cpl (sel % 4))

/-! ## Gates -/

/-- An entry of the interrupt table. -/
structure IntGate where
  gate : Gate
  present : Bool
  dpl : ℕ
  type : ℕ

/-- The gate in the eight bytes at `a`. -/
def intGate (m : Mem) (a : ℕ) : IntGate where
  gate := ⟨UInt16.ofNat (m.half (a + 2)), UInt32.ofNat (m.half a + 65536 * m.half (a + 6))⟩
  present := bit (m (a + 5)) 7
  dpl := (m (a + 5)).toNat / 32 % 4
  type := (m (a + 5)).toNat % 32

/-- Task gates and gates for 16 or 32 bits. -/
def isIntGate (type : ℕ) : Bool := type ∈ [5, 6, 7, 14, 15]

/-- The gate that an interrupt or an exception goes through. -/
def deliver (m : Mem) (idt : TableReg) (n : ℕ) : Option IntGate :=
  if 8 * n + 7 ≤ idt.limit ∧ isIntGate (intGate m (idt.base + 8 * n)).type
      ∧ (intGate m (idt.base + 8 * n)).present then some (intGate m (idt.base + 8 * n))
  else none

/-- The gate that the instruction `int n` goes through. -/
def softwareInt (m : Mem) (idt : TableReg) (cpl n : ℕ) : Option IntGate :=
  (deliver m idt n).filter (fun g => cpl ≤ g.dpl)

/-! ## Ports -/

/-- The bit of port `port` in the permission map of the task state segment `tss`; the processor reads
    two bytes, which must lie inside the segment. -/
def ioBit (m : Mem) (tss : Descriptor) (port : ℕ) : Bool :=
  m.half (tss.base + 102) + port / 8 + 1 ≤ tss.limit ∧
    m.half (tss.base + (m.half (tss.base + 102) + port / 8)) / 2 ^ (port % 8) % 2 = 0

/-- `in` and `out` of a byte pass. -/
def portAllowed (m : Mem) (tss : Descriptor) (cpl iopl port : ℕ) : Bool :=
  cpl ≤ iopl ∨ (tss.present ∧ (tss.kind = .system 9 ∨ tss.kind = .system 11) ∧ 103 ≤ tss.limit ∧
    ioBit m tss port)

/-- The stack of ring 0 in a task state segment. -/
def tssAt (m : Mem) (a : ℕ) : Tss := ⟨UInt32.ofNat (m.word (a + 4)), UInt16.ofNat (m.half (a + 8))⟩

/-! ## What the bytes depend on -/

section Congr

variable {m m' : Mem} {a : ℕ}

theorem descriptor_congr (h : ∀ i, a ≤ i → i < a + 8 → m' i = m i) : descriptor m' a = descriptor m a := by
  have hb : ∀ k < 8, m' (a + k) = m (a + k) := fun k hk => h _ (by omega) (by omega)
  have hlo : m'.half a = m.half a := Mem.half_congr (fun i h1 h2 => h i h1 (by omega))
  have hhi : m'.half (a + 2) = m.half (a + 2) := Mem.half_congr (fun i h1 h2 => h i (by omega) (by omega))
  unfold descriptor
  rw [hlo, hhi, hb 4 (by omega), hb 5 (by omega), hb 6 (by omega), hb 7 (by omega)]

theorem intGate_congr (h : ∀ i, a ≤ i → i < a + 8 → m' i = m i) : intGate m' a = intGate m a := by
  have hlo : m'.half a = m.half a := Mem.half_congr (fun i h1 h2 => h i h1 (by omega))
  have hsel : m'.half (a + 2) = m.half (a + 2) := Mem.half_congr (fun i h1 h2 => h i (by omega) (by omega))
  have hhi : m'.half (a + 6) = m.half (a + 6) := Mem.half_congr (fun i h1 h2 => h i (by omega) (by omega))
  unfold intGate
  rw [hlo, hsel, hhi, h (a + 5) (by omega) (by omega)]

end Congr

end X86
