import OctoOS.Strings

set_option autoImplicit false

/-! # The text screen (`kernel/vga.c`)

`vmem` is an array of 16-bit cells in a byte memory, the attribute in the high byte and the
character in the low one. A store through `vmem` at an index outside the 2000 cells of the screen is
a step to `none`. `cur_row` and `cur_col` are `int`s; the cursor of the display lies in registers
0x0E and 0x0F of its controller. -/

namespace OctoOS

/-- `VGA_COLS`. -/
def vgaCols : ℕ := 80

/-- `VGA_ROWS`. -/
def vgaRows : ℕ := 25

/-- The address of `vmem`. -/
def vmem : ℕ := 0xB8000

/-- The memory, the variables of the driver, and the registers of the display controller. -/
structure Vga where
  mem : Mem
  curRow : Int
  curCol : Int
  attr : UInt8
  crtc : UInt8 → UInt8

/-- `(uint16_t)(attr << 8) | c`; the two bytes have no bit in common. -/
def cellWord (attr c : UInt8) : ℕ := attr.toNat * 256 + c.toNat

/-- Cell `i` of the screen. -/
def cellAt (m : Mem) (i : ℕ) : ℕ := m.half (vmem + 2 * i)

/-- `vmem[i] = w`. -/
def vmemStore (i : Int) (w : ℕ) (s : Vga) : Option Vga :=
  if 0 ≤ i ∧ i < vgaRows * vgaCols then
    some { s with mem := s.mem.setHalf (vmem + 2 * i.toNat) w }
  else none

/-- `memmove(vmem + dst, vmem + src, n * 2)`. -/
def vmemMove (dst src n : ℕ) (s : Vga) : Option Vga :=
  if dst + n ≤ vgaRows * vgaCols ∧ src + n ≤ vgaRows * vgaCols then
    some { s with mem := memmove (vmem + 2 * dst) (vmem + 2 * src) (n * 2) s.mem }
  else none

/-- The loops of `vga_clear` and `scroll`, with `n` rounds left: cells from `i` on become blank. -/
def blankCells : ℕ → Int → Vga → Option Vga
  | 0, _, s => some s
  | n + 1, i, s => (vmemStore i (cellWord s.attr 0x20) s).bind (blankCells n (i + 1))

/-- `move_cursor`. -/
def moveCursor (s : Vga) : Vga :=
  let pos := (s.curRow * vgaCols + s.curCol) % 65536
  let high := Function.update s.crtc 0x0E (UInt8.ofInt (pos / 256))
  { s with crtc := Function.update high 0x0F (UInt8.ofInt pos) }

/-- `vga_set_color`. -/
def vgaSetColor (fg bg : UInt8) (s : Vga) : Vga := { s with attr := (bg <<< 4) ||| (fg &&& 0x0F) }

/-- `vga_clear`. -/
def vgaClear (s : Vga) : Option Vga :=
  (blankCells (vgaCols * vgaRows) 0 s).map (fun s => moveCursor { s with curRow := 0, curCol := 0 })

/-- `scroll`. -/
def scroll (s : Vga) : Option Vga :=
  ((vmemMove 0 vgaCols ((vgaRows - 1) * vgaCols) s).bind
    (blankCells vgaCols ((vgaRows - 1) * vgaCols))).map (fun s => { s with curRow := vgaRows - 1 })

/-- The `switch` of `vga_putc`. -/
def putcSwitch (c : UInt8) (s : Vga) : Option Vga :=
  if c = 0x0A then some { s with curCol := 0, curRow := s.curRow + 1 }
  else if c = 0x0D then some { s with curCol := 0 }
  else if c = 0x08 then
    if 0 < s.curCol then
      vmemStore (s.curRow * vgaCols + (s.curCol - 1)) (cellWord s.attr 0x20)
        { s with curCol := s.curCol - 1 }
    else some s
  else if c = 0x09 then
    -- `(cur_col + 8) & ~7`: the low three bits are cleared
    some { s with curCol := s.curCol + 8 - (s.curCol + 8) % 8 }
  else
    (vmemStore (s.curRow * vgaCols + s.curCol) (cellWord s.attr c) s).map
      (fun s => { s with curCol := s.curCol + 1 })

/-- The end of a row. -/
def wrapLine (s : Vga) : Vga :=
  if vgaCols ≤ s.curCol then { s with curCol := 0, curRow := s.curRow + 1 } else s

/-- The end of the screen. -/
def scrollIfBelow (s : Vga) : Option Vga := if vgaRows ≤ s.curRow then scroll s else some s

/-- `vga_putc`. -/
def vgaPutc (c : UInt8) (s : Vga) : Option Vga :=
  ((putcSwitch c s).bind (fun s => scrollIfBelow (wrapLine s))).map moveCursor

/-- One `vga_putc` after the other. -/
def vgaPutAll : List UInt8 → Vga → Option Vga
  | [], s => some s
  | c :: cs, s => (vgaPutc c s).bind (vgaPutAll cs)

end OctoOS
