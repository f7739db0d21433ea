import OctoOS.Vga
import OctoOS.Ata

set_option autoImplicit false

/-! # Numbers and the commands that take them (`kernel/shell.c`)

`parse_dec` and `parse_hex` read a string in memory with a 32-bit accumulator; `none` as a result is
the return value -1, and `some v` is 0 with `v` in `*out`. `char` is compared as an unsigned byte:
bytes above 0x7F are no digits for a signed one either. What the console prints goes to the screen,
which is memory, and to the serial line. -/

namespace OctoOS

/-! ## Console output -/

/-- The screen and what was sent to the serial line. -/
structure Tty where
  vga : Vga
  serial : Bytes

/-- Everything but the memory stays as it is. -/
def Tty.withMem (s : Tty) (m : Mem) : Tty := { s with vga := { s.vga with mem := m } }

/-- What `serial_putc` sends: a line feed after a carriage return. -/
def serialPutc (c : UInt8) : Bytes := if c = 0x0A then [0x0D, c] else [c]

/-- `console_putc`. -/
def consolePutc (c : UInt8) (s : Tty) : Option Tty :=
  (vgaPutc c s.vga).map (fun v => ⟨v, s.serial ++ serialPutc c⟩)

/-- `console_puts`, of a constant text. -/
def consolePuts : Bytes → Tty → Option Tty
  | [], s => some s
  | c :: cs, s => (consolePutc c s).bind (consolePuts cs)

/-- `d < 10 ? '0' + d : 'a' + d - 10`. -/
def digitChar (d : UInt32) : UInt8 := if d < 10 then 0x30 + d.toUInt8 else 0x61 + d.toUInt8 - 10

/-- The first loop of `print_uint`, with room for `n` more digits in `buf`. -/
def uintDigits (base : UInt32) : ℕ → UInt32 → Bytes
  | 0, _ => []
  | n + 1, v => digitChar (v % base) :: if v / base = 0 then [] else uintDigits base n (v / base)

/-- What `print_uint` writes: the digits and zeros collected in `buf`, from the end. -/
def uintText (v base : UInt32) (minDigits : ℕ) : Bytes :=
  (uintDigits base 16 v ++ List.replicate (minDigits - (uintDigits base 16 v).length) 0x30).reverse

/-- `print_uint`. -/
def printUint (v base : UInt32) (minDigits : ℕ) : Tty → Option Tty :=
  consolePuts (uintText v base minDigits)

/-- `print_hex_digits`. -/
def printHexDigits (v : UInt32) : ℕ → Tty → Option Tty
  | 0, s => some s
  | n + 1, s => (consolePutc (digitChar ((v >>> (UInt32.ofNat n * 4)) &&& 0xF)) s).bind
      (printHexDigits v n)

/-! ## Arguments -/

/-- The first loop of `split_args`: to the end of a word. -/
def skipWord (m : Mem) : ℕ → ℕ → Option ℕ
  | 0, _ => none
  | fuel + 1, p => if m p ≠ 0 ∧ m p ≠ 0x20 then skipWord m fuel (p + 1) else some p

/-- The second loop of `split_args`: over spaces. -/
def skipSpaces (m : Mem) : ℕ → ℕ → Option ℕ
  | 0, _ => none
  | fuel + 1, p => if m p = 0x20 then skipSpaces m fuel (p + 1) else some p

/-- `split_args`: the pointer it returns and the memory it leaves. -/
def splitArgs (line : ℕ) (m : Mem) : Option (ℕ × Mem) :=
  (skipWord m stringLoopBound line).bind (fun p =>
    if m p ≠ 0 then
      (skipSpaces (Function.update m p 0) stringLoopBound (p + 1)).map
        (fun q => (q, Function.update m p 0))
    else some (p, m))

/-- The digit of `parse_dec`. -/
def decDigit (c : UInt8) : Option UInt32 :=
  if c < 0x30 ∨ 0x39 < c then none else some (c.toUInt32 - 0x30)

/-- The digit of `parse_hex`. -/
def hexDigit (c : UInt8) : Option UInt32 :=
  if 0x30 ≤ c ∧ c ≤ 0x39 then some (c.toUInt32 - 0x30)
  else if 0x61 ≤ c ∧ c ≤ 0x66 then some (c.toUInt32 - 0x61 + 10)
  else if 0x41 ≤ c ∧ c ≤ 0x46 then some (c.toUInt32 - 0x41 + 10)
  else none

/-- `for (; *s; s++)` with the accumulator `v`; the outer `none` is a string without an end. -/
def parseLoop (digit : UInt8 → Option UInt32) (join : UInt32 → UInt32 → UInt32) (m : Mem) :
    ℕ → ℕ → UInt32 → Option (Option UInt32)
  | 0, _, _ => none
  | fuel + 1, s, v =>
    if m s = 0 then some (some v)
    else
      match digit (m s) with
      | none => some none
      | some d => parseLoop digit join m fuel (s + 1) (join v d)

/-- Both parsers fail on an empty string. -/
def parseNumber (digit : UInt8 → Option UInt32) (join : UInt32 → UInt32 → UInt32) (m : Mem)
    (s : ℕ) : Option (Option UInt32) :=
  if m s = 0 then some none else parseLoop digit join m stringLoopBound s 0

/-- `parse_dec`. -/
def parseDec (m : Mem) (s : ℕ) : Option (Option UInt32) :=
  parseNumber decDigit (fun v d => v * 10 + d) m s

/-- `parse_hex`. -/
def parseHex (m : Mem) (s : ℕ) : Option (Option UInt32) :=
  parseNumber hexDigit (fun v d => (v <<< 4) ||| d) m
    (if m s = 0x30 ∧ (m (s + 1) = 0x78 ∨ m (s + 1) = 0x58) then s + 2 else s)

/-! ## Commands -/

def peekUsage : Bytes := str "usage: peek <hex-addr> [len]\n"

/-- The bytes of a row of the dump, with `n` rounds left. -/
def peekBytes (addr off len : UInt32) : ℕ → UInt32 → Tty → Option Tty
  | 0, _, s => some s
  | n + 1, i, s =>
    (if off + i < len then
      (printHexDigits (s.vga.mem (addr + off + i).toNat).toUInt32 2 s).bind (consolePutc 0x20)
    else consolePuts (str "   ") s).bind (peekBytes addr off len n (i + 1))

/-- The characters of a row of the dump, with `n` rounds left. -/
def peekChars (addr off len : UInt32) : ℕ → UInt32 → Tty → Option Tty
  | 0, _, s => some s
  | n + 1, i, s =>
    if off + i < len then
      let b := s.vga.mem (addr + off + i).toNat
      (consolePutc (if 0x20 ≤ b ∧ b ≤ 0x7E then b else 0x2E) s).bind
        (peekChars addr off len n (i + 1))
    else some s

/-- The rows of the dump, with `n` rounds left. -/
def peekRows (addr len : UInt32) : ℕ → UInt32 → Tty → Option Tty
  | 0, _, s => some s
  | n + 1, off, s =>
    (consolePuts (str "0x") s).bind (fun s =>
    (printUint (addr + off) 16 8 s).bind (fun s =>
    (consolePuts (str "  ") s).bind (fun s =>
    (peekBytes addr off len 16 0 s).bind (fun s =>
    (consolePuts (str " |") s).bind (fun s =>
    (peekChars addr off len 16 0 s).bind (fun s =>
    (consolePuts (str "|\n") s).bind (peekRows addr len n (off + 16))))))))

/-- The end of `cmd_peek`: at most 4096 bytes, 16 in a row. -/
def peekDump (addr len : UInt32) : Tty → Option Tty :=
  let len := if 4096 < len then 4096 else len
  peekRows addr len ((len.toNat + 15) / 16) 0

/-- `cmd_peek`. -/
def cmdPeek (args : ℕ) (s : Tty) : Option Tty :=
  (splitArgs args s.vga.mem).bind (fun r =>
    let lenArg := r.1
    let m := r.2
    (parseHex m args).bind (fun addr =>
      match addr with
      | none => consolePuts peekUsage (s.withMem m)
      | some addr =>
        if m lenArg ≠ 0 then
          (parseDec m lenArg).bind (fun len =>
            match len with
            | none => consolePuts peekUsage (s.withMem m)
            | some len => peekDump addr len (s.withMem m))
        else peekDump addr 64 (s.withMem m)))

def colorUsage : Bytes := str "usage: color <fg 0-15> <bg 0-15>\n"

/-- `vga_set_color` and the message of `cmd_color`. -/
def setColor (fg bg : UInt32) (s : Tty) : Option Tty :=
  consolePuts (str "color set\n") { s with vga := vgaSetColor fg.toUInt8 bg.toUInt8 s.vga }

/-- `cmd_color`. -/
def cmdColor (args : ℕ) (s : Tty) : Option Tty :=
  (splitArgs args s.vga.mem).bind (fun r =>
    let bgArg := r.1
    let m := r.2
    (parseDec m args).bind (fun fg =>
      match fg with
      | none => consolePuts colorUsage (s.withMem m)
      | some fg =>
        (parseDec m bgArg).bind (fun bg =>
          match bg with
          | none => consolePuts colorUsage (s.withMem m)
          | some bg =>
            if 15 < fg ∨ 15 < bg then consolePuts colorUsage (s.withMem m)
            else setColor fg bg (s.withMem m))))

end OctoOS
