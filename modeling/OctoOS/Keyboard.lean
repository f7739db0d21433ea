import OctoOS.Shell.Numbers

set_option autoImplicit false

/-! # The keyboard (`kernel/keyboard.c`)

`keyboard_irq` decodes scan codes of set 1, one a call, with three flags between the calls. The driver's
tables go by scan code. What is typed is said apart from them, by the keys of a US keyboard in the order
of their characters: keys, arrows and caps lock, pressed one after the other, with neither shift key, the
left one or the right one held. Whatever is typed so arrives as it was meant, without a trace in the
shift and prefix flags. -/

namespace OctoOS

/-- `map_lower`, up to its last entry that is not 0. -/
def mapLower : Bytes :=
  [0, 27] ++ str "1234567890-=" ++ [8, 9] ++ str "qwertyuiop[]" ++ [10, 0] ++ str "asdfghjkl;'`"
    ++ [0] ++ str "\\zxcvbnm,./" ++ [0] ++ str "*" ++ [0] ++ str " "

/-- `map_upper`, up to its last entry that is not 0. -/
def mapUpper : Bytes :=
  [0, 27] ++ str "!@#$%^&*()_+" ++ [8, 9] ++ str "QWERTYUIOP\x7b\x7d" ++ [10, 0] ++ str "ASDFGHJKL:\"~"
    ++ [0] ++ str "|ZXCVBNM<>?" ++ [0] ++ str "*" ++ [0] ++ str " "

/-- `shift`, `caps` and `ext`. -/
structure Keyboard where
  shift : Bool
  caps : Bool
  ext : Bool
  deriving DecidableEq

namespace Keyboard

/-- The keys behind the prefix 0xE0: `KEY_UP`, `KEY_DOWN`, `KEY_LEFT`, `KEY_RIGHT`. -/
def extKey (sc : UInt8) : Option UInt8 :=
  if sc = 0x48 then some 0x80
  else if sc = 0x50 then some 0x81
  else if sc = 0x4B then some 0x82
  else if sc = 0x4D then some 0x83
  else none

/-- The character of a key, for the flags. -/
def keyChar (k : Keyboard) (sc : UInt8) : Option UInt8 :=
  let c := (if k.shift then mapUpper else mapLower).getD sc.toNat 0
  if c = 0 then none
  else if k.caps ∧ ¬ k.shift ∧ 0x61 ≤ c ∧ c ≤ 0x7A then some (c - 0x61 + 0x41)
  else if k.caps ∧ k.shift ∧ 0x41 ≤ c ∧ c ≤ 0x5A then some (c - 0x41 + 0x61)
  else some c

/-- `keyboard_irq` for the scan code `sc`: the flags, and what it gives to `console_input`. -/
def irq (k : Keyboard) (sc : UInt8) : Keyboard × Option UInt8 :=
  if sc = 0xE0 then ({ k with ext := true }, none)
  else if k.ext then ({ k with ext := false }, extKey sc)
  else if sc = 0x2A ∨ sc = 0x36 then ({ k with shift := true }, none)
  else if sc = 0xAA ∨ sc = 0xB6 then ({ k with shift := false }, none)
  else if sc = 0x3A then ({ k with caps := !k.caps }, none)
  else if sc &&& 0x80 ≠ 0 then (k, none)
  else (k, k.keyChar sc)

/-- One scan code after the other. -/
def decode (k : Keyboard) : List UInt8 → Keyboard × Bytes
  | [] => (k, [])
  | sc :: scs =>
    let r := (k.irq sc).1.decode scs
    (r.1, (k.irq sc).2.toList ++ r.2)

theorem decode_append (k : Keyboard) (scs scs' : List UInt8) :
    k.decode (scs ++ scs')
      = (((k.decode scs).1.decode scs').1, (k.decode scs).2 ++ ((k.decode scs).1.decode scs').2) := by
  induction scs generalizing k with
  | nil => rfl
  | cons sc scs ih =>
    rw [List.cons_append, decode, decode, ih, List.append_assoc]

/-! ## Typing -/

/-- A key that writes something: its code when it is pressed, and its two characters. -/
structure Key where
  code : UInt8
  plain : UInt8
  shifted : UInt8
  deriving DecidableEq

/-- The key with this code and this engraving. -/
def engraved (code : UInt8) (s : String) : Key := ⟨code, (str s).getD 0 0, (str s).getD 1 0⟩

/-- The keys of a US keyboard in scan code set 1. The last ones are space, `*` of the number pad, escape,
    backspace, tab and enter. -/
def usKeys : List Key :=
  [engraved 0x1E "aA", engraved 0x30 "bB", engraved 0x2E "cC", engraved 0x20 "dD", engraved 0x12 "eE",
    engraved 0x21 "fF", engraved 0x22 "gG", engraved 0x23 "hH", engraved 0x17 "iI", engraved 0x24 "jJ",
    engraved 0x25 "kK", engraved 0x26 "lL", engraved 0x32 "mM", engraved 0x31 "nN", engraved 0x18 "oO",
    engraved 0x19 "pP", engraved 0x10 "qQ", engraved 0x13 "rR", engraved 0x1F "sS", engraved 0x14 "tT",
    engraved 0x16 "uU", engraved 0x2F "vV", engraved 0x11 "wW", engraved 0x2D "xX", engraved 0x15 "yY",
    engraved 0x2C "zZ",
    engraved 0x02 "1!", engraved 0x03 "2@", engraved 0x04 "3#", engraved 0x05 "4$", engraved 0x06 "5%",
    engraved 0x07 "6^", engraved 0x08 "7&", engraved 0x09 "8*", engraved 0x0A "9(", engraved 0x0B "0)",
    engraved 0x29 "`~", engraved 0x0C "-_", engraved 0x0D "=+", engraved 0x1A "[\x7b", engraved 0x1B "]\x7d",
    engraved 0x2B "\\|", engraved 0x27 ";:", engraved 0x28 "'\"", engraved 0x33 ",<", engraved 0x34 ".>",
    engraved 0x35 "/?",
    engraved 0x39 "  ", engraved 0x37 "**", engraved 0x01 "\x1b\x1b", engraved 0x0E "\x08\x08",
    engraved 0x0F "\t\t", engraved 0x1C "\n\n"]

/-- Letters change their case. -/
def swapCase (c : UInt8) : UInt8 :=
  if 0x61 ≤ c ∧ c ≤ 0x7A then c - 0x20 else if 0x41 ≤ c ∧ c ≤ 0x5A then c + 0x20 else c

/-- What a key means. -/
def Key.char (k : Key) (shift caps : Bool) : UInt8 :=
  let c := if shift then k.shifted else k.plain
  if caps then swapCase c else c

/-- Printable, or escape, backspace, tab or newline. -/
def Typable (c : UInt8) : Prop := 0x20 ≤ c ∧ c ≤ 0x7E ∨ c = 27 ∨ c = 8 ∨ c = 9 ∨ c = 10
  deriving Decidable

/-- There is a key for every printable character. -/
theorem exists_key : ∀ c, Typable c → ∃ k ∈ usKeys, k.plain = c ∨ k.shifted = c :=
  forall_byte (by decide +kernel)

inductive Arrow where
  | up
  | down
  | left
  | right

/-- The code behind the prefix 0xE0. -/
def Arrow.code : Arrow → UInt8
  | .up => 0x48
  | .down => 0x50
  | .left => 0x4B
  | .right => 0x4D

/-- `KEY_UP`, `KEY_DOWN`, `KEY_LEFT` and `KEY_RIGHT` of `console.h`. -/
def Arrow.key : Arrow → UInt8
  | .up => 0x80
  | .down => 0x81
  | .left => 0x82
  | .right => 0x83

inductive ShiftKey where
  | left
  | right

def ShiftKey.code : ShiftKey → UInt8
  | .left => 0x2A
  | .right => 0x36

/-- The code of letting a key go. -/
def released (code : UInt8) : UInt8 := code ||| 0x80

/-- What one finger does. A key or an arrow that is held down is repeated. -/
inductive Stroke where
  | key (k : { k // k ∈ usKeys }) (repeats : ℕ)
  | arrow (a : Arrow) (repeats : ℕ)
  | capsLock

/-- What the hands do: a stroke, or strokes while a shift key is held. -/
inductive Phrase where
  | plain (s : Stroke)
  | shifted (key : ShiftKey) (ss : List Stroke)

/-- `n + 1` times the same. -/
def again {α : Type} (n : ℕ) (w : List α) : List α := (List.replicate (n + 1) w).flatten

/-- The codes of a stroke. For an arrow the keyboard lets go of a shift key that is held, and presses it
    again, behind the prefix. -/
def Stroke.codes (held : Option ShiftKey) : Stroke → List UInt8
  | .key k n => again n [k.1.code] ++ [released k.1.code]
  | .arrow a n => held.elim [] (fun key => [0xE0, released key.code]) ++ again n [0xE0, a.code]
      ++ [0xE0, released a.code] ++ held.elim [] (fun key => [0xE0, key.code])
  | .capsLock => [0x3A, released 0x3A]

def Phrase.codes : Phrase → List UInt8
  | .plain s => s.codes none
  | .shifted key ss => key.code :: ss.flatMap (Stroke.codes (some key)) ++ [released key.code]

/-- What a stroke means: caps lock behind it, and the characters. -/
def Stroke.meant (shift caps : Bool) : Stroke → Bool × Bytes
  | .key k n => (caps, again n [k.1.char shift caps])
  | .arrow a n => (caps, again n [a.key])
  | .capsLock => (!caps, [])

def strokesMeant (shift caps : Bool) : List Stroke → Bool × Bytes
  | [] => (caps, [])
  | s :: ss =>
    let r := s.meant shift caps
    let rs := strokesMeant shift r.1 ss
    (rs.1, r.2 ++ rs.2)

def Phrase.meant (caps : Bool) : Phrase → Bool × Bytes
  | .plain s => s.meant false caps
  | .shifted _ ss => strokesMeant true caps ss

def phrasesMeant (caps : Bool) : List Phrase → Bool × Bytes
  | [] => (caps, [])
  | p :: ps =>
    let r := p.meant caps
    let rs := phrasesMeant r.1 ps
    (rs.1, r.2 ++ rs.2)

/-- One press after the other of what leaves the flags alone. -/
theorem decode_again {k : Keyboard} {w : List UInt8} {t : Bytes} (h : k.decode w = (k, t)) (n : ℕ) :
    k.decode (again n w) = (k, again n t) := by
  induction n with
  | zero => simpa [again] using h
  | succ n ih =>
    have hsplit : ∀ {α : Type} (w : List α), again (n + 1) w = w ++ again n w := fun w => by
      rw [again, List.replicate_succ, List.flatten_cons, again]
    rw [hsplit, hsplit, decode_append, h, ih]

theorem decode_key : ∀ k ∈ usKeys, ∀ shift caps : Bool,
    (Keyboard.mk shift caps false).decode [k.code] = (⟨shift, caps, false⟩, [k.char shift caps]) ∧
      (Keyboard.mk shift caps false).decode [released k.code] = (⟨shift, caps, false⟩, []) := by
  decide +kernel

theorem decode_arrow (a : Arrow) (shift caps : Bool) :
    (Keyboard.mk shift caps false).decode [0xE0, a.code] = (⟨shift, caps, false⟩, [a.key]) ∧
      (Keyboard.mk shift caps false).decode [0xE0, released a.code] = (⟨shift, caps, false⟩, []) := by
  cases a <;> cases shift <;> cases caps <;> decide +kernel

/-- Behind the prefix a shift key is not noticed. -/
theorem decode_hidden (held : Option ShiftKey) (shift caps : Bool) :
    (Keyboard.mk shift caps false).decode (held.elim [] fun key => [0xE0, released key.code])
        = (⟨shift, caps, false⟩, []) ∧
      (Keyboard.mk shift caps false).decode (held.elim [] fun key => [0xE0, key.code])
        = (⟨shift, caps, false⟩, []) := by
  rcases held with - | (- | -) <;> cases shift <;> cases caps <;> decide +kernel

/-- **One stroke** decodes to what it means. -/
theorem decode_stroke (s : Stroke) (held : Option ShiftKey) (shift caps : Bool) :
    (Keyboard.mk shift caps false).decode (s.codes held)
      = (⟨shift, (s.meant shift caps).1, false⟩, (s.meant shift caps).2) := by
  cases s with
  | key k n =>
    obtain ⟨hpress, hrelease⟩ := decode_key k.1 k.2 shift caps
    rw [Stroke.codes, decode_append, decode_again hpress, hrelease, List.append_nil]
    rfl
  | arrow a n =>
    obtain ⟨hpress, hrelease⟩ := decode_arrow a shift caps
    obtain ⟨hbefore, hbehind⟩ := decode_hidden held shift caps
    simp only [Stroke.codes, decode_append, hbefore, decode_again hpress, hrelease, hbehind,
      List.nil_append, List.append_nil]
    rfl
  | capsLock => cases shift <;> cases caps <;> rfl

theorem decode_strokeList (ss : List Stroke) (held : Option ShiftKey) (shift caps : Bool) :
    (Keyboard.mk shift caps false).decode (ss.flatMap (Stroke.codes held))
      = (⟨shift, (strokesMeant shift caps ss).1, false⟩, (strokesMeant shift caps ss).2) := by
  induction ss generalizing caps with
  | nil => rfl
  | cons s ss ih =>
    rw [List.flatMap_cons, decode_append, decode_stroke, ih]
    rfl

theorem decode_shift (key : ShiftKey) (shift caps : Bool) :
    (Keyboard.mk shift caps false).decode [key.code] = (⟨true, caps, false⟩, []) ∧
      (Keyboard.mk shift caps false).decode [released key.code] = (⟨false, caps, false⟩, []) := by
  cases key <;> cases shift <;> cases caps <;> decide +kernel

theorem decode_phrase (p : Phrase) (caps : Bool) :
    (Keyboard.mk false caps false).decode p.codes
      = (⟨false, (p.meant caps).1, false⟩, (p.meant caps).2) := by
  cases p with
  | plain s => exact decode_stroke s none false caps
  | shifted key ss =>
    have hpress := (decode_shift key false caps).1
    have hrelease := fun caps => (decode_shift key true caps).2
    rw [Phrase.codes, ← List.singleton_append, List.append_assoc, decode_append, decode_append, hpress,
      decode_strokeList, hrelease, List.append_nil]
    rfl

/-- **Whatever is typed** decodes to what was meant. -/
theorem decode_strokes (ps : List Phrase) (caps : Bool) :
    (Keyboard.mk false caps false).decode (ps.flatMap Phrase.codes)
      = (⟨false, (phrasesMeant caps ps).1, false⟩, (phrasesMeant caps ps).2) := by
  induction ps generalizing caps with
  | nil => rfl
  | cons p ps ih =>
    rw [List.flatMap_cons, decode_append, decode_phrase, ih]
    rfl

/-- The arrow up, `L*` with the right shift key, then `Ss`, with caps lock pressed before them and the left
    shift key held for the last one. -/
def typing : List Phrase :=
  [.plain (.arrow .up 0),
    .shifted .right [.key ⟨engraved 0x26 "lL", by decide +kernel⟩ 0, .key ⟨engraved 0x09 "8*", by decide +kernel⟩ 0],
    .plain .capsLock, .plain (.key ⟨engraved 0x1F "sS", by decide +kernel⟩ 0),
    .shifted .left [.key ⟨engraved 0x1F "sS", by decide +kernel⟩ 0]]

theorem decode_strokes_caps :
    (Keyboard.mk false false false).decode
        [0xE0, 0x48, 0xE0, 0xC8, 0x36, 0x26, 0xA6, 0x09, 0x89, 0xB6, 0x3A, 0xBA, 0x1F, 0x9F, 0x2A, 0x1F, 0x9F,
          0xAA]
      = (⟨false, true, false⟩, 0x80 :: str "L*Ss") := by
  have hcodes : typing.flatMap Phrase.codes = [0xE0, 0x48, 0xE0, 0xC8, 0x36, 0x26, 0xA6, 0x09, 0x89, 0xB6,
      0x3A, 0xBA, 0x1F, 0x9F, 0x2A, 0x1F, 0x9F, 0xAA] := by decide +kernel
  rw [← hcodes, decode_strokes]
  decide +kernel

end Keyboard

end OctoOS
