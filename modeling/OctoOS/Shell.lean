import OctoOS.Strings

set_option autoImplicit false

/-! # The line editor (`read_line` of `kernel/shell.c`)

`history` and the caller's buffer are arrays in a byte memory; row `i` of `history` starts
`LINE_MAX * i` bytes behind its address. `len` and `browse` are `int`s. One step of the editor is
one byte from `console_getc`; between two calls of `read_line` the shell may write to its line
buffer, as its commands do. -/

namespace OctoOS

/-- `LINE_MAX`. -/
def lineMax : ℕ := 128

/-- `HIST_MAX`. -/
def histMax : ℕ := 8

/-- `KEY_UP`. -/
def keyUp : UInt8 := 0x80

/-- `KEY_DOWN`. -/
def keyDown : UInt8 := 0x81

/-- `KEY_LEFT`. -/
def keyLeft : UInt8 := 0x82

/-- `KEY_RIGHT`. -/
def keyRight : UInt8 := 0x83

/-- Where the arrays `history` and `buf` are; they are different objects. -/
structure EditLayout where
  history : ℕ
  buf : ℕ
  apart : history + histMax * lineMax ≤ buf ∨ buf + lineMax ≤ history

/-- The memory, `hist_len`, the variables of `read_line`, and what was printed. -/
structure Editor where
  mem : Mem
  histLen : Int
  len : Int
  browse : Int
  esc : ℕ
  out : List UInt8

/-- The address of element `i` of an array of bytes. -/
def elemAddr (a : ℕ) (i : Int) : ℕ := (a + i).toNat

/-- `history[i]`. -/
def EditLayout.row (lay : EditLayout) (i : Int) : ℕ := elemAddr lay.history (lineMax * i)

/-- `"\b \b"`. -/
def eraseText : List UInt8 := [0x08, 0x20, 0x08]

/-- The end of `hist_push`: copy the line to the first unused row. -/
def histAppend (lay : EditLayout) (line : ℕ) (s : Editor) : Option Editor :=
  match strlen s.mem line with
  | none => none
  | some n => some { s with
      mem := memcpy (lay.row s.histLen) line (n + 1) s.mem
      histLen := s.histLen + 1 }

/-- `hist_push`; `none` if a loop over a string does not end. -/
def histPush (lay : EditLayout) (line : ℕ) (s : Editor) : Option Editor :=
  match (if s.histLen ≠ 0 then strcmp s.mem (lay.row (s.histLen - 1)) line else some 1) with
  | none => none
  | some r =>
    if r = 0 then some s
    else if s.histLen = histMax then
      histAppend lay line { s with
        mem := memmove (lay.row 0) (lay.row 1) ((histMax - 1) * lineMax) s.mem
        histLen := s.histLen - 1 }
    else histAppend lay line s

/-- The first loop of `line_replace`, with `n` rounds left: erase the line. -/
def lineErase : ℕ → Editor → Editor
  | 0, s => s
  | n + 1, s =>
    if 0 < s.len then lineErase n { s with len := s.len - 1, out := s.out ++ eraseText } else s

/-- The second loop of `line_replace`, with `n` rounds left: copy `src` to the line. -/
def lineCopy (lay : EditLayout) : ℕ → ℕ → Editor → Option Editor
  | 0, _, _ => none
  | n + 1, src, s =>
    if s.mem src ≠ 0 ∧ s.len < lineMax - 1 then
      lineCopy lay n (src + 1) { s with
        mem := Function.update s.mem (elemAddr lay.buf s.len) (s.mem src)
        len := s.len + 1
        out := s.out ++ [s.mem src] }
    else some s

/-- `line_replace`; without a source the text is `""`, where the second loop ends at once. -/
def lineReplace (lay : EditLayout) (src : Option ℕ) (s : Editor) : Option Editor :=
  let s := lineErase s.len.toNat s
  match src with
  | none => some s
  | some src => lineCopy lay lineMax src s

/-- The escape parser: its next state, and the byte that is left to handle, if any. -/
def escapeStep (esc : ℕ) (c : UInt8) : ℕ × Option UInt8 :=
  if esc = 1 then (if c = 0x5B then 2 else 0, none)
  else if esc = 2 then
    if c = 0x41 then (0, some keyUp)
    else if c = 0x42 then (0, some keyDown)
    else if c = 0x43 then (0, some keyRight)
    else if c = 0x44 then (0, some keyLeft)
    else (0, none)
  else if c = 27 then (1, none)
  else (esc, some c)

/-- `KEY_UP`: one line back in the history. -/
def historyUp (lay : EditLayout) (s : Editor) : Option Editor :=
  if s.histLen = 0 then some s
  else
    let browse := if s.browse < 0 then s.histLen - 1 else if 0 < s.browse then s.browse - 1 else s.browse
    lineReplace lay (some (lay.row browse)) { s with browse := browse }

/-- `KEY_DOWN`: one line on in the history, and then an empty line. -/
def historyDown (lay : EditLayout) (s : Editor) : Option Editor :=
  if s.browse < 0 then some s
  else if s.histLen ≤ s.browse + 1 then lineReplace lay none { s with browse := -1 }
  else lineReplace lay (some (lay.row (s.browse + 1))) { s with browse := s.browse + 1 }

/-- `'\b'`. -/
def eraseChar (s : Editor) : Editor :=
  if 0 < s.len then { s with len := s.len - 1, out := s.out ++ eraseText } else s

/-- A byte of text. -/
def insertChar (lay : EditLayout) (c : UInt8) (s : Editor) : Editor :=
  if s.len < lineMax - 1 then
    { s with
      mem := Function.update s.mem (elemAddr lay.buf s.len) c
      len := s.len + 1
      out := s.out ++ [c]
      browse := -1 }
  else s

/-- The end of the line. -/
def endLine (lay : EditLayout) (s : Editor) : Option Editor :=
  let s := { s with
    mem := Function.update s.mem (elemAddr lay.buf s.len) 0
    out := s.out ++ [0x0A] }
  if 0 < s.len then histPush lay lay.buf s else some s

/-- What `read_line` does with a byte behind the escape parser; `true` when it returns. -/
def handleKey (lay : EditLayout) (c : UInt8) (s : Editor) : Option (Bool × Editor) :=
  if c = keyUp then (historyUp lay s).map (fun s => (false, s))
  else if c = keyDown then (historyDown lay s).map (fun s => (false, s))
  else if c = keyLeft ∨ c = keyRight then some (false, s)
  else if c = 0x0D ∨ c = 0x0A then (endLine lay s).map (fun s => (true, s))
  else if c = 0x08 ∨ c = 0x7F then some (false, eraseChar s)
  else if c < 0x20 ∨ 0x7E < c then some (false, s)
  else some (false, insertChar lay c s)

/-- One round of the loop of `read_line`. -/
def readLineStep (lay : EditLayout) (c : UInt8) (s : Editor) : Option (Bool × Editor) :=
  match escapeStep s.esc c with
  | (esc, none) => some (false, { s with esc := esc })
  | (esc, some c) => handleKey lay c { s with esc := esc }

/-- `read_line` at its start. -/
def readLineStart (s : Editor) : Editor := { s with len := 0, browse := -1, esc := 0 }

/-- The states of the editor, over any bytes and any number of calls. Between two calls everything
    but the history may be written. -/
inductive EditRun (lay : EditLayout) : Editor → Prop where
  | boot (mem : Mem) : EditRun lay ⟨mem, 0, 0, -1, 0, []⟩
  | byte {s s' : Editor} (c : UInt8) : EditRun lay s → readLineStep lay c s = some (false, s') →
      EditRun lay s'
  | next {s s' : Editor} (c : UInt8) (mem : Mem) : EditRun lay s →
      readLineStep lay c s = some (true, s') →
      (∀ a, lay.history ≤ a → a < lay.history + histMax * lineMax → mem a = s'.mem a) →
      EditRun lay (readLineStart { s' with mem := mem })

end OctoOS
