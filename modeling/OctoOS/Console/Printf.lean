import OctoOS.Shell.Numbers

set_option autoImplicit false

/-! # Formatted output (`kprintf` of `kernel/console.c`)

The loop of `kprintf` over a format with its arguments. A format is a list of pieces, each with the
argument that goes with it, and what `kprintf` writes is what the pieces show, one after the other:
numbers as Lean writes them. The 16 bytes of `print_uint`'s buffer are enough for every number, and
`parse_dec` and `parse_hex` read back the number that was printed.

A missing argument, one of the wrong kind and the negation of the smallest `int` are undefined. -/

namespace OctoOS

open Numeral

/-- An argument: a string, or `none` for a null pointer; or a word, also for `%c` and `%d`. -/
inductive Arg where
  | str (s : Option Bytes)
  | word (w : UInt32)

/-- A conversion with the word it takes. -/
def takeWord (f : UInt32 → Option Bytes) : List Arg → Option (Bytes × List Arg)
  | .word w :: args => (f w).map (·, args)
  | _ => none

/-- `%d`: the sign, and the digits of `-v` as an unsigned word. -/
def intText (w : UInt32) : Option Bytes :=
  if w = 0x80000000 then none
  else if 0x80000000 < w then some (0x2D :: uintText (-w) 10 1)
  else some (uintText w 10 1)

/-- The `switch` of `kprintf`: what is written for the character `k` behind a `%`, and the arguments left. -/
def convert (k : UInt8) (args : List Arg) : Option (Bytes × List Arg) :=
  if k = 0x73 then
    match args with
    | .str s :: args => some (s.getD (str "(null)"), args)
    | _ => none
  else if k = 0x63 then takeWord (fun w => some [w.toUInt8]) args
  else if k = 0x64 then takeWord intText args
  else if k = 0x75 then takeWord (fun w => some (uintText w 10 1)) args
  else if k = 0x78 then takeWord (fun w => some (uintText w 16 1)) args
  else if k = 0x70 then takeWord (fun w => some (str "0x" ++ uintText w 16 8)) args
  else if k = 0x25 then some ([0x25], args)
  else some ([0x25, k], args)

/-- `kprintf`; a `%` at the end of the format ends it. -/
def kprintf : Bytes → List Arg → Tty → Option Tty
  | [], _, s => some s
  | c :: fmt, args, s =>
    if c ≠ 0x25 then (consolePutc c s).bind (kprintf fmt args)
    else
      match fmt with
      | [] => some s
      | k :: fmt =>
        match convert k args with
        | some (t, args) => (consolePuts t s).bind (kprintf fmt args)
        | none => none

/-- The text that `kprintf` writes. -/
def kprintfText : Bytes → List Arg → Option Bytes
  | [], _ => some []
  | c :: fmt, args =>
    if c ≠ 0x25 then (kprintfText fmt args).map (c :: ·)
    else
      match fmt with
      | [] => some []
      | k :: fmt =>
        match convert k args with
        | some (t, args) => (kprintfText fmt args).map (t ++ ·)
        | none => none

theorem consolePuts_append (t t' : Bytes) (s : Tty) :
    consolePuts (t ++ t') s = (consolePuts t s).bind (consolePuts t') := by
  induction t generalizing s with
  | nil => rfl
  | cons c t ih =>
    rw [List.cons_append, consolePuts, consolePuts, Option.bind_assoc]
    congr 1
    funext s'
    exact ih s'

theorem flatMap_serialPutc {t : Bytes} (h : 0x0A ∉ t) : t.flatMap serialPutc = t := by
  induction t with
  | nil => rfl
  | cons c t ih =>
    obtain ⟨hc, ht⟩ := not_or.1 (fun hm => h (List.mem_cons.2 hm))
    rw [List.flatMap_cons, ih ht, serialPutc, if_neg (Ne.symm hc)]
    rfl

theorem kprintf_char {c : UInt8} (hc : c ≠ 0x25) (fmt : Bytes) (args : List Arg) (s : Tty) :
    kprintf (c :: fmt) args s = (consolePutc c s).bind (kprintf fmt args) := by
  rw [kprintf.eq_def]
  exact if_pos hc

theorem kprintfText_char {c : UInt8} (hc : c ≠ 0x25) (fmt : Bytes) (args : List Arg) :
    kprintfText (c :: fmt) args = (kprintfText fmt args).map (c :: ·) := by
  rw [kprintfText.eq_def]
  exact if_pos hc

/-- `kprintf` writes its text, or it is undefined. -/
theorem kprintf_eq (fmt : Bytes) (args : List Arg) (s : Tty) :
    kprintf fmt args s = (kprintfText fmt args).bind (fun t => consolePuts t s) := by
  fun_induction kprintfText fmt args generalizing s with
  | case1 args => rfl
  | case2 c fmt args hc ih =>
    rw [kprintf_char hc, Option.bind_map]
    cases hput : consolePutc c s with
    | none =>
      cases kprintfText fmt args with
      | none => rfl
      | some t => simp [consolePuts, hput]
    | some s' =>
      show kprintf fmt args s' = _
      rw [ih s']
      congr 1
      funext t
      simp [consolePuts, hput]
  | case3 c args hc =>
    rw [kprintf, if_neg hc]
    rfl
  | case4 c args hc k fmt t args' hconv ih =>
    rw [kprintf, if_neg hc]
    simp only [hconv, Option.bind_map]
    cases hput : consolePuts t s with
    | none =>
      cases kprintfText fmt args' with
      | none => rfl
      | some t' => simp [consolePuts_append, hput]
    | some s' =>
      show kprintf fmt args' s' = _
      rw [ih s']
      congr 1
      funext t'
      simp [consolePuts_append, hput]
  | case5 c args hc k fmt hconv =>
    rw [kprintf, if_neg hc]
    simp only [hconv]
    rfl

/-! ## Digits -/

/-- Characters as bytes. -/
def ascii (cs : List Char) : Bytes := cs.map fun c => UInt8.ofNat c.toNat

theorem digitChar_eq {d : UInt32} (hd : d.toNat < 16) :
    digitChar d = UInt8.ofNat (Nat.digitChar d.toNat).toNat := by
  have h : ∀ k < 16, digitChar (UInt32.ofNat k) = UInt8.ofNat (Nat.digitChar k).toNat := by decide +kernel
  have hk := h d.toNat hd
  rwa [UInt32.ofNat_toNat] at hk

/-- The digits that `print_uint` collects, from the last to the first, with room for them. -/
theorem reverse_uintDigits {base : UInt32} (hb : 1 < base.toNat) (hb' : base.toNat ≤ 16) (n : ℕ) (v : UInt32)
    (hv : v.toNat < base.toNat ^ n) (hn : 0 < n) :
    (uintDigits base n v).reverse = ascii (Nat.toDigits base.toNat v.toNat) := by
  induction n generalizing v with
  | zero => exact absurd hn (Nat.lt_irrefl 0)
  | succ n ih =>
    have hmod : (v % base).toNat = v.toNat % base.toNat := UInt32.toNat_mod v base
    have hdiv : (v / base).toNat = v.toNat / base.toNat := UInt32.toNat_div v base
    have hlt : v.toNat % base.toNat < 16 := Nat.lt_of_lt_of_le (Nat.mod_lt _ (by omega)) hb'
    have hdigit := digitChar_eq (hmod ▸ hlt)
    rw [hmod] at hdigit
    have hzero : v / base = 0 ↔ v.toNat < base.toNat := by
      rw [← UInt32.toNat_inj, hdiv]
      exact Nat.div_eq_zero_iff_lt (by omega)
    rw [uintDigits, Nat.toDigits_eq_if hb, hdigit]
    by_cases hlast : v.toNat < base.toNat
    · rw [if_pos hlast, if_pos (hzero.2 hlast), Nat.mod_eq_of_lt hlast]
      rfl
    · rw [if_neg hlast, if_neg (fun h => hlast (hzero.1 h)), List.reverse_cons]
      have hpow : v.toNat / base.toNat < base.toNat ^ n := by
        rw [Nat.pow_succ] at hv
        exact Nat.div_lt_of_lt_mul (by rwa [Nat.mul_comm])
      have hpos : 0 < n := by
        refine Nat.pos_of_ne_zero fun h => hlast ?_
        rw [h] at hv
        simpa using hv
      rw [ih (v / base) (hdiv ▸ hpow) hpos, hdiv, ascii, ascii, List.map_append]
      rfl

theorem uintText_eq (base : UInt32) (hb : 1 < base.toNat) (hb' : base.toNat ≤ 16)
    (hroom : 2 ^ 32 ≤ base.toNat ^ 16) (v : UInt32) (minDigits : ℕ) :
    uintText v base minDigits
      = List.replicate (minDigits - (Nat.toDigits base.toNat v.toNat).length) 0x30
        ++ ascii (Nat.toDigits base.toNat v.toNat) := by
  have hdigits := reverse_uintDigits hb hb' 16 v (Nat.lt_of_lt_of_le v.toNat_lt hroom) (by decide)
  have hlen := congrArg List.length hdigits
  rw [List.length_reverse, ascii, List.length_map] at hlen
  rw [uintText, List.reverse_append, hdigits, List.reverse_replicate, hlen]

/-- At least one digit is written. -/
theorem uintText_one (base : UInt32) (hb : 1 < base.toNat) (hb' : base.toNat ≤ 16)
    (hroom : 2 ^ 32 ≤ base.toNat ^ 16) (v : UInt32) :
    uintText v base 1 = ascii (Nat.toDigits base.toNat v.toNat) := by
  rw [uintText_eq base hb hb' hroom, Nat.sub_eq_zero_of_le Nat.length_toDigits_pos]
  rfl

theorem uintText_ten (v : UInt32) : uintText v 10 1 = ascii (Nat.toDigits 10 v.toNat) :=
  uintText_one 10 (by decide) (by decide) (by decide) v

theorem uintText_sixteen (v : UInt32) : uintText v 16 1 = ascii (Nat.toDigits 16 v.toNat) :=
  uintText_one 16 (by decide) (by decide) (by decide) v

/-! ## Pieces -/

/-- A piece of a format, with its argument. -/
inductive Piece where
  | text (t : Bytes)
  | string (s : Option Bytes)
  | char (c : UInt8)
  | int (v : ℤ)
  | uint (w : UInt32)
  | hex (w : UInt32)
  | pointer (w : UInt32)
  | percent
  | unknown (k : UInt8)

namespace Piece

/-- How a piece is spelled in the format. -/
def fmt : Piece → Bytes
  | .text t => t
  | .string _ => str "%s"
  | .char _ => str "%c"
  | .int _ => str "%d"
  | .uint _ => str "%u"
  | .hex _ => str "%x"
  | .pointer _ => str "%p"
  | .percent => str "%%"
  | .unknown k => [0x25, k]

/-- The argument of a piece; an `int` is passed as its word. -/
def args : Piece → List Arg
  | .string s => [.str s]
  | .char c => [.word c.toUInt32]
  | .int v => [.word (UInt32.ofInt v)]
  | .uint w | .hex w | .pointer w => [.word w]
  | _ => []

/-- What a piece shows. -/
def shown : Piece → Bytes
  | .text t => t
  | .string s => s.getD (str "(null)")
  | .char c => [c]
  | .int v => (if v < 0 then [0x2D] else []) ++ ascii (Nat.toDigits 10 v.natAbs)
  | .uint w => ascii (Nat.toDigits 10 w.toNat)
  | .hex w => ascii (Nat.toDigits 16 w.toNat)
  | .pointer w => str "0x" ++ (List.replicate (8 - (Nat.toDigits 16 w.toNat).length) 0x30
      ++ ascii (Nat.toDigits 16 w.toNat))
  | .percent => [0x25]
  | .unknown k => [0x25, k]

/-- Strings end before their NUL; text has no `%`, an `int` can be negated, and an unknown character
has no meaning behind `%`. -/
def Ok : Piece → Prop
  | .text t => 0 ∉ t ∧ 0x25 ∉ t
  | .string (some s) => 0 ∉ s
  | .int v => -2 ^ 31 < v ∧ v < 2 ^ 31
  | .unknown k => k ≠ 0 ∧ k ∉ str "scduxp%"
  | _ => True

instance decidableOk (p : Piece) : Decidable p.Ok := by
  unfold Ok
  split <;> infer_instance

theorem intText_eq {v : ℤ} (hlo : -2 ^ 31 < v) (hhi : v < 2 ^ 31) :
    intText (UInt32.ofInt v) = some (shown (.int v)) := by
  have hword : (UInt32.ofInt v).toNat = (v % 2 ^ 32).toNat := by
    unfold UInt32.ofInt
    rw [UInt32.toNat_ofNat']
    omega
  have hmin : UInt32.ofInt v ≠ 0x80000000 := by
    rw [Ne, ← UInt32.toNat_inj, hword]
    show ¬ (v % 2 ^ 32).toNat = 2147483648
    omega
  have hsign : 0x80000000 < UInt32.ofInt v ↔ v < 0 := by
    rw [UInt32.lt_iff_toNat_lt, hword]
    show 2147483648 < (v % 2 ^ 32).toNat ↔ v < 0
    omega
  rw [intText, if_neg hmin, shown]
  by_cases hneg : v < 0
  · have habs : (-UInt32.ofInt v).toNat = v.natAbs := by
      rw [UInt32.toNat_neg, hword]
      show (4294967296 - (v % 2 ^ 32).toNat) % 4294967296 = v.natAbs
      omega
    rw [if_pos (hsign.2 hneg), if_pos hneg, uintText_ten, habs]
    rfl
  · have habs : (UInt32.ofInt v).toNat = v.natAbs := by
      rw [hword]
      omega
    rw [if_neg (fun h => hneg (hsign.1 h)), if_neg hneg, uintText_ten, habs]
    rfl

theorem kprintfText_convert {k : UInt8} {as as' : List Arg} {t : Bytes} (h : convert k as = some (t, as'))
    (f : Bytes) : kprintfText (0x25 :: k :: f) as = (kprintfText f as').map (t ++ ·) := by
  rw [kprintfText, if_neg (not_not.2 rfl), h]

/-- A piece at the front of a format takes its arguments and is shown. -/
theorem kprintfText_piece {p : Piece} (hp : p.Ok) (f : Bytes) (as : List Arg) :
    kprintfText (p.fmt ++ f) (p.args ++ as) = (kprintfText f as).map (p.shown ++ ·) := by
  cases p with
  | text t =>
    show kprintfText (t ++ f) as = (kprintfText f as).map (t ++ ·)
    induction t with
    | nil => exact Option.map_id'.symm
    | cons c t ih =>
      obtain ⟨-, ht0⟩ := not_or.1 (fun h => hp.1 (List.mem_cons.2 h))
      obtain ⟨hc, ht⟩ := not_or.1 (fun h => hp.2 (List.mem_cons.2 h))
      rw [List.cons_append, kprintfText_char (Ne.symm hc), ih ⟨ht0, ht⟩, Option.map_map]
      rfl
  | string _ | percent => exact kprintfText_convert rfl f
  | char c =>
    have h : convert 0x63 (.word c.toUInt32 :: as) = some ([c], as) := by
      show some ([c.toUInt32.toUInt8], as) = _
      rw [UInt8.toUInt8_toUInt32]
    exact kprintfText_convert h f
  | int v =>
    have h : convert 0x64 (.word (UInt32.ofInt v) :: as) = some (shown (.int v), as) := by
      show (intText (UInt32.ofInt v)).map (·, as) = _
      rw [intText_eq hp.1 hp.2]
      rfl
    exact kprintfText_convert h f
  | uint w =>
    have h : convert 0x75 (.word w :: as) = some (shown (.uint w), as) := by
      show some (uintText w 10 1, as) = _
      rw [uintText_ten]
      rfl
    exact kprintfText_convert h f
  | hex w =>
    have h : convert 0x78 (.word w :: as) = some (shown (.hex w), as) := by
      show some (uintText w 16 1, as) = _
      rw [uintText_sixteen]
      rfl
    exact kprintfText_convert h f
  | pointer w =>
    have h : convert 0x70 (.word w :: as) = some (shown (.pointer w), as) := by
      show some (str "0x" ++ uintText w 16 8, as) = _
      rw [uintText_eq 16 (by decide) (by decide) (by decide)]
      rfl
    exact kprintfText_convert h f
  | unknown k =>
    have hother : convert k as = some ([0x25, k], as) := by
      have hk : ∀ c ∈ str "scduxp%", k ≠ c := fun c hc h => hp.2 (h ▸ hc)
      unfold convert
      rw [if_neg (hk 0x73 (by decide)), if_neg (hk 0x63 (by decide)),
        if_neg (hk 0x64 (by decide)), if_neg (hk 0x75 (by decide)), if_neg (hk 0x78 (by decide)),
        if_neg (hk 0x70 (by decide)), if_neg (hk 0x25 (by decide))]
    exact kprintfText_convert hother f

end Piece

theorem kprintfText_pieces {ps : List Piece} (hps : ∀ p ∈ ps, p.Ok) :
    kprintfText (ps.flatMap Piece.fmt) (ps.flatMap Piece.args) = some (ps.flatMap Piece.shown) := by
  induction ps with
  | nil => rfl
  | cons p ps ih =>
    rw [List.flatMap_cons, List.flatMap_cons, List.flatMap_cons,
      Piece.kprintfText_piece (hps p List.mem_cons_self), ih (fun q hq => hps q (List.mem_cons_of_mem _ hq))]
    rfl

/-- `kprintf` writes what the pieces of its format show, one after the other, to the screen and to the
    serial line, where a carriage return goes before every line feed. -/
theorem kprintf_shows (ps : List Piece) (hps : ∀ p ∈ ps, p.Ok) (s : Tty) :
    kprintf (ps.flatMap Piece.fmt) (ps.flatMap Piece.args) s = consolePuts (ps.flatMap Piece.shown) s ∧
      ∀ s', kprintf (ps.flatMap Piece.fmt) (ps.flatMap Piece.args) s = some s' →
        s'.serial = s.serial ++ (ps.flatMap Piece.shown).flatMap serialPutc := by
  have hprint : kprintf (ps.flatMap Piece.fmt) (ps.flatMap Piece.args) s
      = consolePuts (ps.flatMap Piece.shown) s := by
    rw [kprintf_eq, kprintfText_pieces hps]
    rfl
  exact ⟨hprint, fun s' hs' => consolePuts_serial (hprint.symm.trans hs')⟩

/-- The message of a fault in the kernel. -/
def panicPieces (vec : UInt32) (name : Bytes) (err eip : UInt32) : List Piece :=
  [.text (str "\nPANIC: exception "), .uint vec, .text (str " ("), .string (some name), .text (str "), err="),
    .hex err, .text (str ", eip="), .pointer eip, .text (str "\n")]

/-- The whole message reaches the serial line. -/
theorem kprintf_shows_panic : ∃ s',
    kprintf (str "\nPANIC: exception %u (%s), err=%x, eip=%p\n")
        [.word 14, .str (some (str "page fault")), .word 2, .word 0x101F] (typedLine []) = some s' ∧
    s'.serial = str "\r\nPANIC: exception 14 (page fault), err=2, eip=0x0000101f\r\n" := by
  have hok : ∀ p ∈ panicPieces 14 (str "page fault") 2 0x101F, p.Ok := by decide +kernel
  have hsome : (kprintf ((panicPieces 14 (str "page fault") 2 0x101F).flatMap Piece.fmt)
      ((panicPieces 14 (str "page fault") 2 0x101F).flatMap Piece.args) (typedLine [])).isSome := by
    rw [(kprintf_shows _ hok _).1]
    decide +kernel
  obtain ⟨s', hs'⟩ := Option.isSome_iff_exists.1 hsome
  refine ⟨s', hs', ((kprintf_shows _ hok _).2 s' hs').trans ?_⟩
  decide +kernel

/-! ## Reading back -/

/-- What `print_uint` writes is a numeral for the number, also when it fills up with zeros. -/
theorem numeral_uintText {value : UInt8 → Option ℕ} (base : UInt32) (hb : 1 < base.toNat) (hb' : base.toNat ≤ 16)
    (hroom : 2 ^ 32 ≤ base.toNat ^ 16)
    (hval : ∀ d < base.toNat, value (UInt8.ofNat (Nat.digitChar d).toNat) = some d)
    (v : UInt32) (minDigits : ℕ) :
    numeral value base.toNat (uintText v base minDigits) = some v.toNat := by
  have hzero : value 0x30 = some 0 := hval 0 (by omega)
  rw [uintText_eq base hb hb' hroom]
  exact numeral_zeros hzero (numeral_toDigits hb hval v.toNat) _

theorem decimal_uintText (v : UInt32) (minDigits : ℕ) : decimal (uintText v 10 minDigits) = some v.toNat :=
  numeral_uintText 10 (by decide) (by decide) (by decide) (by decide) v minDigits

theorem hexadecimal_uintText (v : UInt32) (minDigits : ℕ) :
    hexadecimal (uintText v 16 minDigits) = some v.toNat :=
  numeral_uintText 16 (by decide) (by decide) (by decide) (by decide) v minDigits

/-- A numeral has no `x`, so it has no mark. -/
theorem withoutHexMark_numeral {t : Bytes} {n : ℕ} (h : hexadecimal t = some n) : withoutHexMark t = t := by
  have hmark : ∀ c : UInt8, hexValue c = none → t.take 2 ≠ [0x30, c] := by
    intro c hc htake
    have hmem : c ∈ t.take 2 := by simp [htake]
    exact notMem_of_numeral h hc (List.mem_of_mem_take hmem)
  rw [withoutHexMark, if_neg (not_or.2 ⟨hmark 0x78 (by decide), hmark 0x58 (by decide)⟩)]

theorem hexNumber_marked (t : Bytes) : hexNumber (0x30 :: 0x78 :: t) = hexadecimal t := by
  simp [hexNumber, withoutHexMark]

theorem length_uintDigits_le (base : UInt32) (n : ℕ) (v : UInt32) : (uintDigits base n v).length ≤ n := by
  induction n generalizing v with
  | zero => exact Nat.le_refl 0
  | succ n ih =>
    rw [uintDigits, List.length_cons]
    split
    · simp
    · exact Nat.succ_le_succ (ih _)

theorem length_uintText_le (base v : UInt32) {minDigits : ℕ} (hmin : minDigits ≤ 16) :
    (uintText v base minDigits).length ≤ 16 := by
  have hlen := length_uintDigits_le base 16 v
  rw [uintText, List.length_reverse, List.length_append, List.length_replicate]
  omega

/-- The number that `%u` wrote is read back by `parse_dec`, the one that `%x` or `%p` wrote by
`parse_hex`: `t` is what came out of the serial line. -/
theorem printed_number_read_back (w : UInt32) (k : UInt8) (s s' : Tty) (t : Bytes) (m : Mem) (a : ℕ)
    (hprint : kprintf [0x25, k] [.word w] s = some s') (ht : s'.serial = s.serial ++ t)
    (hm : IsCString m a t) :
    (k = 0x75 → parseDec m a = some (some w)) ∧
    (k = 0x78 ∨ k = 0x70 → parseHex m a = some (some w)) := by
  rw [kprintf_eq] at hprint
  obtain ⟨text, htext, hputs⟩ := Option.bind_eq_some_iff.1 hprint
  -- no line feed is among the digits
  have hsent : 0x0A ∉ text → t = text := fun hlf => by
    rw [consolePuts_serial hputs, flatMap_serialPutc hlf] at ht
    exact (List.append_cancel_left ht).symm
  have hword : UInt32.ofNat w.toNat = w := UInt32.ofNat_toNat
  have hbound : 18 < stringLoopBound := by decide
  have hone : ∀ base, (uintText w base 1).length ≤ 16 := fun base => length_uintText_le base w (by decide)
  refine ⟨?_, ?_⟩
  · rintro rfl
    obtain rfl : uintText w 10 1 = text := by simpa [kprintfText, convert, takeWord] using htext
    obtain rfl := hsent (notMem_of_numeral (decimal_uintText w 1) rfl)
    rw [parseDec_eq hm (by have := hone 10; omega), decimal_uintText, Option.map_some, hword]
  · rintro (rfl | rfl)
    · obtain rfl : uintText w 16 1 = text := by simpa [kprintfText, convert, takeWord] using htext
      have hnum := hexadecimal_uintText w 1
      obtain rfl := hsent (notMem_of_numeral hnum rfl)
      rw [parseHex_eq hm (by have := hone 16; omega), hexNumber, withoutHexMark_numeral hnum, hnum,
        Option.map_some, hword]
    · obtain rfl : 0x30 :: 0x78 :: uintText w 16 8 = text := by
        simpa [kprintfText, convert, takeWord, str] using htext
      obtain rfl := hsent (by simpa using notMem_of_numeral (hexadecimal_uintText w 8) rfl)
      have hlen : (0x30 :: 0x78 :: uintText w 16 8).length < stringLoopBound := by
        have := length_uintText_le 16 w (by decide : 8 ≤ 16)
        simp only [List.length_cons]
        omega
      rw [parseHex_eq hm hlen, hexNumber_marked, hexadecimal_uintText, Option.map_some, hword]

/-- The pointer 0xb8000. -/
theorem printed_number_read_back_pointer :
    parseHex (typedLine (str "0x000b8000")).vga.mem 0x800 = some (some 0xB8000) := by
  have hprint : (kprintf (str "%p") [.word 0xB8000] (typedLine [])).isSome := by decide +kernel
  obtain ⟨s', hs'⟩ := Option.isSome_iff_exists.1 hprint
  have hserial : (kprintf (str "%p") [.word 0xB8000] (typedLine [])).map Tty.serial
      = some (str "0x000b8000") := by decide +kernel
  rw [hs'] at hserial
  exact (printed_number_read_back 0xB8000 0x70 (typedLine []) s' (str "0x000b8000")
    (typedLine (str "0x000b8000")).vga.mem 0x800 hs' (Option.some.inj hserial) (by decide +kernel)).2
    (Or.inr rfl)

end OctoOS
