import OctoOS.Shell.Commands
import OctoOS.Lib.Numeral

set_option autoImplicit false

/-! # The numbers that commands read

`parse_dec` and `parse_hex` accept exactly the numerals, of any length, and deliver the number they
denote modulo 2^32. So they are right on every string but the numerals for 2^32 and above, which
they do not refuse. So `color` and `peek` act on the numbers that were typed, unless they take such a
numeral for a number they accept. -/

namespace OctoOS

open Numeral

variable {m m' : Mem} {a : ℕ} {t : List UInt8} {s : Tty} {fuel : ℕ}

/-! ## Digits -/

theorem decDigit_eq : ∀ c, decDigit c = (decValue c).map UInt32.ofNat :=
  forall_byte (by decide +kernel)

theorem hexDigit_eq : ∀ c, hexDigit c = (hexValue c).map UInt32.ofNat :=
  forall_byte (by decide +kernel)

/-! ## Numerals -/

/-- A string begins with its end if it is empty. -/
theorem IsCString.eq_zero_iff (h : IsCString m a t) : m a = 0 ↔ t = [] := by
  cases t with
  | nil => exact iff_of_true h rfl
  | cons c t =>
    obtain ⟨hc, ha, -⟩ := h
    simp [ha, hc]

section

variable {digit : UInt8 → Option UInt32} {value : UInt8 → Option ℕ}
  (hdigit : ∀ c, digit c = (value c).map UInt32.ofNat)

include hdigit

theorem parseLoop_eq (join : UInt32 → UInt32 → UInt32) {fuel : ℕ} (h : IsCString m a t)
    (hfuel : t.length < fuel) (v : UInt32) :
    parseLoop digit join m fuel a v
      = some ((t.mapM value).map (fun ds => ds.foldl (fun v d => join v (UInt32.ofNat d)) v)) := by
  induction t generalizing a fuel v with
  | nil =>
    obtain ⟨fuel, rfl⟩ : ∃ k, fuel = k + 1 := ⟨fuel - 1, by omega⟩
    have ha : m a = 0 := h
    simp [parseLoop, ha]
  | cons c t ih =>
    rw [List.length_cons] at hfuel
    obtain ⟨fuel, rfl⟩ : ∃ k, fuel = k + 1 := ⟨fuel - 1, by omega⟩
    obtain ⟨hc, rfl, hs⟩ := h
    rw [parseLoop, if_neg hc, hdigit, List.mapM_cons]
    cases hv : value (m a) with
    | none => rfl
    | some d =>
      simp only [Option.map_some]
      rw [ih hs (by omega)]
      cases t.mapM value <;> rfl

/-- A parser whose accumulator takes one digit after the other. -/
theorem parseNumber_eq {join : UInt32 → UInt32 → UInt32} {base : ℕ}
    (hvalue : ∀ c d, value c = some d → d < base)
    (hjoin : ∀ v d, d < base → (join v (UInt32.ofNat d)).toNat = (v.toNat * base + d) % 2 ^ 32)
    (h : IsCString m a t) (hlen : t.length < stringLoopBound) :
    parseNumber digit join m a = some ((numeral value base t).map UInt32.ofNat) := by
  rw [parseNumber, numeral]
  simp only [h.eq_zero_iff]
  by_cases hnil : t = []
  · rw [if_pos hnil, if_pos hnil]
    rfl
  · rw [if_neg hnil, if_neg hnil, parseLoop_eq hdigit join h hlen]
    cases hds : t.mapM value with
    | none => rfl
    | some ds =>
      simp only [Option.map_some, foldl_eq_ofNat hjoin (lt_of_mem_mapM hvalue hds)]

end

theorem decJoin_toNat (v : UInt32) (d : ℕ) (_ : d < 10) :
    (v * 10 + UInt32.ofNat d).toNat = (v.toNat * 10 + d) % 2 ^ 32 := by
  rw [UInt32.toNat_add, UInt32.toNat_mul, UInt32.toNat_ofNat', show (10 : UInt32).toNat = 10 from rfl]
  omega

/-- The digit goes to the four bits that the shift has freed. -/
theorem hexJoin_toNat (v : UInt32) (d : ℕ) (hd : d < 16) :
    ((v <<< 4) ||| UInt32.ofNat d).toNat = (v.toNat * 16 + d) % 2 ^ 32 := by
  have hshift : v.toNat <<< 4 % 2 ^ 32 = 2 ^ 4 * (v.toNat % 2 ^ 28) := by
    rw [Nat.shiftLeft_eq]
    omega
  rw [UInt32.toNat_or, UInt32.toNat_shiftLeft, UInt32.toNat_ofNat', Nat.mod_eq_of_lt (by omega : d < 2 ^ 32),
    show (4 : UInt32).toNat % 32 = 4 from rfl, hshift, ← Nat.two_pow_add_eq_or_of_lt (by omega : d < 2 ^ 4)]
  omega

/-- `parse_dec` on every string. -/
theorem parseDec_eq (h : IsCString m a t) (hlen : t.length < stringLoopBound) :
    parseDec m a = some ((decimal t).map UInt32.ofNat) :=
  parseNumber_eq decDigit_eq decValue_lt decJoin_toNat h hlen

/-- The text behind an optional `0x` or `0X`. -/
def withoutHexMark (t : List UInt8) : List UInt8 :=
  if t.take 2 = [0x30, 0x78] ∨ t.take 2 = [0x30, 0x58] then t.drop 2 else t

/-- What a text denotes to `parse_hex`. -/
def hexNumber (t : List UInt8) : Option ℕ := hexadecimal (withoutHexMark t)

/-- The first two bytes of a string say whether there is a mark. -/
theorem hexMark_iff (h : IsCString m a t) :
    (m a = 0x30 ∧ (m (a + 1) = 0x78 ∨ m (a + 1) = 0x58)) ↔
      (t.take 2 = [0x30, 0x78] ∨ t.take 2 = [0x30, 0x58]) := by
  match t, h with
  | [], h =>
    have ha : m a = 0 := h
    simp [ha]
  | [c], ⟨hc, ha, hend⟩ =>
    have hend : m (a + 1) = 0 := hend
    simp [hend]
  | c :: d :: t, ⟨_, ha, _, hb, _⟩ =>
    simp [ha, hb, and_or_left]

/-- The end of a string is a string. -/
theorem IsCString.suffix {s : List UInt8} (h : IsCString m a (s ++ t)) :
    IsCString m (a + s.length) t := by
  induction s generalizing a with
  | nil => exact h
  | cons c s ih =>
    rw [List.length_cons, Nat.add_comm s.length 1, ← Nat.add_assoc]
    exact ih h.2.2

theorem IsCString.dropWhile (h : IsCString m a t) (p : UInt8 → Bool) :
    IsCString m (a + (t.takeWhile p).length) (t.dropWhile p) := by
  apply IsCString.suffix
  rwa [List.takeWhile_append_dropWhile]

/-- A 0 behind its first bytes makes them a string. -/
theorem IsCString.cut {s : List UInt8} (h : IsCString m a (s ++ t)) :
    IsCString (Function.update m (a + s.length) 0) a s := by
  induction s generalizing a with
  | nil => exact Function.update_self ..
  | cons c s ih =>
    obtain ⟨hc, ha, hs⟩ := h
    rw [List.length_cons, Nat.add_comm s.length 1, ← Nat.add_assoc]
    refine ⟨hc, ?_, ih hs⟩
    rw [Function.update_of_ne (by omega)]
    exact ha

/-- `parse_hex` on every string. -/
theorem parseHex_eq (h : IsCString m a t) (hlen : t.length < stringLoopBound) :
    parseHex m a = some ((hexNumber t).map UInt32.ofNat) := by
  rw [parseHex, hexNumber, withoutHexMark]
  simp only [hexMark_iff h]
  split_ifs with hmark
  · have htwo : (t.take 2).length = 2 := by
      rcases hmark with hmark | hmark <;> rw [hmark] <;> rfl
    have hdrop : IsCString m (a + (t.take 2).length) (t.drop 2) := by
      apply IsCString.suffix
      rwa [List.take_append_drop]
    rw [htwo] at hdrop
    exact parseNumber_eq hexDigit_eq hexValue_lt hexJoin_toNat hdrop (by simp; omega)
  · exact parseNumber_eq hexDigit_eq hexValue_lt hexJoin_toNat h hlen

/-! ## Arguments -/

/-- The first word of a text. -/
def argWord (t : List UInt8) : List UInt8 := t.takeWhile (· != 0x20)

/-- What comes behind the first word and the spaces after it. -/
def argRest (t : List UInt8) : List UInt8 := (t.dropWhile (· != 0x20)).dropWhile (· == 0x20)

/-- A loop that moves a pointer on while the byte under it satisfies `p` stops behind the longest such
    beginning of a string. -/
theorem scan_eq {scan : ℕ → ℕ → Option ℕ} {p : UInt8 → Bool}
    (hscan : ∀ k b, scan (k + 1) b = if m b ≠ 0 ∧ p (m b) then scan k (b + 1) else some b)
    (h : IsCString m a t) (hfuel : t.length < fuel) :
    scan fuel a = some (a + (t.takeWhile p).length) := by
  induction t generalizing a fuel with
  | nil =>
    obtain ⟨fuel, rfl⟩ : ∃ k, fuel = k + 1 := ⟨fuel - 1, by omega⟩
    have ha : m a = 0 := h
    simp [hscan, ha]
  | cons c t ih =>
    rw [List.length_cons] at hfuel
    obtain ⟨fuel, rfl⟩ : ∃ k, fuel = k + 1 := ⟨fuel - 1, by omega⟩
    obtain ⟨hc, rfl, hs⟩ := h
    rw [hscan, List.takeWhile_cons]
    by_cases hp : p (m a) = true
    · rw [if_pos ⟨hc, hp⟩, if_pos hp, ih hs (by omega), List.length_cons]
      congr 1
      omega
    · rw [if_neg (fun hand => hp hand.2), if_neg hp, List.length_nil, Nat.add_zero]

theorem skipWord_eq (h : IsCString m a t) (hfuel : t.length < fuel) :
    skipWord m fuel a = some (a + (argWord t).length) := by
  refine scan_eq (fun k b => ?_) h hfuel
  simp [skipWord]

theorem skipSpaces_eq (h : IsCString m a t) (hfuel : t.length < fuel) :
    skipSpaces m fuel a = some (a + (t.takeWhile (· == 0x20)).length) := by
  refine scan_eq (fun k b => ?_) h hfuel
  -- a space is not the end of the string
  have hspace : m b ≠ 0 ∧ (m b == 0x20) = true ↔ m b = 0x20 := by
    rw [beq_iff_eq]
    exact ⟨fun hand => hand.2, fun heq => ⟨by rw [heq]; decide, heq⟩⟩
  simp only [skipSpaces, hspace]

/-- The memory after `split_args`: a 0 behind the first word. -/
def splitMem (a : ℕ) (t : List UInt8) (m : Mem) : Mem := Function.update m (a + (argWord t).length) 0

/-- The first word ends at the 0 that `split_args` stores. -/
theorem splitMem_word (h : IsCString m a t) : IsCString (splitMem a t m) a (argWord t) := by
  apply IsCString.cut
  rwa [argWord, List.takeWhile_append_dropWhile]

/-- `split_args` makes two strings of one. -/
theorem splitArgs_eq (h : IsCString m a t) (hlen : t.length < stringLoopBound) :
    ∃ p, splitArgs a m = some (p, splitMem a t m) ∧ IsCString (splitMem a t m) a (argWord t) ∧
      IsCString (splitMem a t m) p (argRest t) := by
  have htail : IsCString m (a + (argWord t).length) (t.dropWhile (· != 0x20)) := h.dropWhile _
  have hle : (t.dropWhile (· != 0x20)).length ≤ t.length :=
    (List.dropWhile_suffix _).length_le
  rw [splitArgs, skipWord_eq h hlen, Option.bind_some, argRest]
  cases hd : t.dropWhile (· != 0x20) with
  | nil =>
    -- no space: the 0 is there already
    rw [hd] at htail
    have hend : m (a + (argWord t).length) = 0 := htail
    have hsame : splitMem a t m = m := by
      rw [splitMem, ← hend]
      exact Function.update_eq_self ..
    refine ⟨a + (argWord t).length, ?_, splitMem_word h, ?_⟩
    · rw [if_neg (by simp [hend]), hsame]
    · rw [hsame]
      exact hend
  | cons c u =>
    rw [hd] at htail hle
    rw [List.length_cons] at hle
    obtain ⟨hc, hp, hu⟩ := htail
    have hsp : c = 0x20 := by
      have hhead := List.head_dropWhile_not (fun c : UInt8 => c != 0x20) (l := t) (by rw [hd]; simp)
      simpa [hd] using hhead
    have hu' : IsCString (splitMem a t m) (a + (argWord t).length + 1) u := by
      apply hu.congr
      intro i hi
      rw [splitMem, Function.update_of_ne (by omega)]
    refine ⟨a + (argWord t).length + 1 + (u.takeWhile (· == 0x20)).length, ?_, splitMem_word h, ?_⟩
    · rw [if_pos (by rw [hp]; exact hc)]
      show (skipSpaces (splitMem a t m) _ _).map _ = _
      rw [skipSpaces_eq hu' (by omega)]
      rfl
    · rw [hsp, List.dropWhile_cons_of_pos (by rfl)]
      exact hu'.dropWhile _

/-! ## Commands -/

/-- What reaches the serial line. -/
theorem consolePuts_serial {t : Bytes} {s' : Tty} (h : consolePuts t s = some s') :
    s'.serial = s.serial ++ t.flatMap serialPutc := by
  induction t generalizing s with
  | nil =>
    obtain rfl : s = s' := Option.some.inj h
    exact (List.append_nil _).symm
  | cons c t ih =>
    obtain ⟨s1, h1, h2⟩ := Option.bind_eq_some_iff.1 h
    obtain ⟨v, -, rfl⟩ := Option.map_eq_some_iff.1 h1
    rw [ih h2, List.append_assoc, List.flatMap_cons]

/-- The numeral denotes a number that does not fit a 32-bit word. -/
def Overflows (n : Option ℕ) : Prop := ∃ k, n = some k ∧ 2 ^ 32 ≤ k

/-- What a parser should return: a number below 2^32, or an error. -/
def exact32 (n : Option ℕ) : Option UInt32 :=
  n.bind (fun k => if k < 2 ^ 32 then some (UInt32.ofNat k) else none)

theorem map_ofNat_eq_exact32_iff (n : Option ℕ) :
    n.map UInt32.ofNat = exact32 n ↔ ¬ Overflows n := by
  cases n with
  | none | some _ => simp [exact32, Overflows]

/-- What `color` should do with the two numbers that were typed. -/
def colorTyped (fg bg : Option ℕ) (s : Tty) : Option Tty :=
  match fg, bg with
  | some fg, some bg =>
    if fg ≤ 15 ∧ bg ≤ 15 then setColor (UInt32.ofNat fg) (UInt32.ofNat bg) s
    else consolePuts colorUsage s
  | _, _ => consolePuts colorUsage s

/-- What `peek` should do with the address and the length that were typed. -/
def peekTyped (addr : Option ℕ) (lenText : List UInt8) (s : Tty) : Option Tty :=
  match addr with
  | none => consolePuts peekUsage s
  | some addr =>
    if 2 ^ 32 ≤ addr then consolePuts peekUsage s
    else if lenText = [] then peekDump (UInt32.ofNat addr) 64 s
    else
      match decimal lenText with
      | none => consolePuts peekUsage s
      | some len =>
        if 2 ^ 32 ≤ len then consolePuts peekUsage s
        else peekDump (UInt32.ofNat addr) (UInt32.ofNat (min len 4096)) s

/-- The numbers of `color` are taken for others: one does not fit a word, and modulo 2^32 both are
    colours. -/
def ColorWraps (fg bg : Option ℕ) : Prop :=
  ∃ f b, fg = some f ∧ bg = some b ∧ (2 ^ 32 ≤ f ∨ 2 ^ 32 ≤ b) ∧ f % 2 ^ 32 ≤ 15 ∧ b % 2 ^ 32 ≤ 15

/-- The numbers of `peek` are taken for others: one does not fit a word, and the other argument is a
    numeral as well, or there is none. -/
def PeekWraps (addr : Option ℕ) (lenText : List UInt8) : Prop :=
  ∃ k, addr = some k ∧ (lenText = [] ∧ 2 ^ 32 ≤ k ∨
    ∃ n, decimal lenText = some n ∧ (2 ^ 32 ≤ k ∨ 2 ^ 32 ≤ n))

theorem argWord_length_le (t : List UInt8) : (argWord t).length ≤ t.length :=
  List.IsPrefix.length_le <| List.takeWhile_prefix _

theorem argRest_length_le (t : List UInt8) : (argRest t).length ≤ t.length :=
  ((List.dropWhile_suffix _).trans (List.dropWhile_suffix _)).length_le

/-- `color` acts on the numbers modulo 2^32. -/
theorem cmdColor_eq (h : IsCString s.vga.mem a t) (hlen : t.length < stringLoopBound) :
    cmdColor a s = colorTyped ((decimal (argWord t)).map (· % 2 ^ 32))
      ((decimal (argRest t)).map (· % 2 ^ 32)) (s.withMem (splitMem a t s.vga.mem)) := by
  obtain ⟨p, hsplit, hword, hrest⟩ := splitArgs_eq h hlen
  rw [cmdColor, hsplit, Option.bind_some]
  simp only
  rw [parseDec_eq hword (Nat.lt_of_le_of_lt (argWord_length_le t) hlen),
    parseDec_eq hrest (Nat.lt_of_le_of_lt (argRest_length_le t) hlen), Option.bind_some]
  cases decimal (argWord t) with
  | none => rfl
  | some fg =>
    cases decimal (argRest t) with
    | none => rfl
    | some bg =>
      -- the comparison of the words is one of the numbers
      have hlimit : (15 < UInt32.ofNat fg ∨ 15 < UInt32.ofNat bg) ↔
          ¬ (fg % 2 ^ 32 ≤ 15 ∧ bg % 2 ^ 32 ≤ 15) := by
        rw [UInt32.lt_iff_toNat_lt, UInt32.lt_iff_toNat_lt, UInt32.toNat_ofNat', UInt32.toNat_ofNat',
          show (15 : UInt32).toNat = 15 from rfl]
        omega
      simp only [Option.map_some, Option.bind_some, hlimit, colorTyped, ite_not, UInt32.ofNat_mod_size]

theorem colorTyped_mod {fg bg : Option ℕ} (h : ¬ ColorWraps fg bg) (s : Tty) :
    colorTyped (fg.map (· % 2 ^ 32)) (bg.map (· % 2 ^ 32)) s = colorTyped fg bg s := by
  cases fg with
  | none => rfl
  | some f =>
    cases bg with
    | none => rfl
    | some b =>
      have hsame : f % 2 ^ 32 ≤ 15 ∧ b % 2 ^ 32 ≤ 15 ↔ f ≤ 15 ∧ b ≤ 15 := by
        refine ⟨fun hle => ?_, fun hle => by omega⟩
        by_contra hgt
        exact h ⟨f, b, rfl, rfl, by omega, hle⟩
      simp only [Option.map_some, colorTyped, hsame, UInt32.ofNat_mod_size]

/-- Different texts on the serial line are different results. -/
theorem consolePuts_ne {t u : Bytes} {s' : Tty} (hs : s'.serial = s.serial)
    (h : t.flatMap serialPutc ≠ u.flatMap serialPutc) (hsome : consolePuts t s ≠ none) :
    consolePuts t s ≠ consolePuts u s' := by
  obtain ⟨r, hr⟩ := Option.ne_none_iff_exists'.1 hsome
  rw [hr]
  intro heq
  have hu := consolePuts_serial heq.symm
  rw [consolePuts_serial hr, hs] at hu
  exact h (List.append_cancel_left hu)

theorem colorTyped_wraps {fg bg : Option ℕ} (h : ColorWraps fg bg)
    (hsome : colorTyped (fg.map (· % 2 ^ 32)) (bg.map (· % 2 ^ 32)) s ≠ none) :
    colorTyped (fg.map (· % 2 ^ 32)) (bg.map (· % 2 ^ 32)) s ≠ colorTyped fg bg s := by
  obtain ⟨f, b, rfl, rfl, hbig, hle⟩ := h
  simp only [Option.map_some, colorTyped, if_pos hle] at hsome ⊢
  rw [if_neg (by omega)]
  exact consolePuts_ne rfl (by decide) hsome

/-- Lengths above 4096 are 4096. -/
theorem peekDump_min {len : ℕ} (h : len < 2 ^ 32) (addr : UInt32) :
    peekDump addr (UInt32.ofNat len) = peekDump addr (UInt32.ofNat (min len 4096)) := by
  have hk : (UInt32.ofNat len).toNat = len := by rw [UInt32.toNat_ofNat', Nat.mod_eq_of_lt h]
  have hcap : ∀ k, (4096 < UInt32.ofNat k) ↔ 4096 < (UInt32.ofNat k).toNat :=
    fun k => UInt32.lt_iff_toNat_lt
  unfold peekDump
  by_cases hle : len ≤ 4096
  · rw [Nat.min_eq_left hle]
  · rw [Nat.min_eq_right (by omega)]
    simp only [hcap, hk]
    rw [if_pos (by omega)]
    rfl

/-- What `peek` does with what its arguments denote. -/
def peekRead (addr : Option ℕ) (lenText : List UInt8) (s : Tty) : Option Tty :=
  match addr with
  | none => consolePuts peekUsage s
  | some addr =>
    if lenText = [] then peekDump (UInt32.ofNat addr) 64 s
    else
      match decimal lenText with
      | none => consolePuts peekUsage s
      | some len => peekDump (UInt32.ofNat addr) (UInt32.ofNat len) s

theorem cmdPeek_eq (h : IsCString s.vga.mem a t) (hlen : t.length < stringLoopBound) :
    cmdPeek a s = peekRead (hexNumber (argWord t)) (argRest t)
      (s.withMem (splitMem a t s.vga.mem)) := by
  obtain ⟨p, hsplit, hword, hrest⟩ := splitArgs_eq h hlen
  rw [cmdPeek, hsplit, Option.bind_some]
  simp only
  rw [parseHex_eq hword (Nat.lt_of_le_of_lt (argWord_length_le t) hlen),
    parseDec_eq hrest (Nat.lt_of_le_of_lt (argRest_length_le t) hlen), Option.bind_some]
  cases hexNumber (argWord t) with
  | none => rfl
  | some addr =>
    simp only [Option.map_some, ne_eq, hrest.eq_zero_iff, peekRead, ite_not, Option.bind_some]
    cases decimal (argRest t) <;> rfl

theorem peekRead_eq {addr : Option ℕ} {lenText : List UInt8} (h : ¬ PeekWraps addr lenText) (s : Tty) :
    peekRead addr lenText s = peekTyped addr lenText s := by
  cases addr with
  | none => rfl
  | some k =>
    rw [peekRead, peekTyped]
    by_cases hnil : lenText = []
    · rw [if_pos hnil, if_pos hnil, if_neg (fun hk => h ⟨k, rfl, Or.inl ⟨hnil, hk⟩⟩)]
    · rw [if_neg hnil, if_neg hnil]
      cases hn : decimal lenText with
      | none => exact (ite_self _).symm
      | some n =>
        have hlt : ¬ (2 ^ 32 ≤ k ∨ 2 ^ 32 ≤ n) := fun hle => h ⟨k, rfl, Or.inr ⟨n, hn, hle⟩⟩
        simp only
        rw [if_neg (fun hk => hlt (Or.inl hk)), if_neg (fun hk => hlt (Or.inr hk)),
          peekDump_min (by omega)]

/-- What a printer sends is added to what was sent. -/
def Sends (f : Tty → Option Tty) : Prop := ∀ s s', f s = some s' → s.serial <+: s'.serial

theorem Sends.bind {f : Tty → Option Tty} {g : Tty → Option Tty} (hf : Sends f) (hg : Sends g) :
    Sends (fun s => (f s).bind g) := by
  intro s s' h
  obtain ⟨s1, h1, h2⟩ := Option.bind_eq_some_iff.1 h
  exact (hf s s1 h1).trans (hg s1 s' h2)

theorem consolePuts_sends (t : Bytes) : Sends (consolePuts t) :=
  fun _ _ h => ⟨_, (consolePuts_serial h).symm⟩

theorem consolePutc_sends (c : UInt8) : Sends (consolePutc c) := by
  intro s s' h
  obtain ⟨v, -, rfl⟩ := Option.map_eq_some_iff.1 h
  exact List.prefix_append _ _

theorem printHexDigits_sends (v : UInt32) (n : ℕ) : Sends (printHexDigits v n) := by
  induction n with
  | zero => exact consolePuts_sends []
  | succ n ih => exact (consolePutc_sends _).bind ih

theorem peekBytes_sends (addr off len : UInt32) (n : ℕ) (i : UInt32) :
    Sends (peekBytes addr off len n i) := by
  induction n generalizing i with
  | zero => exact consolePuts_sends []
  | succ n ih =>
    refine Sends.bind (fun s s' h => ?_) (ih _)
    split_ifs at h
    · exact (printHexDigits_sends _ 2).bind (consolePutc_sends 0x20) s s' h
    · exact consolePuts_sends _ s s' h

theorem peekChars_sends (addr off len : UInt32) (n : ℕ) (i : UInt32) :
    Sends (peekChars addr off len n i) := by
  induction n generalizing i with
  | zero => exact consolePuts_sends []
  | succ n ih =>
    intro s s' h
    rw [peekChars] at h
    split_ifs at h
    · exact (consolePutc_sends _).bind (ih _) s s' h
    · exact consolePuts_sends [] s s' h

/-- A row begins with an address. -/
theorem peekRows_front {addr len off : UInt32} {n : ℕ}
    (hrest : Sends (peekRows addr len n (off + 16))) {r : Tty}
    (h : peekRows addr len (n + 1) off s = some r) : s.serial ++ str "0x" <+: r.serial := by
  obtain ⟨s1, h1, h2⟩ := Option.bind_eq_some_iff.1 h
  have hfront : s1.serial = s.serial ++ str "0x" := consolePuts_serial h1
  rw [← hfront]
  exact (consolePuts_sends _).bind ((consolePuts_sends _).bind ((peekBytes_sends _ _ _ _ _).bind
    ((consolePuts_sends _).bind ((peekChars_sends _ _ _ _ _).bind
      ((consolePuts_sends _).bind hrest))))) s1 r h2

theorem peekRows_sends (addr len : UInt32) (n : ℕ) (off : UInt32) : Sends (peekRows addr len n off) := by
  induction n generalizing off with
  | zero => exact consolePuts_sends []
  | succ n ih => exact fun _ _ h => (List.prefix_append _ _).trans (peekRows_front (ih _) h)

/-- A dump does not print the usage. -/
theorem peekDump_ne {addr len : UInt32} (hsome : peekDump addr len s ≠ none) :
    peekDump addr len s ≠ consolePuts peekUsage s := by
  unfold peekDump at hsome ⊢
  generalize (if 4096 < len then 4096 else len) = len at hsome ⊢
  cases hn : (len.toNat + 15) / 16 with
  | zero => exact consolePuts_ne (t := []) rfl (by decide) (by simp [consolePuts])
  | succ n =>
    rw [hn] at hsome
    obtain ⟨r, hr⟩ := Option.ne_none_iff_exists'.1 hsome
    intro heq
    have hrows := peekRows_front (peekRows_sends _ _ _ _) hr
    rw [consolePuts_serial (heq.symm.trans hr), List.prefix_append_right_inj] at hrows
    exact absurd hrows (by decide)

theorem peekRead_wraps {addr : Option ℕ} {lenText : List UInt8} (h : PeekWraps addr lenText)
    (hsome : peekRead addr lenText s ≠ none) :
    peekRead addr lenText s ≠ peekTyped addr lenText s := by
  obtain ⟨k, rfl, ⟨rfl, hk⟩ | ⟨n, hn, hbig⟩⟩ := h
  · rw [peekTyped, if_pos hk]
    exact peekDump_ne hsome
  · have hnil : lenText ≠ [] := by
      rintro rfl
      cases hn
    simp only [peekRead, if_neg hnil, hn] at hsome ⊢
    simp only [peekTyped, if_neg hnil, hn, ← ite_or, if_pos hbig]
    exact peekDump_ne hsome

/-- **The parsers are right on a string unless it is a numeral for 2^32 or more**, which they take for
    the number modulo 2^32; and `color` and `peek` act on the numbers that were typed unless they take
    such a numeral for a number they accept, and then they do not. -/
theorem shell_numbers (s : Tty) (a : ℕ) (t : List UInt8) (h : IsCString s.vga.mem a t)
    (hmem : a + t.length < 2 ^ 32) :
    (parseDec s.vga.mem a = some (exact32 (decimal t)) ↔ ¬ Overflows (decimal t)) ∧
    (parseHex s.vga.mem a = some (exact32 (hexNumber t)) ↔ ¬ Overflows (hexNumber t)) ∧
    (¬ ColorWraps (decimal (argWord t)) (decimal (argRest t)) →
      cmdColor a s = colorTyped (decimal (argWord t)) (decimal (argRest t))
        (s.withMem (splitMem a t s.vga.mem))) ∧
    (ColorWraps (decimal (argWord t)) (decimal (argRest t)) → cmdColor a s ≠ none →
      cmdColor a s ≠ colorTyped (decimal (argWord t)) (decimal (argRest t))
        (s.withMem (splitMem a t s.vga.mem))) ∧
    (¬ PeekWraps (hexNumber (argWord t)) (argRest t) →
      cmdPeek a s = peekTyped (hexNumber (argWord t)) (argRest t)
        (s.withMem (splitMem a t s.vga.mem))) ∧
    (PeekWraps (hexNumber (argWord t)) (argRest t) → cmdPeek a s ≠ none →
      cmdPeek a s ≠ peekTyped (hexNumber (argWord t)) (argRest t)
        (s.withMem (splitMem a t s.vga.mem))) := by
  have hlen : t.length < stringLoopBound := Nat.lt_of_le_of_lt (Nat.le_add_left _ a) hmem
  rw [cmdColor_eq h hlen, cmdPeek_eq h hlen, parseDec_eq h hlen, parseHex_eq h hlen, Option.some.injEq,
    Option.some.injEq]
  exact ⟨map_ofNat_eq_exact32_iff _, map_ofNat_eq_exact32_iff _, fun hno => colorTyped_mod hno _,
    fun hw => colorTyped_wraps hw, fun hno => peekRead_eq hno _, fun hw => peekRead_wraps hw⟩

/-- A machine with a text in its memory. -/
def typedLine (text : Bytes) : Tty :=
  ⟨⟨Mem.write (fun _ => 0) 0x800 text, 0, 0, 0x07, fun _ => 0⟩, []⟩

/-- `color 7 1`. -/
theorem shell_numbers_color :
    cmdColor 0x800 (typedLine (str "7 1")) = colorTyped (some 7) (some 1)
      ((typedLine (str "7 1")).withMem
        (splitMem 0x800 (str "7 1") (typedLine (str "7 1")).vga.mem)) := by
  have hfg : decimal (argWord (str "7 1")) = some 7 := by decide +kernel
  have hbg : decimal (argRest (str "7 1")) = some 1 := by decide +kernel
  have hcolor := (shell_numbers (typedLine (str "7 1")) 0x800 (str "7 1") (by decide +kernel)
    (by decide +kernel)).2.2.1
  rw [hfg, hbg] at hcolor
  exact hcolor (by simp [ColorWraps])

/-- Numerals for 2^32 are taken for 0: `color 4294967296 0` makes the text black on black, where the
    number that was typed is above 15. -/
theorem shell_numbers_wrapped :
    decimal (str "4294967296") = some (2 ^ 32) ∧
    parseDec (typedLine (str "4294967296")).vga.mem 0x800 = some (some 0) ∧
    hexNumber (str "0x100000000") = some (2 ^ 32) ∧
    parseHex (typedLine (str "0x100000000")).vga.mem 0x800 = some (some 0) ∧
    (cmdColor 0x800 (typedLine (str "4294967296 0"))).map (fun s => s.vga.attr) = some 0 ∧
    (colorTyped (some (2 ^ 32)) (some 0) (typedLine (str "4294967296 0"))).map
      (fun s => s.vga.attr) = some 0x07 := by
  decide +kernel

end OctoOS
