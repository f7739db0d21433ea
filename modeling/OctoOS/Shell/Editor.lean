import OctoOS.Shell.History
import OctoOS.Fat.Names

set_option autoImplicit false

/-! # The line editor is safe

`Editor.Inv` holds after every byte: the line in the buffer and the rows of the history consist of
printable bytes, and the indices stay in their arrays. Most steps only replace the line, which
`Retyped` describes; the end of a line also adds a row to the history. -/

namespace OctoOS

variable {lay : EditLayout} {s s' : Editor} {m m' : Mem} {a n : ℕ}

/-! ## Addresses -/

/-- An address in the line buffer. -/
def EditLayout.InBuf (lay : EditLayout) (a : ℕ) : Prop := lay.buf ≤ a ∧ a < lay.buf + lineMax

theorem EditLayout.InHistory.not_inBuf (h : lay.InHistory a) : ¬ lay.InBuf a := by
  have := lay.apart
  unfold EditLayout.InBuf EditLayout.InHistory at *
  omega

theorem EditLayout.row_inHistory {i j : ℕ} (hi : i < histMax) (hj : j < lineMax) :
    lay.InHistory (lay.history + lineMax * i + j) := by
  unfold EditLayout.InHistory histMax lineMax at *
  omega

/-! ## The history -/

/-- A non-empty line of printable bytes, with its 0, that fits a row. -/
def IsLine (m : Mem) (a : ℕ) : Prop :=
  ∃ t, IsCString m a t ∧ t ≠ [] ∧ t.length < lineMax ∧ ∀ b ∈ t, Printable b

theorem IsLine.congr {b : ℕ} (h : IsLine m a) (hm : ∀ i < lineMax, m' (b + i) = m (a + i)) :
    IsLine m' b := by
  obtain ⟨t, hs, hne, hlen, hp⟩ := h
  exact ⟨t, hs.congr (fun i hi => hm i (Nat.lt_of_le_of_lt hi hlen)), hne, hlen, hp⟩

/-- The first `n` rows of the history are lines. -/
structure HistoryOk (lay : EditLayout) (m : Mem) (n : ℕ) : Prop where
  count : n ≤ histMax
  rows : ∀ i < n, IsLine m (lay.history + lineMax * i)

theorem HistoryOk.congr (h : HistoryOk lay m n) (hm : ∀ a, lay.InHistory a → m' a = m a) :
    HistoryOk lay m' n where
  count := h.count
  rows i hi := (h.rows i hi).congr (fun _ hj =>
    hm _ (EditLayout.row_inHistory (Nat.lt_of_lt_of_le hi h.count) hj))

/-- The rows as a list of strings. -/
theorem HistoryOk.lines (h : HistoryOk lay m n) :
    ∃ ls, ls.length = n ∧ Rows m lay.history ls ∧ ∀ t ∈ ls, t ≠ [] ∧ ∀ b ∈ t, Printable b := by
  obtain ⟨hcount, hrows⟩ := h
  induction n with
  | zero => exact ⟨[], rfl, trivial, by simp⟩
  | succ n ih =>
    obtain ⟨ls, hlen, hls, hp⟩ := ih (Nat.le_of_succ_le hcount)
      (fun i hi => hrows i (Nat.lt_succ_of_lt hi))
    obtain ⟨t, ht, hne, hfits, hpt⟩ := hrows n (Nat.lt_succ_self n)
    rw [← hlen] at ht
    refine ⟨ls ++ [t], by simp [hlen], hls.concat ht hfits, fun u hu => ?_⟩
    rcases List.mem_append.1 hu with hu | hu
    · exact hp u hu
    · rw [List.mem_singleton.1 hu]
      exact ⟨hne, hpt⟩

theorem rows_isLine {ls : List (List UInt8)} (h : Rows m a ls)
    (hp : ∀ t ∈ ls, t ≠ [] ∧ ∀ b ∈ t, Printable b) :
    ∀ i < ls.length, IsLine m (a + lineMax * i) := by
  induction ls generalizing a with
  | nil => exact fun i hi => absurd hi (Nat.not_lt_zero i)
  | cons t ls ih =>
    intro i hi
    cases i with
    | zero =>
      obtain ⟨hne, hpt⟩ := hp t (List.mem_cons_self ..)
      exact ⟨t, h.1, hne, h.2.1, hpt⟩
    | succ i =>
      rw [Nat.mul_succ, Nat.add_comm _ lineMax, ← Nat.add_assoc]
      exact ih h.2.2 (fun u hu => hp u (List.mem_cons_of_mem t hu)) i (Nat.lt_of_succ_lt_succ hi)

theorem OffHistory.buf (h : OffHistory lay m m') {t : List UInt8} (ht : IsCString m lay.buf t)
    (hlen : t.length < lineMax) : IsCString m' lay.buf t := by
  refine ht.congr (fun i hi => h _ (fun hin => hin.not_inBuf ?_))
  unfold EditLayout.InBuf
  omega

theorem mem_pushLine {ls : List (List UInt8)} {t u : List UInt8} (h : u ∈ pushLine ls t) :
    u ∈ ls ∨ u = t := by
  unfold pushLine at h
  split_ifs at h
  · exact Or.inl h
  · rcases List.mem_append.1 (List.mem_of_mem_drop h) with h | h
    · exact Or.inl h
    · exact Or.inr (List.mem_singleton.1 h)

/-- `hist_push` of a line in the buffer keeps the history in order. -/
theorem histPush_ok {n : ℕ} (h : HistoryOk lay s.mem n) (hn : s.histLen = n) {t : List UInt8}
    (ht : IsCString s.mem lay.buf t) (hne : t ≠ []) (hlen : t.length < lineMax)
    (hp : ∀ b ∈ t, Printable b) :
    ∃ s' k, histPush lay lay.buf s = some s' ∧ s'.histLen = ((k : ℕ) : Int) ∧
      HistoryOk lay s'.mem k ∧ OffHistory lay s.mem s'.mem := by
  obtain ⟨ls, hls, hrows, hprint⟩ := h.lines
  have hline : LineAt lay s.mem lay.buf t := by
    have happ := lay.apart
    exact ⟨ht, hlen, by omega⟩
  have his : HistoryIs lay s ls := ⟨by rw [hls, hn], by rw [hls]; exact h.count, hrows⟩
  obtain ⟨s', hs', his', hoff⟩ := histPush_is his hline
  refine ⟨s', _, hs', his'.count, ⟨his'.room, rows_isLine his'.rows (fun u hu => ?_)⟩, hoff⟩
  rcases mem_pushLine hu with hu | rfl
  · exact hprint u hu
  · exact ⟨hne, hp⟩

/-! ## The line -/

/-- The first bytes of the buffer are text. -/
structure LineOk (lay : EditLayout) (m : Mem) (len : Int) : Prop where
  nonneg : 0 ≤ len
  fits : len ≤ lineMax - 1
  text : ∀ i : ℕ, i < len → Printable (m (lay.buf + i))

/-- What holds after every byte. -/
structure Editor.Inv (lay : EditLayout) (s : Editor) : Prop where
  line : LineOk lay s.mem s.len
  browse : s.browse = -1 ∨ 0 ≤ s.browse ∧ s.browse < s.histLen
  history : ∃ n : ℕ, s.histLen = n ∧ HistoryOk lay s.mem n

/-- In `s'` there is another line in the buffer. -/
structure Editor.Retyped (lay : EditLayout) (s s' : Editor) : Prop where
  line : LineOk lay s'.mem s'.len
  mem : ∀ a, ¬ lay.InBuf a → s'.mem a = s.mem a
  histLen : s'.histLen = s.histLen
  browse : s'.browse = s.browse

theorem Editor.Retyped.inv (hr : s.Retyped lay s') (hi : s.Inv lay) : s'.Inv lay := by
  obtain ⟨n, hn, hist⟩ := hi.history
  refine ⟨hr.line, ?_, n, hr.histLen.trans hn, hist.congr (fun a ha => hr.mem a ha.not_inBuf)⟩
  rw [hr.browse, hr.histLen]
  exact hi.browse

theorem LineOk.shorter {len len' : Int} (h : LineOk lay m len) (h0 : 0 ≤ len') (hle : len' ≤ len) :
    LineOk lay m len' where
  nonneg := h0
  fits := Int.le_trans hle h.fits
  text i hi := h.text i (Int.lt_of_lt_of_le hi hle)

/-- One more byte. -/
theorem LineOk.push {len : Int} (h : LineOk lay m len) (hlt : len < lineMax - 1) {c : UInt8}
    (hc : Printable c) :
    LineOk lay (Function.update m (elemAddr lay.buf len) c) (len + 1) ∧
      ∀ a, ¬ lay.InBuf a → Function.update m (elemAddr lay.buf len) c a = m a := by
  have h0 := h.nonneg
  have haddr : elemAddr lay.buf len = lay.buf + len.toNat := by
    unfold elemAddr
    omega
  rw [haddr]
  refine ⟨⟨by omega, by omega, fun i hi => ?_⟩, fun a ha => Function.update_of_ne ?_ _ _⟩
  · by_cases hlast : i = len.toNat
    · rw [hlast, Function.update_self]
      exact hc
    · rw [Function.update_of_ne (by omega)]
      exact h.text i (by omega)
  · unfold EditLayout.InBuf at ha
    unfold lineMax at hlt ha
    omega

theorem lineErase_eq {n : ℕ} (hn : s.len = n) :
    ∃ out, lineErase n s = { s with len := 0, out := out } := by
  induction n generalizing s with
  | zero =>
    refine ⟨s.out, ?_⟩
    rw [lineErase, ← show s.len = 0 from hn]
  | succ n ih =>
    rw [lineErase, if_pos (by omega)]
    obtain ⟨out, hout⟩ := @ih { s with len := s.len - 1, out := s.out ++ eraseText } (by simp only; omega)
    exact ⟨out, hout⟩

/-- The copy of a text that lies off the buffer. -/
theorem lineCopy_ok {n src : ℕ} {t : List UInt8} (ht : IsCString s.mem src t)
    (hp : ∀ b ∈ t, Printable b) (hoff : ∀ i ≤ t.length, ¬ lay.InBuf (src + i))
    (hl : LineOk lay s.mem s.len) (hfuel : lineMax - 1 - s.len < n) :
    ∃ s', lineCopy lay n src s = some s' ∧ s.Retyped lay s' := by
  induction n generalizing src t s with
  | zero =>
    have := hl.fits
    omega
  | succ n ih =>
    rw [lineCopy]
    by_cases hgo : s.mem src ≠ 0 ∧ s.len < lineMax - 1
    · rw [if_pos hgo]
      cases t with
      | nil => exact absurd ht hgo.1
      | cons c t =>
        obtain ⟨-, hc, hs⟩ := ht
        have hpc : Printable (s.mem src) := by
          rw [hc]
          exact hp c (List.mem_cons_self ..)
        obtain ⟨hpush, hsame⟩ := hl.push hgo.2 hpc
        have hrest : ∀ i ≤ t.length, ¬ lay.InBuf (src + 1 + i) := by
          intro i hi
          have := hoff (i + 1) (Nat.succ_le_succ hi)
          rwa [Nat.add_comm i 1, ← Nat.add_assoc] at this
        obtain ⟨s', hs', hr⟩ := @ih
          { s with
            mem := Function.update s.mem (elemAddr lay.buf s.len) (s.mem src)
            len := s.len + 1
            out := s.out ++ [s.mem src] }
          (src + 1) t (hs.congr (fun i hi => hsame _ (hrest i hi)))
          (fun b hb => hp b (List.mem_cons_of_mem _ hb)) hrest hpush (by simp only; omega)
        exact ⟨s', hs', hr.line, fun a ha => (hr.mem a ha).trans (hsame a ha), hr.histLen, hr.browse⟩
    · rw [if_neg hgo]
      exact ⟨s, rfl, hl, fun _ _ => rfl, rfl, rfl⟩

theorem lineReplace_ok {src : Option ℕ} (hl : LineOk lay s.mem s.len)
    (hsrc : ∀ a ∈ src, ∃ t, IsCString s.mem a t ∧ (∀ b ∈ t, Printable b) ∧
      ∀ i ≤ t.length, ¬ lay.InBuf (a + i)) :
    ∃ s', lineReplace lay src s = some s' ∧ s.Retyped lay s' := by
  have h0 := hl.nonneg
  obtain ⟨out, hout⟩ := @lineErase_eq s s.len.toNat (by omega)
  have hempty : LineOk lay s.mem 0 := hl.shorter (Int.le_refl 0) h0
  unfold lineReplace
  simp only
  rw [hout]
  cases src with
  | none => exact ⟨_, rfl, hempty, fun _ _ => rfl, rfl, rfl⟩
  | some a =>
    obtain ⟨t, ht, hp, hoff⟩ := hsrc a rfl
    obtain ⟨s', hs', hr⟩ := @lineCopy_ok lay { s with len := 0, out := out } lineMax a t ht hp hoff
      hempty (show (lineMax : Int) - 1 - 0 < lineMax by decide)
    exact ⟨s', hs', hr.line, hr.mem, hr.histLen, hr.browse⟩

/-- A row of the history as the source of a line. -/
theorem row_source (h : HistoryOk lay m n) {i : Int} (h0 : 0 ≤ i) (hi : i < n) :
    ∃ t, IsCString m (lay.row i) t ∧ (∀ b ∈ t, Printable b) ∧
      ∀ j ≤ t.length, ¬ lay.InBuf (lay.row i + j) := by
  obtain ⟨k, rfl⟩ := Int.eq_ofNat_of_zero_le h0
  have hk : k < n := Int.ofNat_lt.1 hi
  obtain ⟨t, ht, -, hlen, hp⟩ := h.rows k hk
  have hrow : lay.row (k : Int) = lay.history + lineMax * k := lay.row_natCast k
  rw [hrow]
  refine ⟨t, ht, hp, fun j hj => ?_⟩
  exact (EditLayout.row_inHistory (Nat.lt_of_lt_of_le hk h.count)
    (Nat.lt_of_le_of_lt hj hlen)).not_inBuf

/-! ## The keys -/

theorem historyUp_ok (hi : s.Inv lay) :
    ∃ s', historyUp lay s = some s' ∧ s'.Inv lay ∧ ∀ a, ¬ lay.InBuf a → s'.mem a = s.mem a := by
  obtain ⟨n, hn, hist⟩ := hi.history
  rw [historyUp]
  by_cases h0 : s.histLen = 0
  · rw [if_pos h0]
    exact ⟨s, rfl, hi, fun _ _ => rfl⟩
  rw [if_neg h0]
  simp only
  generalize hb : (if s.browse < 0 then s.histLen - 1 else
    if 0 < s.browse then s.browse - 1 else s.browse) = b
  have hbrowse : 0 ≤ b ∧ b < s.histLen := by
    have := hi.browse
    rw [← hb]
    split_ifs <;> omega
  obtain ⟨s', hs', hr⟩ := @lineReplace_ok lay { s with browse := b } (some (lay.row b)) hi.line
    (fun a ha => by
      cases ha
      exact row_source hist hbrowse.1 (by omega))
  refine ⟨s', hs', hr.inv ⟨hi.line, Or.inr hbrowse, n, hn, hist⟩, hr.mem⟩

theorem historyDown_ok (hi : s.Inv lay) :
    ∃ s', historyDown lay s = some s' ∧ s'.Inv lay ∧ ∀ a, ¬ lay.InBuf a → s'.mem a = s.mem a := by
  obtain ⟨n, hn, hist⟩ := hi.history
  rw [historyDown]
  split_ifs with hfresh hend
  · exact ⟨s, rfl, hi, fun _ _ => rfl⟩
  · obtain ⟨s', hs', hr⟩ := @lineReplace_ok lay { s with browse := -1 } none hi.line (by simp)
    exact ⟨s', hs', hr.inv ⟨hi.line, Or.inl rfl, n, hn, hist⟩, hr.mem⟩
  · have hbrowse : 0 ≤ s.browse + 1 ∧ s.browse + 1 < s.histLen := by omega
    obtain ⟨s', hs', hr⟩ := @lineReplace_ok lay { s with browse := s.browse + 1 }
      (some (lay.row (s.browse + 1))) hi.line
      (fun a ha => by
        cases ha
        exact row_source hist hbrowse.1 (by omega))
    exact ⟨s', hs', hr.inv ⟨hi.line, Or.inr hbrowse, n, hn, hist⟩, hr.mem⟩

theorem eraseChar_ok (hi : s.Inv lay) :
    (eraseChar s).Inv lay ∧ (eraseChar s).mem = s.mem := by
  rw [eraseChar]
  split_ifs with hlen
  · have hline : LineOk lay s.mem (s.len - 1) := hi.line.shorter (by omega) (by omega)
    exact ⟨⟨hline, hi.browse, hi.history⟩, rfl⟩
  · exact ⟨hi, rfl⟩

theorem insertChar_ok (hi : s.Inv lay) {c : UInt8} (hc : Printable c) :
    (insertChar lay c s).Inv lay ∧ ∀ a, ¬ lay.InBuf a → (insertChar lay c s).mem a = s.mem a := by
  obtain ⟨n, hn, hist⟩ := hi.history
  rw [insertChar]
  split_ifs with hlen
  · obtain ⟨hpush, hsame⟩ := hi.line.push hlen hc
    exact ⟨⟨hpush, Or.inl rfl, n, hn, hist.congr (fun a ha => hsame a ha.not_inBuf)⟩, hsame⟩
  · exact ⟨hi, fun _ _ => rfl⟩

/-- What `read_line` leaves when it returns: a line in the buffer, and the history in order. -/
structure Returned (lay : EditLayout) (s : Editor) : Prop where
  line : ∃ t, IsCString s.mem lay.buf t ∧ t.length < lineMax ∧ ∀ b ∈ t, Printable b
  history : ∃ n : ℕ, s.histLen = n ∧ HistoryOk lay s.mem n

theorem endLine_ok (hi : s.Inv lay) :
    ∃ s', endLine lay s = some s' ∧ Returned lay s' ∧
      ∀ a, ¬ lay.InBuf a → ¬ lay.InHistory a → s'.mem a = s.mem a := by
  obtain ⟨n, hn, hist⟩ := hi.history
  obtain ⟨h0, hfits, htext⟩ := hi.line
  obtain ⟨k, hk⟩ := Int.eq_ofNat_of_zero_le h0
  have hkmax : k < lineMax := by
    rw [hk] at hfits
    unfold lineMax at hfits ⊢
    omega
  have haddr : elemAddr lay.buf s.len = lay.buf + k := by rw [hk, elemAddr_natCast]
  -- the 0 is written inside the buffer, behind the text
  have hoff : ∀ a, ¬ lay.InBuf a → Function.update s.mem (lay.buf + k) 0 a = s.mem a := by
    intro a ha
    refine Function.update_of_ne (fun heq => ha ?_) _ _
    rw [heq]
    exact ⟨Nat.le_add_right _ _, Nat.add_lt_add_left hkmax _⟩
  have htext' : ∀ i < k, Printable (Function.update s.mem (lay.buf + k) 0 (lay.buf + i)) := by
    intro i hik
    rw [Function.update_of_ne (by omega)]
    exact htext i (by omega)
  have hstr : IsCString (Function.update s.mem (lay.buf + k) 0) lay.buf
      (readBytes (Function.update s.mem (lay.buf + k) 0) lay.buf k) :=
    isCString_readBytes (fun i hik => (htext' i hik).ne_marks.1) (Function.update_self ..)
  have hlen := length_readBytes (Function.update s.mem (lay.buf + k) 0) lay.buf k
  have hprint : ∀ b ∈ readBytes (Function.update s.mem (lay.buf + k) 0) lay.buf k, Printable b := by
    intro b hb
    obtain ⟨i, hik, rfl⟩ := mem_readBytes hb
    exact htext' i hik
  have hist' := hist.congr (fun a ha => hoff a ha.not_inBuf)
  rw [endLine, haddr]
  simp only
  split_ifs with hpos
  · have hne : readBytes (Function.update s.mem (lay.buf + k) 0) lay.buf k ≠ [] := by
      intro hnil
      rw [hnil, List.length_nil] at hlen
      omega
    obtain ⟨s', n', hs', hn', hok, hsame⟩ := @histPush_ok lay
      { s with mem := Function.update s.mem (lay.buf + k) 0, out := s.out ++ [0x0A] } n hist' hn _
      hstr hne (by rw [hlen]; exact hkmax) hprint
    refine ⟨s', hs', ⟨⟨_, hsame.buf hstr (by rw [hlen]; exact hkmax), by rw [hlen]; exact hkmax,
      hprint⟩, n', hn', hok⟩, fun a hb hh => (hsame a hh).trans (hoff a hb)⟩
  · exact ⟨_, rfl, ⟨⟨_, hstr, by rw [hlen]; exact hkmax, hprint⟩, n, hn, hist'⟩,
      fun a hb _ => hoff a hb⟩

/-- What a byte does: the editor goes on with its invariant, or the line is returned. -/
structure Handled (lay : EditLayout) (s : Editor) (done : Bool) (s' : Editor) : Prop where
  goes_on : done = false → s'.Inv lay
  returned : done = true → Returned lay s'
  mem : ∀ a, ¬ lay.InBuf a → ¬ lay.InHistory a → s'.mem a = s.mem a

theorem Handled.of_inv (hi : s'.Inv lay) (hm : ∀ a, ¬ lay.InBuf a → s'.mem a = s.mem a) :
    Handled lay s false s' :=
  ⟨fun _ => hi, fun h => absurd h (by decide), fun a hb _ => hm a hb⟩

theorem handleKey_ok (hi : s.Inv lay) (c : UInt8) :
    ∃ done s', handleKey lay c s = some (done, s') ∧ Handled lay s done s' := by
  rw [handleKey]
  split_ifs with hup hdown hside hend hback hctl
  · obtain ⟨s', hs', hi', hm⟩ := historyUp_ok hi
    exact ⟨false, s', by rw [hs']; rfl, Handled.of_inv hi' hm⟩
  · obtain ⟨s', hs', hi', hm⟩ := historyDown_ok hi
    exact ⟨false, s', by rw [hs']; rfl, Handled.of_inv hi' hm⟩
  · exact ⟨false, s, rfl, Handled.of_inv hi (fun _ _ => rfl)⟩
  · obtain ⟨s', hs', hr, hm⟩ := endLine_ok hi
    exact ⟨true, s', by rw [hs']; rfl, fun h => absurd h (by decide), fun _ => hr, hm⟩
  · obtain ⟨hi', hm⟩ := eraseChar_ok hi
    exact ⟨false, _, rfl, Handled.of_inv hi' (fun a _ => by rw [hm])⟩
  · exact ⟨false, s, rfl, Handled.of_inv hi (fun _ _ => rfl)⟩
  · rw [not_or, UInt8.not_lt, UInt8.not_lt] at hctl
    obtain ⟨hi', hm⟩ := insertChar_ok hi hctl
    exact ⟨false, _, rfl, Handled.of_inv hi' hm⟩

/-- One byte. -/
theorem readLineStep_ok (hi : s.Inv lay) (c : UInt8) :
    ∃ done s', readLineStep lay c s = some (done, s') ∧ Handled lay s done s' := by
  have hesc : ∀ esc, ({ s with esc := esc } : Editor).Inv lay := fun _ =>
    ⟨hi.line, hi.browse, hi.history⟩
  rw [readLineStep]
  cases h : escapeStep s.esc c with
  | mk esc r =>
    cases r with
    | none => exact ⟨false, _, rfl, Handled.of_inv (hesc esc) (fun _ _ => rfl)⟩
    | some c' =>
      obtain ⟨done, s', hs', hh⟩ := handleKey_ok (hesc esc) c'
      exact ⟨done, s', hs', hh.goes_on, hh.returned, hh.mem⟩

/-- The state in which a call of `read_line` starts. -/
theorem inv_readLineStart {n : ℕ} (hn : s.histLen = n) (h : HistoryOk lay s.mem n) :
    (readLineStart s).Inv lay where
  line := ⟨Int.le_refl 0, by simp [readLineStart, lineMax], fun i hi => absurd hi (by simp [readLineStart])⟩
  browse := Or.inl rfl
  history := ⟨n, hn, h⟩

theorem EditRun.inv (hrun : EditRun lay s) : s.Inv lay := by
  induction hrun with
  | boot mem =>
    exact @inv_readLineStart lay ⟨mem, 0, 0, -1, 0, []⟩ 0 rfl ⟨by decide, fun i hi => absurd hi (by simp)⟩
  | byte c _ hstep ih =>
    obtain ⟨done, s', hs', hh⟩ := readLineStep_ok ih c
    rw [hs'] at hstep
    cases hstep
    exact hh.goes_on rfl
  | next c mem _ hstep hmem ih =>
    obtain ⟨done, s', hs', hh⟩ := readLineStep_ok ih c
    rw [hs'] at hstep
    obtain ⟨rfl, rfl⟩ := Prod.mk.inj (Option.some.inj hstep)
    obtain ⟨n, hn, hist⟩ := (hh.returned rfl).history
    exact @inv_readLineStart lay { s' with mem := mem } n hn (hist.congr (fun a ha => hmem a ha.1 ha.2))

/-- The editor is safe in state `s`. -/
structure EditSafe (lay : EditLayout) (s : Editor) : Prop where
  len : 0 ≤ s.len ∧ s.len ≤ lineMax - 1
  browse : s.browse = -1 ∨ 0 ≤ s.browse ∧ s.browse < s.histLen
  histLen : 0 ≤ s.histLen ∧ s.histLen ≤ histMax
  /-- Every row in use holds a non-empty string with its end. -/
  rows : ∀ i, 0 ≤ i → i < s.histLen →
    ∃ t, IsCString s.mem (lay.row i) t ∧ t ≠ [] ∧ t.length + 1 ≤ lineMax
  /-- Whatever byte comes next is handled, with writes to the two arrays only; and if the line ends
      with it, the buffer holds printable bytes and their end. -/
  next : ∀ c, ∃ done s', readLineStep lay c s = some (done, s') ∧
    (∀ a, ¬ lay.InBuf a → ¬ lay.InHistory a → s'.mem a = s.mem a) ∧
    (done = true → ∃ t, IsCString s'.mem lay.buf t ∧ t.length + 1 ≤ lineMax ∧ ∀ b ∈ t, Printable b)

/-- **The line editor is safe**, whatever bytes come in. -/
theorem editRun_safe (hrun : EditRun lay s) : EditSafe lay s := by
  have hi := hrun.inv
  obtain ⟨n, hn, hist⟩ := hi.history
  have hcount := hist.count
  refine ⟨⟨hi.line.nonneg, hi.line.fits⟩, hi.browse, by omega, fun i h0 hlt => ?_, fun c => ?_⟩
  · obtain ⟨k, rfl⟩ := Int.eq_ofNat_of_zero_le h0
    obtain ⟨t, ht, hne, hlen, -⟩ := hist.rows k (by omega)
    have hrow : lay.row (k : Int) = lay.history + lineMax * k := lay.row_natCast k
    rw [hrow]
    exact ⟨t, ht, hne, hlen⟩
  · obtain ⟨done, s', hs', hh⟩ := readLineStep_ok hi c
    exact ⟨done, s', hs', hh.mem, fun hd => (hh.returned hd).line⟩

/-- The bytes of a stream, over as many calls of `read_line` as they end lines. -/
def readLines (lay : EditLayout) : Bytes → Editor → Option Editor
  | [], s => some s
  | c :: cs, s => (readLineStep lay c s).bind (fun r =>
      readLines lay cs (if r.1 then readLineStart r.2 else r.2))

theorem EditRun.readLines {bytes : Bytes} (h : EditRun lay s)
    (hread : readLines lay bytes s = some s') : EditRun lay s' := by
  induction bytes generalizing s with
  | nil =>
    cases hread
    exact h
  | cons c cs ih =>
    obtain ⟨⟨done, s1⟩, hstep, hrest⟩ := Option.bind_eq_some_iff.1 hread
    cases done with
    | false => exact ih (h.byte c hstep) hrest
    | true => exact ih (h.next c s1.mem hstep (fun _ _ _ => rfl)) hrest

/-- The lines `a` and `b`; then the arrow up recalls `b` and `a` from the history, and an escape sequence
    is left unfinished. -/
theorem editRun_safe_broken_escape : ∃ s, EditRun smallLayout s ∧ s.histLen = 2 ∧ s.browse = 0 ∧
    s.len = 1 ∧ s.esc = 2 ∧ s.mem smallLayout.buf = 0x61 ∧ EditSafe smallLayout s := by
  have hread : (readLines smallLayout
      (str "a\nb\n" ++ [0x1B, 0x5B, 0x41, 0x1B, 0x5B, 0x41, 0x1B, 0x5B])
      ⟨fun _ => 0, 0, 0, -1, 0, []⟩).map
        (fun s => (s.histLen, s.browse, s.len, s.esc, s.mem smallLayout.buf))
      = some (2, 0, 1, 2, 0x61) := by decide +kernel
  obtain ⟨s, hread, heq⟩ := Option.map_eq_some_iff.1 hread
  simp only [Prod.mk.injEq] at heq
  obtain ⟨hlen, hbrowse, hn, hesc, hbuf⟩ := heq
  have hrun : EditRun smallLayout s := (EditRun.boot _).readLines hread
  exact ⟨s, hrun, hlen, hbrowse, hn, hesc, hbuf, editRun_safe hrun⟩

end OctoOS
