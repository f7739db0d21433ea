import OctoOS.Syscall.Range
import OctoOS.Elf.Image

set_option autoImplicit false

/-! # What a system call touches

The kernel works on the memory of the caller through the caller's own page table, in ring 0: an
address without a present page stops the machine, and an address outside the user window is the
kernel's own memory. This file says for every call and all registers which addresses it gets to,
and when all of them are memory of the caller. `user_range` looks at the window only, and for two
calls at the first byte only. -/

namespace OctoOS

open Atomic

/-- The address of the caller's memory that a step accesses. -/
def SysOp.addr : SysOp → Option ℕ
  | .load a => some a
  | .store a _ => some a
  | _ => none

/-- The step accesses an address that is not `good`. -/
def SysOp.Leaves (good : ℕ → Prop) (o : sysSig.Op) (_ : SysState) : Prop :=
  ∃ a, SysOp.addr o = some a ∧ ¬ good a

/-- A run that accesses good addresses only. -/
abbrev Sys.Stays {α : Type} (fs : Fs) (fails : Faults) (good : ℕ → Prop) (p : Sys α) (s : SysState) : Prop :=
  p.Clean (sysHandler fs fails) (SysOp.Leaves good) s

section Rules

variable {fs : Fs} {fails : Faults} {s : SysState} {good : ℕ → Prop} {α β : Type}
  {o : sysSig.Op} {f : sysSig.Ans o → Sys α} {a : ℕ}

theorem SysOp.not_leaves (ho : SysOp.addr o = none) : ¬ SysOp.Leaves good o s :=
  fun ⟨_, ha, _⟩ => nomatch ho.symm.trans ha

/-- A step that accesses an address, and has an answer at a good one. -/
theorem Sys.access_stays_iff {r : sysSig.Ans o} {s' : SysState} (ho : SysOp.addr o = some a)
    (hr : good a → sysHandler fs fails o s = .ok (r, s')) :
    (perform o >>= f : Sys α).Stays fs fails good s ↔
      good a ∧ (f r).Stays fs fails good s' := by
  constructor
  · rintro ⟨hb, hf⟩
    have ha : good a := by
      by_contra hno
      exact hb ⟨a, ho, hno⟩
    exact ⟨ha, hf _ _ (hr ha)⟩
  · rintro ⟨ha, hf⟩
    refine Prog.Clean.step ?_ (fun r1 s1 hr1 => ?_)
    · rintro ⟨b, hb, hno⟩
      obtain rfl := Option.some.inj (ho.symm.trans hb)
      exact hno ha
    · rw [hr ha] at hr1
      cases hr1
      exact hf

theorem Sys.load_stays_iff {f : UInt8 → Sys α} (hg : good a → s.mapped a = true) :
    (Sys.load a >>= f).Stays fs fails good s ↔
      good a ∧ (f (s.mem a)).Stays fs fails good s :=
  Sys.access_stays_iff rfl (fun ha => if_pos (hg ha))

theorem Sys.store_stays_iff {b : UInt8} {f : Unit → Sys α} (hg : good a → s.mapped a = true) :
    (Sys.store a b >>= f).Stays fs fails good s ↔
      good a ∧ (f ()).Stays fs fails good
        { s with mem := Function.update s.mem a b } :=
  Sys.access_stays_iff rfl (fun ha => if_pos (hg ha))

/-- A step into the rest of the kernel that has an answer. -/
theorem Sys.perform_stays_iff {r : sysSig.Ans o} {s' : SysState} (ho : SysOp.addr o = none)
    (hr : sysHandler fs fails o s = .ok (r, s')) :
    (perform o >>= f : Sys α).Stays fs fails good s ↔
      (f r).Stays fs fails good s' := by
  refine ⟨fun h => h.2 r s' hr, fun h => Prog.Clean.step (SysOp.not_leaves ho) (fun r1 s1 hr1 => ?_)⟩
  rw [hr] at hr1
  cases hr1
  exact h

/-- A step that has none. -/
theorem Sys.perform_stays_of_error {w : Stop} (ho : SysOp.addr o = none)
    (hr : sysHandler fs fails o s = .error w) :
    (perform o >>= f : Sys α).Stays fs fails good s := by
  refine Prog.Clean.step (SysOp.not_leaves ho) (fun r1 s1 hr1 => ?_)
  rw [hr] at hr1
  cases hr1

theorem Sys.perform_stays (ho : SysOp.addr o = none) :
    Sys.Stays fs fails good (perform o) s :=
  ⟨SysOp.not_leaves ho, fun _ _ _ => trivial⟩

theorem Sys.pure_stays (a : α) : (pure a : Sys α).Stays fs fails good s := trivial

theorem Sys.stays_others {p : Sys α} {P : Prop}
    (h : ∀ others, p.Stays fs fails good { s with others := others } ↔ P) :
    (∀ others, p.Stays fs fails good { s with others := others }) ↔ P :=
  (forall_congr' h).trans (forall_const _)

/-- What comes last only gives the answer. -/
theorem Sys.bind_stays_iff {p : Sys β} {f : β → Sys α} (hf : ∀ b s', (f b).Stays fs fails good s') :
    (p >>= f : Sys α).Stays fs fails good s ↔ p.Stays fs fails good s :=
  Prog.Clean.bind_iff.trans (and_iff_left fun b s' _ => hf b s')

end Rules

/-! ## The loops -/

theorem range_succ {good : ℕ → Prop} {ptr : UInt32} {n i : ℕ} :
    (∀ k < n + 1, good (addrOf ptr (i + k))) ↔
      good (addrOf ptr i) ∧ ∀ k < n, good (addrOf ptr (i + 1 + k)) := by
  constructor
  · refine fun h => ⟨h 0 (Nat.succ_pos n), fun k hk => ?_⟩
    rw [Nat.add_assoc, Nat.add_comm 1 k]
    exact h (k + 1) (by omega)
  · rintro ⟨h0, hrest⟩ k hk
    cases k with
    | zero => exact h0
    | succ k =>
      rw [Nat.add_comm k 1, ← Nat.add_assoc]
      exact hrest k (by omega)

/-- The number of bytes a scan from byte `i` on loads: up to the first NUL, and at most `n`. -/
def scanLen (m : Mem) (ptr : UInt32) : ℕ → ℕ → ℕ
  | 0, _ => 0
  | n + 1, i => if m (addrOf ptr i) = 0 then 1 else scanLen m ptr n (i + 1) + 1

theorem pending_empty {c : Console} (h : c.inHead = c.inTail) : c.pending = [] := by
  unfold Console.pending Console.ring RingBuffer.contents
  simp only [h, BitVec.sub_self]
  rfl

section Loops

variable {fs : Fs} {fails : Faults} {s : SysState} {good : ℕ → Prop} {ptr : UInt32}

section

variable (hg : ∀ a, good a → s.mapped a = true)

include hg

theorem putsLoop_stays_iff (n i : ℕ) :
    (putsLoop ptr n i).Stays fs fails good s ↔
      ∀ k < scanLen s.mem ptr n i, good (addrOf ptr (i + k)) := by
  induction n generalizing i s with
  | zero => exact iff_of_true trivial (fun k hk => absurd hk (Nat.not_lt_zero k))
  | succ n ih =>
    rw [putsLoop, Sys.load_stays_iff (hg _), scanLen]
    by_cases hc : s.mem (addrOf ptr i) = 0
    · rw [if_pos hc, if_pos hc, range_succ]
      exact and_congr_right (fun _ => iff_of_true trivial (fun k hk => absurd hk (by omega)))
    · rw [if_neg hc, if_neg hc, range_succ]
      have hrest := ih (s := { s with out := s.out ++ [s.mem (addrOf ptr i)] }) hg (i + 1)
      exact and_congr_right (fun _ => (Sys.perform_stays_iff rfl rfl).trans hrest)

theorem strlenLoop_stays_iff (n i : ℕ) :
    (strlenLoop ptr n i).Stays fs fails good s ↔
      ∀ k < scanLen s.mem ptr n i, good (addrOf ptr (i + k)) := by
  induction n generalizing i s with
  | zero => exact iff_of_true trivial (fun k hk => absurd hk (Nat.not_lt_zero k))
  | succ n ih =>
    rw [strlenLoop, Sys.load_stays_iff (hg _), scanLen]
    by_cases hc : s.mem (addrOf ptr i) = 0
    · rw [if_pos hc, if_pos hc, range_succ]
      exact and_congr_right (fun _ => iff_of_true trivial (fun k hk => absurd hk (by omega)))
    · rw [if_neg hc, if_neg hc, range_succ, Sys.bind_stays_iff (fun _ _ => Sys.pure_stays _), ih hg (i + 1)]

theorem writeConsoleLoop_stays_iff (n i : ℕ) :
    (writeConsoleLoop ptr n i).Stays fs fails good s ↔
      ∀ k < n, good (addrOf ptr (i + k)) := by
  induction n generalizing i s with
  | zero => exact iff_of_true trivial (fun k hk => absurd hk (by omega))
  | succ n ih =>
    rw [range_succ, writeConsoleLoop, Sys.load_stays_iff (hg _)]
    refine and_congr_right (fun _ => ?_)
    have hrest := ih (s := { s with out := s.out ++ [s.mem (addrOf ptr i)] }) hg (i + 1)
    exact (Sys.perform_stays_iff rfl rfl).trans hrest

theorem copyIn_stays_iff (n i : ℕ) :
    (copyIn ptr n i).Stays fs fails good s ↔
      ∀ k < n, good (addrOf ptr (i + k)) := by
  induction n generalizing i s with
  | zero => exact iff_of_true trivial (fun k hk => absurd hk (by omega))
  | succ n ih =>
    rw [range_succ, copyIn, Sys.load_stays_iff (hg _)]
    rw [Sys.bind_stays_iff (fun _ _ => Sys.pure_stays _), ih hg (i + 1)]

theorem copyOut_stays_iff (bs : Bytes) (i : ℕ) :
    (copyOut ptr bs i).Stays fs fails good s ↔
      ∀ k < bs.length, good (addrOf ptr (i + k)) := by
  induction bs generalizing i s with
  | nil => exact iff_of_true trivial (fun k hk => absurd hk (by simp))
  | cons b bs ih =>
    rw [List.length_cons, range_succ, copyOut,
      Sys.store_stays_iff (hg _)]
    exact and_congr_right (fun _ =>
      ih (s := { s with mem := Function.update s.mem (addrOf ptr i) b }) hg (i + 1))

end

theorem SysState.look_mapped (s : SysState) : s.look.mapped = s.mapped := by
  unfold SysState.look
  split <;> rfl

theorem SysState.look_off (h : s.intr = false) : s.look = s := by
  unfold SysState.look
  rw [h]

/-- The loop of `read_console` stays in the buffer. -/
theorem drainConsoleLoop_stays (hg : ∀ a, good a → s.mapped a = true) (n got : ℕ)
    (h : ∀ k < n, good (addrOf ptr (got + k))) :
    (drainConsoleLoop ptr n got).Stays fs fails good s := by
  induction n generalizing got s with
  | zero => trivial
  | succ n ih =>
    rw [range_succ] at h
    by_cases hempty : s.look.con.inHead = s.look.con.inTail
    · have hrun : sysHandler fs fails (SysOp.trygetc : sysSig.Op) s = .ok (none, s.look) := by
        simp only [sysHandler, if_pos hempty]
      exact (Sys.perform_stays_iff rfl hrun).2 (Sys.pure_stays _)
    · have hrun : sysHandler fs fails (SysOp.trygetc : sysSig.Op) s
          = .ok (some s.look.look.take.1, s.look.look.take.2) := by
        simp only [sysHandler, if_neg hempty]
      have hmapped : ∀ a, good a → s.look.look.mapped a = true := fun a ha => by
        rw [SysState.look_mapped, SysState.look_mapped]
        exact hg a ha
      refine (Sys.perform_stays_iff rfl hrun).2
        ((Sys.store_stays_iff (s := s.look.look.take.2) (hmapped _)).2 ⟨h.1, ?_⟩)
      exact ih (s := { s.look.look.take.2 with mem := Function.update s.look.look.mem _ _ }) hmapped _ h.2

/-- With interrupts off it takes what is waiting, as far as there is room. -/
theorem drainConsoleLoop_stays_iff (hg : ∀ a, good a → s.mapped a = true) (hoff : s.intr = false) (n got : ℕ) :
    (drainConsoleLoop ptr n got).Stays fs fails good s ↔
      ∀ k < min n s.con.pending.length, good (addrOf ptr (got + k)) := by
  induction n generalizing got s with
  | zero => exact iff_of_true trivial (fun k hk => absurd hk (by omega))
  | succ n ih =>
    by_cases hne : s.con.inHead = s.con.inTail
    · have hrun : sysHandler fs fails (SysOp.trygetc : sysSig.Op) s = .ok (none, s) := by
        simp only [sysHandler, SysState.look_off hoff, if_pos hne]
      rw [pending_empty hne]
      exact iff_of_true ((Sys.perform_stays_iff rfl hrun).2 (Sys.pure_stays _))
        (fun k hk => absurd hk (by simp))
    · have hrun : sysHandler fs fails (SysOp.trygetc : sysSig.Op) s = .ok (some s.take.1, s.take.2) := by
        simp only [sysHandler, SysState.look_off hoff, if_neg hne]
      rw [pending_take hne, List.length_cons, Nat.add_min_add_right,
        range_succ]
      refine (Sys.perform_stays_iff rfl hrun).trans ((Sys.store_stays_iff (s := s.take.2) (hg _)).trans ?_)
      exact and_congr_right (fun _ =>
        ih (s := { s.take.2 with mem := Function.update s.mem _ _ }) hg hoff _)

/-- A ring with one byte in it. -/
def oneByte : Console := ⟨fun _ => 0, 1, 0⟩

/-- With interrupts on enough bytes may come for the whole buffer. -/
theorem drainConsoleLoop_fills (hg : ∀ a, good a → s.mapped a = true) (hon : s.intr = true) (n got : ℕ)
    (hothers : s.others = List.replicate (2 * n) oneByte)
    (h : (drainConsoleLoop ptr n got).Stays fs fails good s) :
    ∀ k < n, good (addrOf ptr (got + k)) := by
  induction n generalizing got s with
  | zero => exact fun k hk => absurd hk (by omega)
  | succ n ih =>
    obtain ⟨s1, hs1⟩ : ∃ s1 : SysState, s1 = { s with
      con := { oneByte with inTail := oneByte.inTail + 1 }, others := List.replicate (2 * n) oneByte } := ⟨_, rfl⟩
    have hrun : sysHandler fs fails (SysOp.trygetc : sysSig.Op) s = .ok (some 0, s1) := by
      simp only [sysHandler, SysState.look, SysState.take, hon, hothers, Nat.mul_succ, List.replicate_succ, hs1]
      rfl
    have hstore := (Sys.perform_stays_iff rfl hrun).1 h
    rw [Sys.store_stays_iff (by rw [hs1]; exact hg _)] at hstore
    rw [range_succ]
    subst hs1
    exact ⟨hstore.1, ih (s := { s with
      mem := _, con := _, others := List.replicate (2 * n) oneByte }) hg hon _ rfl hstore.2⟩

end Loops

/-! ## The calls -/

/-- How many bytes `file_read` copies to the caller; a copy that leaves the buffer of the file has
    no result. -/
def FileSys.readCount (s : FileSys) (pid : ℕ) (fd : Int) (n : ℕ) : ℕ :=
  match getFile s.files pid fd with
  | none => 0
  | some i =>
    let k := min n (sub32 (s.files i).size (s.files i).pos)
    if (s.files i).mode = oRdonly ∧ (s.files i).pos + k ≤ s.fat.heap.payload (s.files i).buf then k
    else 0

/-- How many bytes at its pointer a call may get to. While `read_console` waits on an empty ring, any number
    of bytes may come. -/
def Regs.span (r : Regs) (s : SysState) : Syscall → ℕ
  | .puts => scanLen s.mem r.ebx 4096 0
  | .open => scanLen s.mem r.ebx (2 ^ 32) 0
  | .read =>
    if r.ebx = 0 then
      if s.con.inHead = s.con.inTail then r.edx.toNat else min r.edx.toNat s.con.pending.length
    else s.files.readCount s.pid (toInt32 r.ebx.toNat) r.edx.toNat
  | .write =>
    if r.ebx = 1 ∨ r.ebx = 2 ∨ fileWriteAdmits s.files.files s.pid (toInt32 r.ebx.toNat) r.edx.toNat = true
    then r.edx.toNat else 0
  | .getargs => argsLen s.args r.ecx + 1
  | _ => 0

section Calls

variable {fs : Fs} {fails : Faults} {s : SysState} {good : ℕ → Prop} {r : Regs}

/-- The number of bytes that `file_read` gives, if it comes to an end. -/
theorem fileRead_count (pid n : ℕ) (fd : Int) (q : FileSys) :
    (∃ k data q', fileRead pid fd n q = .ok ((k, data), q') ∧ data.length = q.readCount pid fd n) ∨
      (fileRead pid fd n q = .error .undefined ∧ q.readCount pid fd n = 0) := by
  unfold fileRead FileSys.readCount
  cases hget : getFile q.files pid fd with
  | none => exact Or.inl ⟨_, _, _, rfl, rfl⟩
  | some i =>
    have hmin : (if sub32 (q.files i).size (q.files i).pos < n then sub32 (q.files i).size (q.files i).pos
        else n) = min n (sub32 (q.files i).size (q.files i).pos) := by
      split_ifs <;> omega
    simp only [hmin]
    by_cases hmode : (q.files i).mode = oRdonly
    · rw [if_neg (not_not.2 hmode)]
      by_cases hfit : (q.files i).pos + min n (sub32 (q.files i).size (q.files i).pos)
          ≤ q.fat.heap.payload (q.files i).buf
      · rw [if_neg (not_lt.2 hfit), if_pos ⟨hmode, hfit⟩]
        exact Or.inl ⟨_, _, _, rfl, loadBytes_length _ _ _⟩
      · rw [if_pos (not_le.1 hfit), if_neg (fun h => hfit h.2)]
        exact Or.inr ⟨rfl, rfl⟩
    · rw [if_pos hmode, if_neg (fun h => hmode h.1)]
      exact Or.inl ⟨_, _, _, rfl, rfl⟩

section

variable (hg : ∀ a, good a → s.mapped a = true)

include hg

theorem sysPuts_stays_iff (hok : userRange r.ebx 1 = true) :
    (sysPuts r).Stays fs fails good s ↔
      ∀ i < r.span s .puts, good (addrOf r.ebx i) := by
  rw [sysPuts, if_neg (by rw [hok]; decide), Sys.bind_stays_iff (fun _ _ => Sys.pure_stays _),
    putsLoop_stays_iff hg]
  simp only [Nat.zero_add]
  rfl

theorem sysOpen_stays_iff (hok : userRange r.ebx 1 = true) :
    (sysOpen r).Stays fs fails good s ↔
      ∀ i < r.span s .open, good (addrOf r.ebx i) := by
  rw [sysOpen, if_neg (by rw [hok]; decide), Sys.bind_stays_iff (fun path s' => ?_),
    strlenLoop_stays_iff hg]
  · simp only [Nat.zero_add]
    rfl
  · split_ifs
    · exact Sys.pure_stays _
    · exact Sys.perform_stays rfl

/-- The first byte, and then the loop of `read_console`. -/
theorem drainConsole_rest (buf : UInt32) (n : ℕ) (c : UInt8) :
    (Sys.store (addrOf buf 0) c >>= fun _ => drainConsoleLoop buf n 1 >>= fun got =>
      (pure (toInt32 got) : Sys Int)).Stays fs fails good s ↔
    good (addrOf buf 0) ∧ (drainConsoleLoop buf n 1).Stays fs fails good
      { s with mem := Function.update s.mem (addrOf buf 0) c } := by
  rw [Sys.store_stays_iff (hg _), Sys.bind_stays_iff (fun _ _ => Sys.pure_stays _)]

/-- `read_console` on an empty ring, whatever comes while it waits. -/
theorem drainConsole_empty (hempty : s.con.inHead = s.con.inTail) (buf len : UInt32) :
    (∀ others, (drainConsole buf len).Stays fs fails good
      { s with others := others }) ↔ ∀ i < len.toNat, good (addrOf buf i) := by
  unfold drainConsole
  by_cases hlen : len = 0
  · rw [if_pos hlen, hlen]
    exact iff_of_true (fun _ => Sys.pure_stays _) (fun i hi => absurd hi (by simp))
  rw [if_neg hlen]
  obtain ⟨n, hn⟩ : ∃ n, len.toNat = n + 1 :=
    Nat.exists_eq_succ_of_ne_zero (fun h => hlen (UInt32.toNat_inj.1 h))
  have hall := @range_succ good buf n 0
  simp only [Nat.zero_add] at hall
  rw [hn, hall, Nat.add_sub_cancel]
  constructor
  · intro h
    -- a byte is there at every look
    obtain ⟨s1, hs1⟩ : ∃ s1 : SysState, s1 = { s with
      con := { oneByte with inTail := oneByte.inTail + 1 }, intr := true,
      others := List.replicate (2 * n) oneByte } := ⟨_, rfl⟩
    have hrun : sysHandler fs fails (SysOp.getc : sysSig.Op)
        { s with others := oneByte :: oneByte :: List.replicate (2 * n) oneByte } = .ok ((0 : UInt8), s1) := by
      simp only [sysHandler, if_pos hempty, awaitByte, hs1]
      rfl
    have hg1 : ∀ a, good a → s1.mapped a = true := by rw [hs1]; exact hg
    have hon : s1.intr = true := by rw [hs1]
    have hothers : s1.others = List.replicate (2 * n) oneByte := by rw [hs1]
    have hrest := (drainConsole_rest hg1 buf n 0).1 ((Sys.perform_stays_iff rfl hrun).1 (h _))
    exact ⟨hrest.1, drainConsoleLoop_fills (s := { s1 with mem := Function.update s1.mem (addrOf buf 0) 0 })
      hg1 hon n 1 hothers hrest.2⟩
  · rintro ⟨hfirst, hrest⟩ others
    cases hwait : awaitByte others with
    | none =>
      have hrun : sysHandler fs fails (SysOp.getc : sysSig.Op) { s with others := others } = .error .diverges := by
        simp only [sysHandler, if_pos hempty, hwait]
      exact Sys.perform_stays_of_error rfl hrun
    | some x =>
      obtain ⟨s1, hs1⟩ : ∃ s1 : SysState,
        s1 = { s with con := x.1, intr := true, others := x.2 }.look := ⟨_, rfl⟩
      have hg1 : ∀ a, good a → s1.mapped a = true := fun a ha => by
        rw [hs1, SysState.look_mapped]
        exact hg a ha
      have hrun : sysHandler fs fails (SysOp.getc : sysSig.Op) { s with others := others } = .ok s1.take := by
        simp only [sysHandler, if_pos hempty, hwait, hs1]
      refine (Sys.perform_stays_iff rfl hrun).2 ((drainConsole_rest (s := s1.take.2) hg1 buf n _).2 ⟨hfirst, ?_⟩)
      exact drainConsoleLoop_stays (s := { s1.take.2 with mem := Function.update s1.mem _ _ }) hg1 n 1 hrest

/-- `read_console` with bytes in the ring: interrupts stay off. -/
theorem drainConsole_pending (hoff : s.intr = false) (hne : s.con.inHead ≠ s.con.inTail)
    (buf len : UInt32) :
    (drainConsole buf len).Stays fs fails good s ↔
      ∀ i < min len.toNat s.con.pending.length, good (addrOf buf i) := by
  unfold drainConsole
  by_cases hlen : len = 0
  · rw [if_pos hlen, hlen]
    exact iff_of_true (Sys.pure_stays _) (fun i hi => absurd hi (by simp))
  obtain ⟨n, hn⟩ : ∃ n, len.toNat = n + 1 :=
    Nat.exists_eq_succ_of_ne_zero (fun h => hlen (UInt32.toNat_inj.1 h))
  have hrun : sysHandler fs fails (SysOp.getc : sysSig.Op) s = .ok s.take := by
    simp only [sysHandler, if_neg hne, SysState.look_off hoff]
  have hall := @range_succ good buf (min n s.take.2.con.pending.length) 0
  simp only [Nat.zero_add] at hall
  rw [if_neg hlen, hn, pending_take hne, List.length_cons, Nat.add_min_add_right, Nat.add_sub_cancel]
  refine (Sys.perform_stays_iff rfl hrun).trans ((drainConsole_rest (s := s.take.2) hg buf n _).trans
    (Iff.trans ?_ hall.symm))
  exact and_congr_right (fun _ =>
    drainConsoleLoop_stays_iff (s := { s.take.2 with mem := Function.update s.mem _ _ }) hg hoff n 1)

theorem sysRead_stays_iff (hoff : s.intr = false) (hok : userRange r.ecx r.edx = true) :
    (∀ others, (sysRead r).Stays fs fails good { s with others := others }) ↔
      ∀ i < r.span s .read, good (addrOf r.ecx i) := by
  simp only [sysRead, if_neg (by rw [hok]; decide : ¬ (!userRange r.ecx r.edx) = true), Regs.span]
  by_cases h0 : r.ebx = 0
  · simp only [if_pos h0]
    by_cases hempty : s.con.inHead = s.con.inTail
    · rw [if_pos hempty]
      exact drainConsole_empty hg hempty _ _
    · rw [if_neg hempty]
      exact Sys.stays_others fun others => drainConsole_pending (s := { s with others := others })
        hg hoff hempty r.ecx r.edx
  · simp only [if_neg h0]
    rcases fileRead_count s.pid r.edx.toNat (toInt32 r.ebx.toNat) s.files with
      ⟨k, data, q', hread, hlen⟩ | ⟨herr, hzero⟩
    · refine Sys.stays_others fun others => ?_
      have hrun : sysHandler fs fails (SysOp.read (toInt32 r.ebx.toNat) r.edx.toNat : sysSig.Op)
          { s with others := others } = .ok ((k, data), { s with others := others, files := q' }) := by
        simp only [sysHandler, onFiles, hread]
        rfl
      refine (Sys.perform_stays_iff rfl hrun).trans ?_
      rw [Sys.bind_stays_iff (fun _ _ => Sys.pure_stays _),
        copyOut_stays_iff (s := { s with others := others, files := q' }) hg, hlen]
      simp only [Nat.zero_add]
    · rw [hzero]
      refine iff_of_true (fun others => ?_) (fun i hi => absurd hi (by omega))
      have hrun : sysHandler fs fails (SysOp.read (toInt32 r.ebx.toNat) r.edx.toNat : sysSig.Op)
          { s with others := others } = .error .undefined := by
        simp only [sysHandler, onFiles, herr]
        rfl
      exact Sys.perform_stays_of_error rfl hrun

theorem sysWrite_stays_iff (hok : userRange r.ecx r.edx = true) :
    (sysWrite r).Stays fs fails good s ↔
      ∀ i < r.span s .write, good (addrOf r.ecx i) := by
  rw [sysWrite, if_neg (by rw [hok]; decide), Regs.span]
  by_cases hcon : r.ebx = 1 ∨ r.ebx = 2
  · rw [if_pos hcon, if_pos (or_assoc.1 (Or.inl hcon)), Sys.bind_stays_iff (fun _ _ => Sys.pure_stays _),
      writeConsoleLoop_stays_iff hg]
    simp only [Nat.zero_add]
  · rw [if_neg hcon]
    rw [not_or] at hcon
    simp only [hcon.1, hcon.2, false_or]
    refine (Sys.perform_stays_iff rfl rfl).trans ?_
    by_cases hadm : fileWriteAdmits s.files.files s.pid (toInt32 r.ebx.toNat) r.edx.toNat = true
    · rw [if_pos hadm, if_pos hadm]
      refine (Sys.bind_stays_iff fun bs _ => Sys.perform_stays (o := SysOp.write _ bs) rfl).trans ?_
      rw [copyIn_stays_iff hg]
      simp only [Nat.zero_add]
    · rw [if_neg hadm, if_neg hadm]
      exact iff_of_true (Sys.pure_stays _) (fun i hi => absurd hi (Nat.not_lt_zero i))

theorem sysGetargs_stays_iff (hok : userRange r.ebx r.ecx = true) :
    (sysGetargs r).Stays fs fails good s ↔
      ∀ i < r.span s .getargs, good (addrOf r.ebx i) := by
  rw [sysGetargs, if_neg (by rw [hok]; decide), Regs.span]
  refine ((Sys.perform_stays_iff rfl rfl).trans Prog.Clean.bind_iff).trans ?_
  rw [← Sys.Stays, copyOut_stays_iff hg, take_argsLen_length]
  have hstore : ∀ s', (∀ a, good a → s'.mapped a = true) →
      ((Sys.store (addrOf r.ebx (argsLen s.args r.ecx)) 0 >>= fun _ =>
        (pure (argsLen s.args r.ecx : Int) : Sys Int)).Stays fs fails good s' ↔ good (addrOf r.ebx (argsLen s.args r.ecx))) :=
    fun s' hg' => (Sys.store_stays_iff (hg' _)).trans (and_iff_left (Sys.pure_stays _))
  simp only [Nat.zero_add]
  constructor
  · rintro ⟨hcopy, hlast⟩ i hi
    rcases Nat.eq_or_lt_of_le (Nat.le_of_lt_succ hi) with rfl | hlt
    · have hrun := @copyOut_mapped fs fails s r.ebx (s.args.take (argsLen s.args r.ecx)) 0
        (fun k hk => by
          rw [take_argsLen_length] at hk
          rw [Nat.zero_add]
          exact hg _ (hcopy k hk))
      exact (hstore { s with mem := storeAt r.ebx (s.args.take (argsLen s.args r.ecx)) 0 s.mem }
        hg).1 (hlast _ _ hrun)
    · exact hcopy i hlt
  · intro h
    refine ⟨fun i hi => h i (by omega), fun u s' hrun => ?_⟩
    have hmapped : ∀ a, good a → s'.mapped a = true := by
      rw [copyOut_run hrun]
      exact hg
    exact (hstore s' hmapped).2 (h _ (Nat.lt_succ_self _))

end

/-- A call without a pointer does not access the memory of the caller. -/
theorem stays_of_no_buffer {c : Syscall} (hc : Syscall.ofNumber r.eax = some c)
    (hb : r.buffer c = none) :
    (syscallDispatch r).Stays fs fails good s := by
  unfold syscallDispatch
  rw [hc]
  cases c with
  | exit => exact Sys.perform_stays_of_error rfl rfl
  | putc | ticks | yield => exact (Sys.perform_stays_iff rfl rfl).2 (Sys.pure_stays _)
  | getc => exact Prog.Clean.bind (Sys.perform_stays rfl) (fun _ _ _ => Sys.pure_stays _)
  | close => exact Sys.perform_stays rfl
  | puts | «open» | read | write | getargs => cases hb

theorem stays_iff_of_buffer (hg : ∀ a, good a → s.mapped a = true) (hoff : s.intr = false) {c : Syscall}
    {ptr len : UInt32} (hc : Syscall.ofNumber r.eax = some c) (hb : r.buffer c = some (ptr, len))
    (hok : userRange ptr len = true) :
    (∀ others, (syscallDispatch r).Stays fs fails good
      { s with others := others }) ↔ ∀ i < r.span s c, good (addrOf ptr i) := by
  -- only `read_console` looks at what the others do
  unfold syscallDispatch
  rw [hc]
  cases c with
  | puts =>
    cases hb
    exact Sys.stays_others fun others => sysPuts_stays_iff (s := { s with others := others }) hg hok
  | «open» =>
    cases hb
    exact Sys.stays_others fun others => sysOpen_stays_iff (s := { s with others := others }) hg hok
  | read =>
    cases hb
    exact sysRead_stays_iff hg hoff hok
  | write =>
    cases hb
    exact Sys.stays_others fun others => sysWrite_stays_iff (s := { s with others := others }) hg hok
  | getargs =>
    cases hb
    exact Sys.stays_others fun others => sysGetargs_stays_iff (s := { s with others := others }) hg hok
  | _ => cases hb

/-- The accesses of a call are good exactly when the bytes it may get to are. -/
theorem syscallDispatch_stays_iff (hg : ∀ a, good a → s.mapped a = true) (hoff : s.intr = false) :
    (∀ others, (syscallDispatch r).Stays fs fails good
      { s with others := others }) ↔
      ∀ c ptr len, Syscall.ofNumber r.eax = some c → r.buffer c = some (ptr, len) →
        userRange ptr len = true → ∀ i < r.span s c, good (addrOf ptr i) := by
  constructor
  · intro h c ptr len hc hb hok
    exact (stays_iff_of_buffer hg hoff hc hb hok).1 h
  · intro h
    cases hc : Syscall.ofNumber r.eax with
    | none =>
      unfold syscallDispatch
      rw [hc]
      exact fun _ => Sys.pure_stays _
    | some c =>
      cases hb : r.buffer c with
      | none => exact fun _ => stays_of_no_buffer hc hb
      | some b =>
        cases hok : userRange b.1 b.2 with
        | true => exact (stays_iff_of_buffer hg hoff hc hb hok).2 (h c b.1 b.2 hc hb hok)
        | false =>
          rw [syscallDispatch_rejects hc hb hok]
          exact fun _ => Sys.pure_stays _

end Calls

/-! ## In the address space of a process -/

/-- The address is in the user window, and its page is present in the page table of `d`. -/
def Accessible (m : Mem) (d a : ℕ) : Prop :=
  userBase ≤ a ∧ a < userStackTop ∧
    present (m.word (tableOf m d + 4 * ((a - userBase) / frameSize))) = true
  deriving Decidable

/-- The `n` bytes at `ptr` are in the user window, and the page table of `d` has all their pages. -/
def Covered (m : Mem) (d ptr n : ℕ) : Prop :=
  n = 0 ∨ userBase ≤ ptr ∧ ptr + n ≤ userStackTop ∧
    ∀ j, (ptr - userBase) / frameSize ≤ j → j ≤ (ptr + n - 1 - userBase) / frameSize →
      present (m.word (tableOf m d + 4 * j)) = true

theorem covered_iff (m : Mem) (d : ℕ) (ptr : UInt32) (n : ℕ) :
    (∀ i < n, Accessible m d (addrOf ptr i)) ↔ Covered m d ptr.toNat n := by
  have hptr := ptr.toNat_lt
  have htop : userStackTop < 2 ^ 32 := by decide
  have hplace : ∀ i, ptr.toNat + i < 2 ^ 32 → addrOf ptr i = ptr.toNat + i := fun i hi => w32_eq hi
  rcases Nat.eq_zero_or_pos n with rfl | hpos
  · exact iff_of_true (fun i hi => absurd hi (Nat.not_lt_zero i)) (Or.inl rfl)
  constructor
  · intro h
    have hfirst := h 0 hpos
    rw [hplace 0 (by omega), Nat.add_zero] at hfirst
    have hend : ptr.toNat + n ≤ userStackTop := by
      by_contra hover
      -- the byte at the end of the window
      have hlast := (h (userStackTop - ptr.toNat) (by omega)).2.1
      have hlt := hfirst.2.1
      rw [hplace _ (by omega)] at hlast
      omega
    refine Or.inr ⟨hfirst.1, hend, fun j hlo hhi => ?_⟩
    -- the first byte of the buffer in page `j`
    have hin := h (max ptr.toNat (userBase + j * frameSize) - ptr.toNat) (by
      have := hfirst.1
      unfold frameSize at *
      omega)
    rw [hplace _ (by
      have := hfirst.1
      unfold frameSize at *
      omega)] at hin
    have hpage : (ptr.toNat + (max ptr.toNat (userBase + j * frameSize) - ptr.toNat) - userBase) / frameSize = j := by
      have := hfirst.1
      unfold frameSize at *
      omega
    rw [Accessible, hpage] at hin
    exact hin.2.2
  · rintro (hzero | ⟨hlo, hhi, hpages⟩) i hi
    · omega
    · rw [hplace i (by omega)]
      refine ⟨by omega, by omega, hpages _ (Nat.div_le_div_right (by omega)) (Nat.div_le_div_right (by omega))⟩

/-- The system calls work through page directory `d`. -/
def SysState.Through (s : SysState) (m : Mem) (d : ℕ) : Prop :=
  ∀ a, s.mapped a = (walk false m d a).isSome

theorem PagingInv.mapped_of_accessible {kdir : ℕ} {rest : List ℕ} {l : List Space} {sp : Space}
    {ph : Phys} (h : PagingInv kdir rest l ph) (hsp : sp ∈ l) {a : ℕ}
    (ha : Accessible ph.mem sp.dir a) : (walk false ph.mem sp.dir a).isSome = true := by
  obtain ⟨hlo, hhi, hpres⟩ := ha
  have hlt : (a - userBase) / frameSize < 1024 := by
    unfold userBase userStackTop frameSize at *
    omega
  rw [h.tableOf_dir hsp, (h.spaces sp hsp).pages _ hlt] at hpres
  rw [h.walk_window hsp hlo hhi]
  cases hpage : sp.pages ((a - userBase) / frameSize) with
  | none =>
    rw [hpage] at hpres
    cases hpres
  | some f => rfl

/-- **A system call stays in the memory of its process**, whatever others do while it waits, exactly when the
    page table of the process has the pages of all bytes it may get to. -/
theorem syscall_stays_iff {map : List E820Entry} {mem : Mem} {kdir : ℕ} {s0 s1 s2 s3 : Phys}
    {live : List ℕ} {d size e : ℕ} {image : ℕ → UInt8}
    (hinit : pagingInit (frameInit map mem) = (kdir, s0)) (hkdir : kdir ≠ 0)
    (hrun : PagingRun kdir s0 s1 live) (hnew : pagingNewUser kdir s1 = (d, s2)) (hd : d ≠ 0)
    (hload : (elfLoad size).run (elfHandler image d) s2 = .ok (some e, s3))
    {fs : Fs} {fails : Faults} (s : SysState) (hs : s.Through s3.mem d) (hoff : s.intr = false)
    (r : Regs) :
    (∀ others, (syscallDispatch r).Clean (sysHandler fs fails) (SysOp.Leaves (Accessible s3.mem d))
      { s with others := others }) ↔
      ∀ c ptr len, Syscall.ofNumber r.eax = some c → r.buffer c = some (ptr, len) →
        userRange ptr len = true → Covered s3.mem d ptr.toNat (r.span s c) := by
  obtain ⟨l, hinv, -⟩ := pagingRun_inv hinit hkdir hrun
  rcases pagingNewUser_inv hinv with ⟨s', heq, -⟩ | ⟨sp, s', heq, hsp, -, -⟩
  · exact absurd (Prod.mk.inj (hnew.symm.trans heq)).1 hd
  obtain ⟨rfl, rfl⟩ := Prod.mk.inj (hnew.symm.trans heq)
  obtain ⟨r', s'', hrun', sp', hgrown, -⟩ := elfLoad_ends image size hsp
  obtain ⟨-, rfl⟩ := Prod.mk.inj (Except.ok.inj (hload.symm.trans hrun'))
  simp only [← covered_iff]
  refine syscallDispatch_stays_iff (fun a ha => ?_) hoff
  rw [hs a, ← hgrown.dir]
  rw [← hgrown.dir] at ha
  exact hgrown.inv.mapped_of_accessible (List.mem_cons_self ..) ha

/-- A process with memory full of ones and no arguments, in page directory `d`. -/
def onesIn (m : Mem) (d : ℕ) : SysState :=
  { onesState [] with mapped := fun a => (walk false m d a).isSome }

/-- A small process reads from the console into its stack; the ring is empty. -/
theorem syscall_stays_read : ∃ s2 s3, pagingNewUser 0x900000 mediumPhys = (0x901000, s2) ∧
    (elfLoad 86).run (elfHandler tinyImage 0x901000) s2 = .ok (some 0x40000000, s3) ∧
    ∀ others, (syscallDispatch ⟨9, 0, 0x403FF000, 16⟩).Clean (sysHandler smallFs noFaults)
      (SysOp.Leaves (Accessible s3.mem 0x901000)) { onesIn s3.mem 0x901000 with others := others } := by
  have hends : (elfLoad 86).Ends (elfHandler tinyImage 0x901000) (pagingNewUser 0x900000 mediumPhys).2
      (fun r s => r = some 0x40000000 ∧
        present (s.mem.word (tableOf s.mem 0x901000 + 4 * 1023)) = true) := by decide +kernel
  obtain ⟨r, s3, hload, rfl, hstack⟩ := hends
  refine ⟨_, s3, mediumPhys_newUser, hload, (syscall_stays_iff mediumPhys_init (by decide)
    PagingRun.init mediumPhys_newUser (by decide) hload (onesIn s3.mem 0x901000) (fun _ => rfl) rfl
    _).2 (fun c ptr len hc hb _ => ?_)⟩
  cases hc
  cases hb
  change Covered s3.mem 0x901000 0x403FF000 16
  refine Or.inr ⟨by decide, by decide, fun j hlo hhi => ?_⟩
  obtain rfl : j = 1023 := Nat.le_antisymm hhi hlo
  exact hstack

/-- The same process prints a string from a page that it does not have: the kernel faults. -/
theorem sysPuts_faults : ∃ s2 s3, pagingNewUser 0x900000 mediumPhys = (0x901000, s2) ∧
    (elfLoad 86).run (elfHandler tinyImage 0x901000) s2 = .ok (some 0x40000000, s3) ∧
    userRange 0x40100000 1 = true ∧ walk false s3.mem 0x901000 0x40100000 = none ∧
    (syscallDispatch ⟨4, 0x40100000, 0, 0⟩).run (sysHandler smallFs noFaults)
      (onesIn s3.mem 0x901000) = .error .undefined ∧
    ¬ (syscallDispatch ⟨4, 0x40100000, 0, 0⟩).Clean (sysHandler smallFs noFaults)
      (SysOp.Leaves (Accessible s3.mem 0x901000)) (onesIn s3.mem 0x901000) := by
  have hends : (elfLoad 86).Ends (elfHandler tinyImage 0x901000) (pagingNewUser 0x900000 mediumPhys).2
      (fun r s => r = some 0x40000000 ∧ walk false s.mem 0x901000 0x40100000 = none ∧
        ¬ Accessible s.mem 0x901000 0x40100000) := by decide +kernel
  obtain ⟨r, s3, hload, rfl, hwalk, hno⟩ := hends
  have hputs : syscallDispatch ⟨4, 0x40100000, 0, 0⟩
      = putsLoop 0x40100000 (4095 + 1) 0 >>= fun _ => pure 0 := rfl
  refine ⟨_, s3, mediumPhys_newUser, hload, by decide, hwalk, ?_, fun hclean => ?_⟩
  · have hfault : (Sys.load (addrOf 0x40100000 0)).run (sysHandler smallFs noFaults)
        (onesIn s3.mem 0x901000) = .error .undefined := by
      rw [Sys.load_run, if_neg]
      change ¬ (walk false s3.mem 0x901000 0x40100000).isSome = true
      rw [hwalk]
      decide
    rw [hputs, putsLoop, Prog.run_bind, Prog.run_bind, hfault]
  · rw [hputs, putsLoop] at hclean
    have hfirst := hclean.of_bind.1.of_bind.1
    exact hfirst.1 ⟨addrOf 0x40100000 0, rfl, hno⟩

end OctoOS
