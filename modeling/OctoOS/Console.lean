import OctoOS.Lib.RingBuffer
import Mathlib.Tactic.SplitIfs

set_option autoImplicit false

/-! # Console input (`kernel/console.c`, `read_console` of `kernel/syscall.c`)

Interrupts fill a ring of 256 bytes, and readers empty it. The shell runs `console_getc` with
interrupts on, so the timer may switch to another task between any two of its accesses to the
`volatile` indices; `Getc` says where in the function the shell is. A system call that finds a
byte runs with interrupts off: it is one step. -/

namespace OctoOS

/-- `inbuf`, `in_head` and `in_tail`. -/
structure Console where
  inbuf : BitVec 8 → UInt8
  inHead : BitVec 8
  inTail : BitVec 8

/-- `console_input`, called by the interrupt handlers. -/
def consoleInput (c : UInt8) (s : Console) : Console :=
  let next := s.inHead + 1
  if next = s.inTail then s
  else { s with inbuf := Function.update s.inbuf s.inHead c, inHead := next }

/-- `console_trygetc`; `none` is -1. -/
def consoleTrygetc (s : Console) : Option UInt8 × Console :=
  if s.inHead = s.inTail then (none, s)
  else (some (s.inbuf s.inTail), { s with inTail := s.inTail + 1 })

/-- `console_getc` behind the interrupt gate; `none` when it has to wait, with interrupts on. -/
def consoleGetc (s : Console) : Option (UInt8 × Console) :=
  if s.inHead = s.inTail then none
  else some (s.inbuf s.inTail, { s with inTail := s.inTail + 1 })

/-- The loop of `read_console`, with room for `n` more bytes. -/
def readConsoleLoop : ℕ → Console → List UInt8 × Console
  | 0, s => ([], s)
  | n + 1, s =>
    match consoleTrygetc s with
    | (none, s) => ([], s)
    | (some c, s) => (c :: (readConsoleLoop n s).1, (readConsoleLoop n s).2)

/-- `read_console`: the bytes put into the buffer of the caller. -/
def readConsole (len : ℕ) (s : Console) : Option (List UInt8 × Console) :=
  if len = 0 then some ([], s)
  else
    match consoleGetc s with
    | none => none
    | some (c, s) => some (c :: (readConsoleLoop (len - 1) s).1, (readConsoleLoop (len - 1) s).2)

/-- The next access of the shell in `console_getc`. -/
inductive Getc where
  /-- load `in_head` for the emptiness test -/
  | testHead
  /-- load `in_tail` and compare it with the loaded `in_head` -/
  | testTail (head : BitVec 8)
  /-- load `in_tail` as the index of the byte -/
  | index
  /-- load the byte -/
  | byte (i : BitVec 8)
  /-- load `in_tail` for its increment -/
  | bump (c : UInt8)
  /-- store the incremented `in_tail` and return the byte -/
  | store (c : UInt8) (tail : BitVec 8)
  deriving DecidableEq

/-- One access of `console_getc`, and the byte if it returns. After an empty test the shell halts
    until an interrupt and tests again. -/
def Getc.step (g : Getc) (s : Console) : Getc × Console × Option UInt8 :=
  match g with
  | .testHead => (.testTail s.inHead, s, none)
  | .testTail head => (if head = s.inTail then .testHead else .index, s, none)
  | .index => (.byte s.inTail, s, none)
  | .byte i => (.bump (s.inbuf i), s, none)
  | .bump c => (.store c s.inTail, s, none)
  | .store c tail => (.testHead, { s with inTail := tail + 1 }, some c)

/-- The shell has read the index of its byte and has not moved the tail yet. -/
def Getc.Holding : Getc → Prop
  | .byte _ | .bump _ | .store _ _ => True
  | _ => False

/-- The console, the shell in `console_getc`, and what went in and came out so far. -/
structure ConsoleSys where
  con : Console
  shell : Getc
  /-- bytes that `console_input` stored -/
  accepted : List UInt8
  /-- bytes handed to readers, in the order they were handed over -/
  delivered : List UInt8

/-- One step of a party. -/
inductive ConsoleEvent where
  /-- a keyboard or serial interrupt -/
  | irq (c : UInt8)
  /-- an access of the shell -/
  | shell
  /-- `SYS_GETC` -/
  | sysGetc
  /-- `SYS_READ` from descriptor 0 -/
  | sysRead (len : ℕ)

/-- The effect of a step. A system call that has to wait changes nothing. -/
def ConsoleSys.step (s : ConsoleSys) : ConsoleEvent → ConsoleSys
  | .irq c => { s with
      con := consoleInput c s.con
      accepted := if s.con.inHead + 1 = s.con.inTail then s.accepted else s.accepted ++ [c] }
  | .shell =>
    let (g, con, got) := s.shell.step s.con
    { s with con := con, shell := g, delivered := s.delivered ++ got.toList }
  | .sysGetc =>
    match consoleGetc s.con with
    | none => s
    | some (c, con) => { s with con := con, delivered := s.delivered ++ [c] }
  | .sysRead len =>
    match readConsole len s.con with
    | none => s
    | some (cs, con) => { s with con := con, delivered := s.delivered ++ cs }

/-- The state after boot. -/
def consoleBoot : ConsoleSys := ⟨⟨fun _ => 0, 0, 0⟩, .testHead, [], []⟩

/-! ## The ring as a queue -/

/-- The ring of the console. -/
def Console.ring (s : Console) : RingBuffer 8 UInt8 := ⟨s.inbuf, s.inHead, s.inTail⟩

/-- The bytes still in the buffer, oldest first. -/
def Console.pending (s : Console) : List UInt8 := s.ring.contents

section Queue

variable {s : Console}

theorem pending_consoleInput (c : UInt8) (s : Console) : (consoleInput c s).pending
    = if s.inHead + 1 = s.inTail then s.pending else s.pending ++ [c] := by
  unfold consoleInput
  by_cases hfull : s.inHead + 1 = s.inTail
  · rw [if_pos hfull, if_pos hfull]
  · rw [if_neg hfull, if_neg hfull]
    exact RingBuffer.contents_push (r := s.ring) hfull c

/-- Input neither moves the tail nor touches the byte there. -/
theorem consoleInput_front (c : UInt8) (h : s.inHead ≠ s.inTail) :
    (consoleInput c s).inHead ≠ (consoleInput c s).inTail ∧ (consoleInput c s).inTail = s.inTail ∧
      (consoleInput c s).inbuf s.inTail = s.inbuf s.inTail := by
  unfold consoleInput
  by_cases hfull : s.inHead + 1 = s.inTail
  · rw [if_pos hfull]
    exact ⟨h, rfl, rfl⟩
  · rw [if_neg hfull]
    exact ⟨hfull, rfl, Function.update_of_ne (Ne.symm h) _ _⟩

/-- Taking a byte takes the oldest. -/
theorem pending_take (h : s.inHead ≠ s.inTail) :
    s.pending = s.inbuf s.inTail :: ({ s with inTail := s.inTail + 1 } : Console).pending :=
  RingBuffer.contents_pop (r := s.ring) h

theorem consoleGetc_pending {c : UInt8} {s' : Console} (h : consoleGetc s = some (c, s')) :
    s.pending = c :: s'.pending := by
  unfold consoleGetc at h
  split_ifs at h with hempty
  cases h
  exact pending_take hempty

theorem readConsoleLoop_pending (n : ℕ) (s : Console) :
    s.pending = (readConsoleLoop n s).1 ++ (readConsoleLoop n s).2.pending := by
  induction n generalizing s with
  | zero => rfl
  | succ n ih =>
    rw [readConsoleLoop, consoleTrygetc]
    by_cases hempty : s.inHead = s.inTail
    · rw [if_pos hempty]
      rfl
    · rw [if_neg hempty, pending_take hempty, ih]
      rfl

theorem readConsole_pending {len : ℕ} {cs : List UInt8} {s' : Console}
    (h : readConsole len s = some (cs, s')) : s.pending = cs ++ s'.pending := by
  unfold readConsole at h
  by_cases hlen : len = 0
  · rw [if_pos hlen] at h
    cases h
    rfl
  · rw [if_neg hlen] at h
    cases hget : consoleGetc s with
    | none =>
      rw [hget] at h
      cases h
    | some r =>
      rw [hget] at h
      cases h
      rw [consoleGetc_pending hget, readConsoleLoop_pending (len - 1) r.2]
      rfl

end Queue

/-! ## Interleavings of the readers -/

/-- A step does not disturb the shell: it loads the index of its byte only with a byte there, and
    no system call takes bytes between that load and the store of the new tail. -/
def Undisturbed (s : ConsoleSys) : ConsoleEvent → Prop
  | .irq _ => True
  | .shell => s.shell = .index → s.con.inHead ≠ s.con.inTail
  | .sysGetc => s.shell.Holding → s.con.inHead = s.con.inTail
  | .sysRead len => s.shell.Holding → len = 0 ∨ s.con.inHead = s.con.inTail

/-- The states that undisturbed steps lead to. -/
inductive ConsoleRun : ConsoleSys → Prop where
  | boot : ConsoleRun consoleBoot
  | step {s : ConsoleSys} (e : ConsoleEvent) : ConsoleRun s → Undisturbed s e → ConsoleRun (s.step e)

/-- What the shell has read is still at the front of the ring. -/
def Getc.Front (g : Getc) (s : Console) : Prop :=
  match g with
  | .byte i => s.inHead ≠ s.inTail ∧ i = s.inTail
  | .bump c => s.inHead ≠ s.inTail ∧ c = s.inbuf s.inTail
  | .store c tail => s.inHead ≠ s.inTail ∧ c = s.inbuf s.inTail ∧ tail = s.inTail
  | _ => True

/-- The invariant of runs. -/
structure ConsoleInv (s : ConsoleSys) : Prop where
  fifo : s.accepted = s.delivered ++ s.con.pending
  front : s.shell.Front s.con

section Runs

variable {s : ConsoleSys}

theorem Getc.front_of_not_holding {g : Getc} (h : ¬ g.Holding) (s : Console) : g.Front s := by
  cases g with
  | byte _ | bump _ | store _ _ => exact absurd trivial h
  | _ => trivial

theorem Getc.Front.input {g : Getc} {con : Console} (h : g.Front con) (c : UInt8) :
    g.Front (consoleInput c con) := by
  cases g with
  | byte i =>
    obtain ⟨hne, htail, -⟩ := consoleInput_front c h.1
    exact ⟨hne, h.2.trans htail.symm⟩
  | bump b =>
    obtain ⟨hne, htail, hbyte⟩ := consoleInput_front c h.1
    exact ⟨hne, by rw [htail, hbyte]; exact h.2⟩
  | store b t =>
    obtain ⟨hne, htail, hbyte⟩ := consoleInput_front c h.1
    exact ⟨hne, by rw [htail, hbyte]; exact h.2.1, h.2.2.trans htail.symm⟩
  | _ => trivial

/-- An access of the shell keeps what it has read at the front, and what it returns is from there. -/
theorem Getc.step_front {g : Getc} {con : Console} (h : g.Front con)
    (hindex : g = .index → con.inHead ≠ con.inTail) :
    (g.step con).1.Front (g.step con).2.1 ∧
      con.pending = (g.step con).2.2.toList ++ (g.step con).2.1.pending := by
  cases g with
  | testHead => exact ⟨trivial, rfl⟩
  | testTail head =>
    refine ⟨?_, rfl⟩
    rw [Getc.step]
    split_ifs <;> trivial
  | index => exact ⟨⟨hindex rfl, rfl⟩, rfl⟩
  | byte i =>
    obtain ⟨hne, rfl⟩ := h
    exact ⟨⟨hne, rfl⟩, rfl⟩
  | bump c => exact ⟨⟨h.1, h.2, rfl⟩, rfl⟩
  | store c tail =>
    obtain ⟨hne, rfl, rfl⟩ := h
    exact ⟨trivial, pending_take hne⟩

/-- A step delivers a piece of the front of the ring and keeps the rest. -/
theorem ConsoleInv.delivers (h : ConsoleInv s) (e : ConsoleEvent) (hu : Undisturbed s e) :
    ∃ got, (s.step e).delivered = s.delivered ++ got ∧ got <+: s.con.pending ∧
      ConsoleInv (s.step e) := by
  cases e with
  | irq c =>
    refine ⟨[], (List.append_nil _).symm, List.nil_prefix, ?_, h.front.input c⟩
    simp only [ConsoleSys.step, pending_consoleInput]
    split_ifs with hfull
    · exact h.fifo
    · rw [h.fifo, List.append_assoc]
  | shell =>
    obtain ⟨hfront, hpend⟩ := Getc.step_front h.front hu
    refine ⟨_, rfl, ⟨_, hpend.symm⟩, ?_, hfront⟩
    rw [ConsoleSys.step, h.fifo, hpend, List.append_assoc]
  | sysGetc =>
    rw [ConsoleSys.step]
    cases hget : consoleGetc s.con with
    | none => exact ⟨[], (List.append_nil _).symm, List.nil_prefix, h⟩
    | some r =>
      have hpend : s.con.pending = r.1 :: r.2.pending := consoleGetc_pending hget
      have hne : ¬ s.shell.Holding := fun hh => by simp [consoleGetc, hu hh] at hget
      refine ⟨[r.1], rfl, ⟨_, hpend.symm⟩, ?_, Getc.front_of_not_holding hne _⟩
      rw [h.fifo, hpend, List.append_assoc]
      rfl
  | sysRead len =>
    rw [ConsoleSys.step]
    cases hread : readConsole len s.con with
    | none => exact ⟨[], (List.append_nil _).symm, List.nil_prefix, h⟩
    | some r =>
      have hpend : s.con.pending = r.1 ++ r.2.pending := readConsole_pending hread
      refine ⟨r.1, rfl, ⟨_, hpend.symm⟩, by rw [h.fifo, hpend, List.append_assoc], ?_⟩
      -- a call that takes nothing may come while the shell holds its index
      by_cases hlen : len = 0
      · rw [readConsole, if_pos hlen] at hread
        cases hread
        exact h.front
      · refine Getc.front_of_not_holding (fun hh => ?_) _
        simp [readConsole, consoleGetc, hlen, (hu hh).resolve_left hlen] at hread

theorem ConsoleRun.inv (h : ConsoleRun s) : ConsoleInv s := by
  induction h with
  | boot => exact ⟨rfl, trivial⟩
  | step e _ hu ih =>
    obtain ⟨-, -, -, hinv⟩ := ih.delivers e hu
    exact hinv

end Runs

/-- In every run of undisturbed steps, what the readers got and what is in the ring are what was
    accepted, in order; and what a step hands over was in the ring. -/
theorem consoleRun_fifo {s : ConsoleSys} (h : ConsoleRun s) :
    s.accepted = s.delivered ++ s.con.pending ∧ ∀ e, Undisturbed s e →
      ∃ got, (s.step e).delivered = s.delivered ++ got ∧ got <+: s.con.pending := by
  refine ⟨h.inv.fifo, fun e hu => ?_⟩
  obtain ⟨got, hdel, hgot, -⟩ := h.inv.delivers e hu
  exact ⟨got, hdel, hgot⟩

/-- Two bytes come in, the shell takes the first and a `SYS_READ` the second. -/
theorem consoleRun_fifo_twoReaders :
    ([.irq 0x61, .irq 0x62, .shell, .shell, .shell, .shell, .shell, .shell, .sysRead 5].foldl
      ConsoleSys.step consoleBoot).delivered = [0x61, 0x62] ∧
    ∃ s, ConsoleRun s ∧ s.delivered = [0x61, 0x62] ∧ s.accepted = s.delivered ++ s.con.pending := by
  have hshell : ∀ s, ConsoleRun s → s.shell ≠ .index → ConsoleRun (s.step .shell) :=
    fun s h hne => h.step .shell (fun hc => absurd hc hne)
  have h0 := (ConsoleRun.boot.step (.irq 0x61) trivial).step (.irq 0x62) trivial
  have h1 := hshell _ (hshell _ h0 (by decide)) (by decide)
  have h2 := h1.step .shell (fun _ => by decide)
  have h3 := hshell _ (hshell _ (hshell _ h2 (by decide)) (by decide)) (by decide)
  have h4 := h3.step (.sysRead 5) (fun hh => absurd hh id)
  exact ⟨by decide, _, h4, by decide, (consoleRun_fifo h4).1⟩

/-- The shell finds one byte, a `SYS_GETC` takes it, the shell goes on: it gets a byte that never
    came in, and the ring looks full. -/
theorem consoleGetc_replays :
    let s := [.irq 0x61, .shell, .shell, .sysGetc, .shell, .shell, .shell, .shell].foldl
      ConsoleSys.step consoleBoot
    s.accepted = [0x61] ∧ s.delivered = [0x61, 0] ∧ ¬ s.delivered <+: s.accepted ∧
      s.con.pending.length = 255 := by
  decide +kernel

/-! ## One reader

With one reader the calls come one after another, and the ring is a queue of at most 255 bytes. -/

/-- A call on the ring. -/
inductive RingCall where
  | input (c : UInt8)
  | trygetc
  | getc

/-- What a call returns: nothing, an `int` or a `char`. -/
inductive RingAnswer where
  | void
  | int (v : Int)
  | char (c : UInt8)
  deriving DecidableEq

/-- The `int` that `console_trygetc` returns. -/
def trygetcInt : Option UInt8 → Int
  | none => -1
  | some c => c.toNat

/-- A call on the console; `none` when it would have to wait. -/
def RingCall.exec (s : Console) : RingCall → Option (RingAnswer × Console)
  | .input c => some (.void, consoleInput c s)
  | .trygetc => some (.int (trygetcInt (consoleTrygetc s).1), (consoleTrygetc s).2)
  | .getc => (consoleGetc s).map (fun r => (.char r.1, r.2))

/-- The same call on a queue of at most 255 bytes, oldest first. -/
def RingCall.spec (q : List UInt8) : RingCall → Option (RingAnswer × List UInt8)
  | .input c => some (.void, if q.length < 255 then q ++ [c] else q)
  | .trygetc =>
    match q with
    | [] => some (.int (-1), [])
    | c :: q => some (.int c.toNat, q)
  | .getc =>
    match q with
    | [] => none
    | c :: q => some (.char c, q)

/-- A sequence of calls: the answers and the state at the end. -/
def ringRun {σ : Type} (step : σ → RingCall → Option (RingAnswer × σ)) :
    List RingCall → σ → Option (List RingAnswer × σ)
  | [], s => some ([], s)
  | call :: calls, s =>
    match step s call with
    | none => none
    | some (a, s) => (ringRun step calls s).map (fun r => (a :: r.1, r.2))

section Ring

variable {s : Console}

theorem pending_eq_nil_iff : s.pending = [] ↔ s.inHead = s.inTail :=
  RingBuffer.contents_eq_nil_iff (r := s.ring)

theorem full_iff_pending : s.inHead + 1 = s.inTail ↔ s.pending.length = 255 := by
  have h := RingBuffer.full_iff (r := s.ring)
  constructor
  · intro hfull
    exact Nat.succ.inj (h.1 hfull)
  · intro hlen
    exact h.2 (congrArg (· + 1) hlen)

theorem pending_length_le (s : Console) : s.pending.length ≤ 255 := by
  have h := (s.inHead - s.inTail).isLt
  have hlen : s.pending.length = (s.inHead - s.inTail).toNat := RingBuffer.length_contents s.ring
  omega

/-- One call does to the queue what it should. -/
theorem RingCall.exec_pending (s : Console) (call : RingCall) :
    (call.exec s).map (Prod.map id Console.pending) = call.spec s.pending := by
  cases call with
  | input c =>
    rw [exec, spec, Option.map_some, Prod.map_apply, pending_consoleInput]
    have hle := pending_length_le s
    by_cases hfull : s.inHead + 1 = s.inTail
    · rw [if_pos hfull, if_neg (by rw [full_iff_pending.1 hfull]; decide)]
      rfl
    · rw [if_neg hfull, if_pos]
      · rfl
      · exact Nat.lt_of_le_of_ne hle (fun h => hfull (full_iff_pending.2 h))
  | trygetc =>
    rw [exec, consoleTrygetc]
    by_cases hempty : s.inHead = s.inTail
    · rw [if_pos hempty, Option.map_some, Prod.map_apply, pending_eq_nil_iff.2 hempty]
      rfl
    · rw [if_neg hempty, pending_take hempty]
      rfl
  | getc =>
    rw [exec, consoleGetc]
    by_cases hempty : s.inHead = s.inTail
    · rw [if_pos hempty, pending_eq_nil_iff.2 hempty]
      rfl
    · rw [if_neg hempty, pending_take hempty]
      rfl

theorem ringRun_pending (calls : List RingCall) (s : Console) :
    (ringRun (fun s call => call.exec s) calls s).map (Prod.map id Console.pending)
      = ringRun (fun q call => call.spec q) calls s.pending := by
  induction calls generalizing s with
  | nil => rfl
  | cons call calls ih =>
    rw [ringRun, ringRun, ← RingCall.exec_pending]
    cases call.exec s with
    | none => rfl
    | some r =>
      rw [Option.map_some]
      simp only [Prod.map_fst, Prod.map_snd, ← ih, Option.map_map]
      rfl

end Ring

/-- **With one reader the ring is a bounded queue**, from any state on and for any number of calls:
    the answers are those of the queue and the bytes in the ring are those in it. A byte that comes
    in with 255 bytes waiting changes nothing, not even a cell. -/
theorem consoleRing_queue (calls : List RingCall) (s : Console) :
    (ringRun (fun s call => call.exec s) calls s).map (Prod.map id Console.pending)
        = ringRun (fun q call => call.spec q) calls s.pending ∧
      s.pending.length ≤ 255 ∧ ∀ c, s.pending.length = 255 → consoleInput c s = s := by
  refine ⟨ringRun_pending calls s, pending_length_le s, fun c hlen => ?_⟩
  rw [consoleInput]
  exact if_pos (full_iff_pending.2 hlen)

end OctoOS
