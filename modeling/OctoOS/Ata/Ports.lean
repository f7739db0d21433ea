import OctoOS.Ata.Device

set_option autoImplicit false

/-! # The ATA driver at its ports (`kernel/ata.c`)

`ata_init`, `ata_read` and `ata_write` as programs of port accesses, run against the drive. The
buffers are memories, and a sector number is a `uint32_t`.

The polling loops look at the status a million times. A drive that is `Prompt` is never busy for that
long. With such a drive the port programs do what the FAT driver's
machine says: `readSectors` and `writeSectors`, where an access fails if its command is not `done`. -/

namespace OctoOS

open Atomic PortIo

namespace Pio

def ataData : UInt16 := 0x1F0
def ataCount : UInt16 := 0x1F2
def ataLba0 : UInt16 := 0x1F3
def ataLba1 : UInt16 := 0x1F4
def ataLba2 : UInt16 := 0x1F5
def ataDrive : UInt16 := 0x1F6
def ataStatus : UInt16 := 0x1F7
def ataCmd : UInt16 := 0x1F7
def ataCtrl : UInt16 := 0x3F6

def stErr : UInt8 := 0x01
def stDrq : UInt8 := 0x08
def stDf : UInt8 := 0x20
def stBsy : UInt8 := 0x80

def cmdRead : UInt8 := 0x20
def cmdWrite : UInt8 := 0x30
def cmdFlush : UInt8 := 0xE7
def cmdIdentify : UInt8 := 0xEC

/-- What one look of `ata_wait_ready` decides. -/
def readyTest (st : UInt8) : Option Bool :=
  if st &&& stBsy ≠ 0 then none
  else if st &&& (stErr ||| stDf) ≠ 0 then some false
  else some true

/-- What one look of `ata_wait_drq` decides. -/
def drqTest (st : UInt8) : Option Bool :=
  if st &&& stBsy ≠ 0 then none
  else if st &&& (stErr ||| stDf) ≠ 0 then some false
  else if st &&& stDrq ≠ 0 then some true
  else none

/-- Looks at the status before the driver gives up. -/
def patience : ℕ := 1000000

def ataWaitReady : Driver Bool := do
  let r ← poll ataStatus readyTest patience
  return r.getD false

def ataWaitDrq : Driver Bool := do
  let r ← poll ataStatus drqTest patience
  return r.getD false

/-- How a round of `ata_read` and of `ata_write` begins: one sector is named, the command given and
    the data request awaited. -/
def ataBegin (lba : ℕ) (cmd : UInt8) : Driver Bool := do
  outb ataDrive (UInt8.ofNat (0xE0 ||| (lba >>> 24 &&& 0x0F)))
  outb ataCount 1
  outb ataLba0 (UInt8.ofNat lba)
  outb ataLba1 (UInt8.ofNat (lba >>> 8))
  outb ataLba2 (UInt8.ofNat (lba >>> 16))
  outb ataCmd cmd
  ataWaitDrq

/-- `ata_read(lba, count, buf)` with `buf` at `a`: success, and the memory after it. -/
def ataRead : ℕ → ℕ → ℕ → Mem → Driver (Bool × Mem)
  | 0, _, _, m => return (true, m)
  | count + 1, lba, a, m => do
    if 2 ^ 28 ≤ lba then return (false, m)
    else if ← ataBegin lba cmdRead then
      let m ← insw ataData 256 a m
      ataRead count (lba + 1) (a + 512) m
    else return (false, m)

/-- The loop of `ata_write`. -/
def ataWriteLoop (m : Mem) : ℕ → ℕ → ℕ → Driver Bool
  | 0, _, _ => return true
  | count + 1, lba, a => do
    if 2 ^ 28 ≤ lba then return false
    else if ← ataBegin lba cmdWrite then
      outsw ataData m 256 a
      if ← ataWaitReady then ataWriteLoop m count (lba + 1) (a + 512) else return false
    else return false

/-- `ata_write(lba, count, buf)`: the loop, and a flush at its end. -/
def ataWrite (count lba a : ℕ) (m : Mem) : Driver Bool := do
  if ← ataWriteLoop m count lba a then
    outb ataCmd cmdFlush
    ataWaitReady
  else return false

/-- The loop that cuts the blanks off the end of the model string, from index `i` down. -/
def trimModel (model : List UInt8) : ℕ → List UInt8
  | 0 => model
  | i + 1 => if model.getD i 0 = 0x20 then trimModel (model.set i 0) i else model

/-- The characters of the model string: 20 words from word 27 on, high byte first. -/
def modelChars (id : List UInt16) : List UInt8 :=
  (List.range 20).flatMap fun i =>
    [UInt8.ofNat ((id.getD (27 + i) 0).toNat / 256), UInt8.ofNat ((id.getD (27 + i) 0).toNat % 256)]

/-- The contents of `model[41]`. -/
def modelOf (id : List UInt16) : List UInt8 := trimModel (modelChars id ++ [0]) 40

/-- The data of `CMD_IDENTIFY`: the model string and the number of sectors. -/
def identifyData : Driver (Option (List UInt8 × ℕ)) := do
  if ← ataWaitDrq then
    let id ← inws ataData 256
    return some (modelOf id, (id.getD 60 0).toNat ||| (id.getD 61 0).toNat <<< 16)
  else return none

/-- `ata_init()`. -/
def ataInit : Driver (Option (List UInt8 × ℕ)) := do
  outb ataCtrl 0x02
  outb ataDrive 0xA0
  outb ataCount 0
  outb ataLba0 0
  outb ataLba1 0
  outb ataLba2 0
  outb ataCmd cmdIdentify
  let st ← inb ataStatus
  if st = 0 then return none else identifyData

end Pio

/-- A drive that the polling loops can wait for. -/
structure Script.Prompt (s : Script) : Prop where
  delay : ∀ n, s.delay n < Pio.patience
  settle : ∀ n, s.settle n < Pio.patience

/-- Whether the `n`-th command moves its sector. -/
def Script.fails (s : Script) (n : ℕ) : Bool := s.outcome n ≠ .done

/-- The accesses that fail, if every command is for one access. -/
def Script.faults (s : Script) : Faults := ataFails fun n _ => s.fails n

namespace Pio

/-! ## Status bytes -/

theorem drqTest_busy : ∀ v, drqTest (v ||| 0x80) = none := forall_byte (by decide +kernel)

theorem drqTest_failed : ∀ v, drqTest (Drive.restStatus v (.idle true)) = some false :=
  forall_byte (by decide +kernel)

theorem drqTest_silent : ∀ v, drqTest (Drive.restStatus v (.idle false)) = none :=
  forall_byte (by decide +kernel)

theorem drqTest_data : ∀ v, drqTest (v &&& 0x56 ||| 0x08) = some true := forall_byte (by decide +kernel)

theorem drqTest_dataIn (v : UInt8) (ws : List UInt16) : drqTest (Drive.restStatus v (.dataIn ws)) = some true :=
  drqTest_data v

section Waiting

variable {s : Script} {d : Drive} {test : UInt8 → Option Bool}

theorem waits_busy (htest : ∀ v, test (v ||| 0x80) = none) (k j : ℕ) (d : Drive) (hk : d.busy = k + j) :
    Waits (ideDevice s) ataStatus test k d { d with busy := j } := by
  induction k generalizing d with
  | zero =>
    rw [Nat.zero_add] at hk
    subst hk
    exact .none
  | succ k ih =>
    have hread : (ideDevice s).inb ataStatus d
        = (s.noise d.commands (k + j) ||| 0x80, { d with busy := k + j }) := by
      rw [Nat.succ_add] at hk
      simp [ideDevice, Drive.inb, ataStatus, hk]
    exact .more hread (htest _) (ih { d with busy := k + j } rfl)

theorem inb_rest (hd : d.busy = 0) :
    (ideDevice s).inb ataStatus d = (Drive.restStatus (s.noise d.commands 0) d.rest, d) := by
  simp [ideDevice, Drive.inb, ataStatus, hd]

theorem poll_prompt (htest : ∀ v, test (v ||| 0x80) = none) (hd : d.busy < patience) {b : Bool}
    (hrest : test (Drive.restStatus (s.noise d.commands 0) d.rest) = some b) :
    (poll ataStatus test patience).run (ideDevice s).handler d = .ok (some b, { d with busy := 0 }) :=
  poll_run (waits_busy htest d.busy 0 d rfl) (inb_rest rfl) hrest hd

/-- The word the drive wants to move, or its error, is seen. -/
theorem ataWaitDrq_run {b : Bool} (hd : d.busy < patience)
    (hrest : ∀ v, drqTest (Drive.restStatus v d.rest) = some b) :
    ataWaitDrq.run (ideDevice s).handler d = .ok (b, { d with busy := 0 }) := by
  have hpoll := poll_prompt (s := s) drqTest_busy hd (hrest _)
  rw [ataWaitDrq, Prog.run_bind_ok _ hpoll]
  rfl

/-- A drive that asks for no data keeps the driver waiting to the end. -/
theorem ataWaitDrq_silent (hd : d.busy < patience) (hrest : d.rest = .idle false) :
    ataWaitDrq.run (ideDevice s).handler d = .ok (false, { d with busy := 0 }) := by
  have hidle : ∀ n, Waits (ideDevice s) ataStatus drqTest n { d with busy := 0 } { d with busy := 0 } := by
    intro n
    induction n with
    | zero => exact .none
    | succ n ih =>
      have hread := inb_rest (s := s) (d := { d with busy := 0 }) rfl
      exact .more hread (hrest ▸ drqTest_silent _) ih
  have hpoll := poll_waits (waits_busy (s := s) drqTest_busy d.busy 0 d rfl) (patience - d.busy)
  rw [Nat.add_sub_cancel' (Nat.le_of_lt hd), poll_gives_up (hidle _)] at hpoll
  rw [ataWaitDrq, Prog.run_bind_ok _ hpoll]
  rfl

theorem ataWaitDrq_idle (hd : d.busy < patience) {e : Bool} (hrest : d.rest = .idle e) :
    ataWaitDrq.run (ideDevice s).handler d = .ok (false, { d with busy := 0 }) := by
  cases e with
  | true => exact ataWaitDrq_run hd fun v => hrest ▸ drqTest_failed v
  | false => exact ataWaitDrq_silent hd hrest

end Waiting

/-! ## Commands -/

/-- The registers name one sector. -/
def select (d : Drive) (lba : ℕ) : Drive :=
  { d with
    device := UInt8.ofNat (0xE0 ||| (lba >>> 24 &&& 0x0F)), count := 1, lba0 := UInt8.ofNat lba
    lba1 := UInt8.ofNat (lba >>> 8), lba2 := UInt8.ofNat (lba >>> 16) }

/-- The drive takes a command. -/
def start (s : Script) (d : Drive) (cmd : UInt8) : Drive :=
  { d with busy := s.delay d.commands, rest := d.begin s cmd, commands := d.commands + 1 }

section Commands

variable {s : Script} {d : Drive} {lba : ℕ}

theorem outb_cmd (hd : d.Free) (cmd : UInt8) : (ideDevice s).outb ataCmd cmd d = start s d cmd := by
  simp [ideDevice, Drive.outb, ataCmd, hd, start]

theorem ataBegin_run (hd : d.Free) (cmd : UInt8) :
    (ataBegin lba cmd).run (ideDevice s).handler d
      = ataWaitDrq.run (ideDevice s).handler (start s (select d lba) cmd) := by
  have hfree : ∀ dev c l0 l1 l2,
      Drive.Free { d with device := dev, count := c, lba0 := l0, lba1 := l1, lba2 := l2 } :=
    fun _ _ _ _ _ => hd
  simp [ataBegin, Prog.run_bind, ideDevice, Drive.outb, ataDrive, ataCount, ataLba0, ataLba1, ataLba2,
    ataCmd, hd, hfree, select, start]

theorem device_select (lba : ℕ) : (select d lba).device.toNat = 0xE0 + lba / 2 ^ 24 % 16 := by
  have htop : lba >>> 24 &&& 0x0F = lba / 2 ^ 24 % 16 := by
    rw [Nat.shiftRight_eq_div_pow]
    exact Nat.and_two_pow_sub_one_eq_mod _ 4
  have hor : ∀ t < 16, (UInt8.ofNat (0xE0 ||| t)).toNat = 0xE0 + t := by decide
  rw [select, htop]
  exact hor _ (Nat.mod_lt _ (by decide))

/-- The registers name the sector. -/
theorem lba_select (hlba : lba < 2 ^ 28) : (select d lba).lba = lba := by
  rw [Drive.lba, device_select]
  simp only [select, UInt8.toNat_ofNat', Nat.shiftRight_eq_div_pow]
  omega

theorem oneSector_select : (select d lba).OneSector := by
  have hdev := device_select (d := d) lba
  exact ⟨by omega, rfl⟩

/-- A command that hands out words does so, or it fails. -/
theorem offer_cases (s : Script) (d : Drive) (ws : List UInt16) :
    s.fails d.commands = false ∧ d.offer s ws = .dataIn ws ∨
      s.fails d.commands = true ∧ ∃ e, d.offer s ws = .idle e := by
  rw [Script.fails, Drive.offer]
  cases s.outcome d.commands with
  | done => exact .inl ⟨rfl, rfl⟩
  | refused | late => exact .inr ⟨rfl, true, rfl⟩
  | silent => exact .inr ⟨rfl, false, rfl⟩

end Commands

/-! ## Words -/

section Words

variable {s : Script} {d : Drive} {lba : ℕ}

theorem gives_dataIn (ws : List UInt16) (d : Drive) (hne : ws ≠ []) (hd : d.busy = 0)
    (hrest : d.rest = .dataIn ws) :
    Gives (ideDevice s) ataData ws d { d with rest := .idle false } := by
  induction ws generalizing d with
  | nil => exact absurd rfl hne
  | cons w ws ih =>
    have hread : (ideDevice s).inw ataData d
        = (w, { d with rest := if ws = [] then .idle false else .dataIn ws }) := by
      simp [ideDevice, Drive.inw, ataData, hd, hrest]
    by_cases hws : ws = []
    · subst hws
      exact .cons hread .nil
    · rw [if_neg hws] at hread
      exact .cons hread (ih { d with rest := .dataIn ws } hws hd rfl)

theorem halves_succ_ne_nil (m : Mem) (a n : ℕ) : halves m a (n + 1) ≠ [] := List.cons_ne_nil _ _

/-- A sector fetched into a memory is its bytes. -/
theorem setHalves_sector (m : Mem) (a : ℕ) (sec : Sector) :
    setHalves m a (halves sec 0 256) = m.write a (sectorBytes sec) := by
  have hlen : (sectorBytes sec).length = 512 := by simp [sectorBytes, sectorSize]
  rw [setHalves_eq, length_halves]
  funext i
  rw [Mem.write, hlen]
  split_ifs with hi
  · have hsub : i - a < 2 * 256 := by omega
    have hrange : i - a < sectorSize := hsub
    rw [blockByte_halves hsub, Nat.zero_add, sectorBytes, List.getD_eq_getElem?_getD]
    simp [hrange]
  · rfl

end Words

/-! ## One sector -/

/-- The drive after a command for sector `lba`, at rest. -/
def settled (d : Drive) (lba : ℕ) (rest : Rest) : Drive :=
  { select d lba with busy := 0, rest := rest, commands := d.commands + 1 }

section Sectors

variable {s : Script} {d : Drive} {lba a : ℕ} {m : Mem}

theorem start_read (s : Script) (d : Drive) (hlba : lba < 2 ^ 28) :
    start s (select d lba) cmdRead
      = { settled d lba (d.offer s (halves (d.medium lba) 0 256)) with busy := s.delay d.commands } := by
  have hrest : (select d lba).begin s cmdRead = d.offer s (halves (d.medium lba) 0 256) := by
    rw [Drive.begin, if_pos (by decide), if_pos oneSector_select, lba_select hlba]
    rfl
  rw [start, hrest]
  rfl

theorem ataBegin_data (hs : s.Prompt) (hd : d.Free) {cmd : UInt8} {rest : Rest}
    (hstart : start s (select d lba) cmd = { settled d lba rest with busy := s.delay d.commands })
    (hrest : ∀ v, drqTest (Drive.restStatus v rest) = some true) :
    (ataBegin lba cmd).run (ideDevice s).handler d = .ok (true, settled d lba rest) := by
  rw [ataBegin_run hd, hstart]
  exact ataWaitDrq_run (hs.delay _) hrest

theorem ataBegin_idle (hs : s.Prompt) (hd : d.Free) {cmd : UInt8} {e : Bool}
    (hstart : start s (select d lba) cmd = { settled d lba (.idle e) with busy := s.delay d.commands }) :
    (ataBegin lba cmd).run (ideDevice s).handler d = .ok (false, settled d lba (.idle e)) := by
  rw [ataBegin_run hd, hstart]
  exact ataWaitDrq_idle (hs.delay _) rfl

/-- The words of a sector that the drive offers. -/
theorem insw_sector (s : Script) (d : Drive) (lba a : ℕ) (m : Mem) :
    (insw ataData 256 a m).run (ideDevice s).handler (settled d lba (.dataIn (halves (d.medium lba) 0 256)))
      = .ok (m.write a (sectorBytes (d.medium lba)), settled d lba (.idle false)) := by
  have hwords := insw_run (gives_dataIn (s := s) _ (settled d lba (.dataIn (halves (d.medium lba) 0 256)))
    (halves_succ_ne_nil _ _ _) rfl rfl) a m
  rwa [length_halves, setHalves_sector] at hwords

section

variable (hs : s.Prompt) (hd : d.Free) (hlba : lba < 2 ^ 28)

include hs hd hlba

/-- A round of `ata_read` that succeeds. -/
theorem ataRead_done (hok : s.fails d.commands = false) (count : ℕ) :
    (ataRead (count + 1) lba a m).run (ideDevice s).handler d
      = (ataRead count (lba + 1) (a + 512) (m.write a (sectorBytes (d.medium lba)))).run
          (ideDevice s).handler (settled d lba (.idle false)) := by
  have hstart := start_read s d hlba
  obtain ⟨-, hoffer⟩ | ⟨hfail, -⟩ := offer_cases s d (halves (d.medium lba) 0 256)
  · rw [hoffer] at hstart
    have hbegin := ataBegin_data hs hd hstart fun v => drqTest_dataIn v _
    rw [ataRead, if_neg (Nat.not_le.2 hlba), Prog.run_bind_ok _ hbegin, if_pos rfl,
      Prog.run_bind_ok _ (insw_sector s d lba a m)]
  · exact absurd hfail (by simp [hok])

/-- A round of `ata_read` that fails. -/
theorem ataRead_failed (hfail : s.fails d.commands = true) (count : ℕ) :
    ∃ e, (ataRead (count + 1) lba a m).run (ideDevice s).handler d
      = .ok ((false, m), settled d lba (.idle e)) := by
  have hstart := start_read s d hlba
  obtain ⟨hok, -⟩ | ⟨-, e, hidle⟩ := offer_cases s d (halves (d.medium lba) 0 256)
  · exact absurd hok (by simp [hfail])
  · rw [hidle] at hstart
    refine ⟨e, ?_⟩
    rw [ataRead, if_neg (Nat.not_le.2 hlba), Prog.run_bind_ok _ (ataBegin_idle hs hd hstart)]
    rfl

end

end Sectors

/-! ## Runs -/

theorem free_settled (d : Drive) (lba : ℕ) (e : Bool) : (settled d lba (.idle e)).Free := ⟨rfl, e, rfl⟩

/-- The bytes of `k` sectors. -/
def sectorsBytes (disk : Disk) : ℕ → ℕ → Bytes
  | _, 0 => []
  | lba, k + 1 => sectorBytes (disk lba) ++ sectorsBytes disk (lba + 1) k

theorem length_sectorBytes (sec : Sector) : (sectorBytes sec).length = 512 := by
  simp [sectorBytes, sectorSize]

/-- How many of `count` sectors come before the first access that fails. -/
def sectorsServed (fails : Faults) : ℕ → ℕ → ℕ → ℕ
  | 0, _, _ => 0
  | count + 1, n, lba => if fails n lba then 0 else sectorsServed fails count (n + 1) (lba + 1) + 1

section Served

variable {fails fails' : Faults}

theorem sectorsServed_stop {count n lba : ℕ} (h : fails n lba = true) :
    sectorsServed fails (count + 1) n lba = 0 := if_pos h

theorem sectorsServed_next {count n lba : ℕ} (h : fails n lba = false) :
    sectorsServed fails (count + 1) n lba = sectorsServed fails count (n + 1) (lba + 1) + 1 :=
  if_neg (by simp [h])

/-- The accesses before it succeed; it is the last one, or the access behind it fails. -/
theorem sectorsServed_spec (fails : Faults) (count n lba : ℕ) :
    sectorsServed fails count n lba ≤ count ∧
      (∀ i < sectorsServed fails count n lba, fails (n + i) (lba + i) = false) ∧
      (sectorsServed fails count n lba < count →
        fails (n + sectorsServed fails count n lba) (lba + sectorsServed fails count n lba) = true) := by
  induction count generalizing n lba with
  | zero => exact ⟨Nat.le_refl 0, fun i hi => absurd hi (Nat.not_lt_zero i), fun h => absurd h (Nat.lt_irrefl 0)⟩
  | succ count ih =>
    by_cases hf : fails n lba = true
    · rw [sectorsServed_stop hf]
      exact ⟨Nat.zero_le _, fun i hi => absurd hi (Nat.not_lt_zero i), fun _ => hf⟩
    · have hok : fails n lba = false := by simpa using hf
      obtain ⟨hle, hbefore, hstop⟩ := ih (n + 1) (lba + 1)
      rw [sectorsServed_next hok]
      refine ⟨Nat.succ_le_succ hle, fun i hi => ?_, fun h => ?_⟩
      · cases i with
        | zero => exact hok
        | succ i =>
          have hi' := hbefore i (Nat.lt_of_succ_lt_succ hi)
          rwa [Nat.add_right_comm, Nat.add_right_comm lba] at hi'
      · have hlast := hstop (Nat.lt_of_succ_lt_succ h)
        rwa [Nat.add_right_comm, Nat.add_right_comm lba] at hlast

theorem readSectors_eq (fails : Faults) (disk : Disk) (count n lba : ℕ) :
    readSectors fails disk count n lba
      = (if sectorsServed fails count n lba = count then
            some (sectorsBytes disk lba (sectorsServed fails count n lba)) else none,
          n + sectorsServed fails count n lba + if sectorsServed fails count n lba = count then 0 else 1) := by
  induction count generalizing n lba with
  | zero => rfl
  | succ count ih =>
    by_cases hf : fails n lba = true
    · rw [readSectors, if_pos hf, sectorsServed_stop hf, if_neg (Nat.succ_ne_zero _).symm,
        if_neg (Nat.succ_ne_zero _).symm, Nat.add_zero]
    · have hok : fails n lba = false := by simpa using hf
      rw [readSectors, if_neg hf, sectorsServed_next hok, ih]
      simp only [Nat.add_right_cancel_iff]
      refine Prod.ext ?_ (by simp only []; omega)
      split_ifs <;> rfl

end Served

/-- The commands for the first `k` of `count` sectors from `lba` on and for the failing one behind them,
    if it has a sector number. -/
def commandsTaken (lba count k : ℕ) : ℕ := k + if k < count ∧ lba + k < 2 ^ 28 then 1 else 0

theorem commandsTaken_succ (lba count k : ℕ) :
    commandsTaken lba (count + 1) (k + 1) = commandsTaken (lba + 1) count k + 1 := by
  simp only [commandsTaken, Nat.add_lt_add_iff_right, Nat.add_right_comm lba 1 k, Nat.add_assoc lba k 1]
  omega

section Runs

variable {s : Script} {d : Drive} {m : Mem} {k : ℕ}

theorem faults_of_le {n lba : ℕ} (h : 2 ^ 28 ≤ lba) : s.faults n lba = true := by
  rw [Script.faults, ataFails, decide_eq_true h, Bool.true_or]

theorem faults_of_lt {n lba : ℕ} (h : lba < 2 ^ 28) : s.faults n lba = s.fails n := by
  rw [Script.faults, ataFails, decide_eq_false (Nat.not_le.2 h), Bool.false_or]

/-- `ata_read` against a prompt drive: the sectors before the first failing one are in the buffer. -/
theorem ataRead_run (hs : s.Prompt) (count lba a : ℕ) (m : Mem) (d : Drive) (hd : d.Free)
    (hk : sectorsServed s.faults count d.commands lba = k) :
    ∃ d', (ataRead count lba a m).run (ideDevice s).handler d
        = .ok ((decide (k = count), m.write a (sectorsBytes d.medium lba k)), d') ∧
      d'.Free ∧ d'.medium = d.medium ∧ d'.commands = d.commands + commandsTaken lba count k := by
  subst hk
  induction count generalizing lba a m d with
  | zero =>
    refine ⟨d, ?_, hd, rfl, rfl⟩
    rw [sectorsServed, sectorsBytes, Mem.write_nil]
    rfl
  | succ count ih =>
    by_cases hlba : 2 ^ 28 ≤ lba
    · rw [sectorsServed_stop (faults_of_le hlba)]
      refine ⟨d, ?_, hd, rfl, ?_⟩
      · rw [ataRead, if_pos hlba, sectorsBytes, Mem.write_nil]
        rfl
      · rw [commandsTaken, if_neg fun h => absurd h.2 (Nat.not_lt.2 hlba)]
        rfl
    have hlt : lba < 2 ^ 28 := Nat.not_le.1 hlba
    by_cases hfail : s.fails d.commands = true
    · obtain ⟨e, hrun⟩ := ataRead_failed (a := a) (m := m) hs hd hlt hfail count
      rw [sectorsServed_stop ((faults_of_lt hlt).trans hfail)]
      refine ⟨settled d lba (.idle e), ?_, free_settled d lba e, rfl, ?_⟩
      · rw [hrun, sectorsBytes, Mem.write_nil]
        rfl
      · rw [commandsTaken, if_pos ⟨Nat.succ_pos _, hlt⟩]
        rfl
    · have hok : s.fails d.commands = false := by simpa using hfail
      obtain ⟨d', hrun, hfree, hmed, hcmd⟩ := ih (lba + 1) (a + 512)
        (m.write a (sectorBytes (d.medium lba))) (settled d lba (.idle false)) (free_settled d lba false)
      have hwrite := Mem.write_append m a (sectorBytes (d.medium lba))
        (sectorsBytes d.medium (lba + 1) (sectorsServed s.faults count (d.commands + 1) (lba + 1)))
      rw [length_sectorBytes] at hwrite
      rw [sectorsServed_next ((faults_of_lt hlt).trans hok)]
      refine ⟨d', ?_, hfree, hmed, ?_⟩
      · rw [ataRead_done hs hd hlt hok, hrun, sectorsBytes, ← hwrite]
        simp only [Nat.add_right_cancel_iff]
        rfl
      · rw [hcmd, commandsTaken_succ]
        show d.commands + 1 + _ = d.commands + (_ + 1)
        rw [Nat.add_right_comm, Nat.add_assoc]
        rfl

end Runs

/-- `ata_read` against a prompt drive delivers the sectors one by one, up to the first one whose access
    fails, and nothing else in memory changes. It succeeds exactly if `readSectors` does, with the same
    bytes. -/
theorem ataRead_refines {s : Script} (hs : s.Prompt) (d : Drive) (hd : d.Free) (count lba a : ℕ) (m : Mem) :
    ∃ k ≤ count, (∀ i < k, ataFails (fun n _ => s.fails n) (d.commands + i) (lba + i) = false) ∧
      (k < count → ataFails (fun n _ => s.fails n) (d.commands + k) (lba + k) = true) ∧ ∃ d',
      (ataRead count lba a m).run (ideDevice s).handler d
        = .ok ((decide (k = count), m.write a (sectorsBytes d.medium lba k)), d') ∧
      d'.Free ∧ d'.medium = d.medium ∧
      (readSectors (ataFails fun n _ => s.fails n) d.medium count d.commands lba).1
        = if k = count then some (sectorsBytes d.medium lba k) else none := by
  obtain ⟨d', hrun, hfree, hmed, -⟩ := ataRead_run hs count lba a m d hd rfl
  obtain ⟨hle, hbefore, hstop⟩ := sectorsServed_spec s.faults count d.commands lba
  exact ⟨_, hle, hbefore, hstop, d', hrun, hfree, hmed, congrArg Prod.fst (readSectors_eq _ _ _ _ _)⟩

def steadyScript : Script :=
  { delay := fun _ => 3, settle := fun _ => 3, outcome := fun _ => .done, flush := fun _ => true
    noise := fun _ _ => 0, intrude := fun _ _ d => d }

def flakyScript : Script := { steadyScript with outcome := fun n => if n = 1 then .refused else .done }

theorem steadyScript_prompt : steadyScript.Prompt := by
  constructor <;> intro _ <;> show 3 < patience <;> decide

theorem flakyScript_prompt : flakyScript.Prompt := ⟨steadyScript_prompt.delay, steadyScript_prompt.settle⟩

/-- Sector `n` is full of bytes `n`. -/
def smallDrive : Drive :=
  { medium := fun lba _ => UInt8.ofNat lba, count := 0, lba0 := 0, lba1 := 0, lba2 := 0, device := 0
    noIrq := false, busy := 0, rest := .idle false, commands := 0
    identity := List.replicate 27 0 ++ [0x5145, 0x4D55, 0x2048, 0x442E] ++ List.replicate 16 0x2020
      ++ List.replicate 13 0 ++ [0x0800, 1] ++ List.replicate 194 0 }

theorem smallDrive_free : smallDrive.Free := ⟨rfl, false, rfl⟩

/-- The second of two sectors fails, the first one is in memory. -/
theorem ataRead_refines_flaky : ∃ d',
    (ataRead 2 7 0 fun _ => 1).run (ideDevice flakyScript).handler smallDrive
      = .ok ((false, Mem.write (fun _ => 1) 0 (sectorsBytes smallDrive.medium 7 1)), d') ∧ d'.Free := by
  obtain ⟨k, hk, hbefore, hstop, d', hrun, hfree, -⟩ :=
    ataRead_refines flakyScript_prompt smallDrive smallDrive_free 2 7 0 fun _ => 1
  obtain rfl : k = 1 := by
    rcases Nat.lt_trichotomy k 1 with h | h | h
    · obtain rfl := Nat.lt_one_iff.1 h
      exact absurd (hstop (by decide)) (by decide)
    · exact h
    · exact absurd (hbefore 1 h) (by decide)
  exact ⟨d', hrun, hfree⟩

end Pio

end OctoOS
