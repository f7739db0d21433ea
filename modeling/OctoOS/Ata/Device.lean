import OctoOS.Ata
import OctoOS.Lib.PortIo

set_option autoImplicit false

/-! # The drive behind the ports

An IDE drive in its programmed input/output mode, as far as `kernel/ata.c` uses it: the task file
registers at 0x1F1–0x1F7, the data port at 0x1F0 and the control port at 0x3F6. A command makes the
drive busy. When it is no longer busy it rests: idle with or without an error, with words for the
host to fetch, or waiting for words of the host.

What is left to chance is the `Script`: how long the drive is busy with its `n`-th command, what its
other status bits show, how the command goes, and what the drive makes of a register that is written
while it is busy or a transfer is open. A command that is not `done` leaves the medium as it was.
Transfers of more than one sector, software resets and the second drive are left out. -/

namespace OctoOS

open PortIo

/-- How a command goes: with an error at once, with no data request, or (for a write) with an error
    once the data is there. -/
inductive Outcome where
  | done
  | refused
  | silent
  | late
  deriving DecidableEq, Repr

/-- What a drive that is not busy is about. -/
inductive Rest where
  | idle (failed : Bool)
  | dataIn (words : List UInt16)
  | dataOut (lba : ℕ) (words : List UInt16)

structure Drive where
  medium : Disk
  /-- the 256 words of the answer to `CMD_IDENTIFY` -/
  identity : List UInt16
  count : UInt8
  lba0 : UInt8
  lba1 : UInt8
  lba2 : UInt8
  device : UInt8
  /-- `nIEN` of the control port -/
  noIrq : Bool
  busy : ℕ
  rest : Rest
  /-- commands taken so far -/
  commands : ℕ

/-- What a drive does with its `n`-th command. -/
structure Script where
  /-- reads of the status that see the command busy -/
  delay : ℕ → ℕ
  /-- the same, after the data of a write -/
  settle : ℕ → ℕ
  outcome : ℕ → Outcome
  /-- whether a flush reports success -/
  flush : ℕ → Bool
  /-- the status bits that carry no meaning for the driver -/
  noise : ℕ → ℕ → UInt8
  /-- a write to the task file that comes when the drive cannot take one -/
  intrude : UInt16 → UInt8 → Drive → Drive

namespace Drive

/-- Status bits of a drive at rest: the meaningless ones, and DRQ or ERR. -/
def restStatus (noise : UInt8) : Rest → UInt8
  | .idle false => noise &&& 0x56
  | .idle true => noise &&& 0x56 ||| 0x01
  | _ => noise &&& 0x56 ||| 0x08

/-- The sector the task file names, for a master drive addressed by sector. -/
def lba (d : Drive) : ℕ :=
  d.lba0.toNat + 2 ^ 8 * d.lba1.toNat + 2 ^ 16 * d.lba2.toNat + 2 ^ 24 * (d.device.toNat % 16)

/-- The command is for one sector of this drive. -/
def OneSector (d : Drive) : Prop := d.device.toNat / 16 = 0xE ∧ d.count = 1
  deriving Decidable

/-- The rest of a command that hands out words. -/
def offer (s : Script) (d : Drive) (words : List UInt16) : Rest :=
  match s.outcome d.commands with
  | .done => .dataIn words
  | .silent => .idle false
  | _ => .idle true

/-- The rest of a command that takes a sector. -/
def accept (s : Script) (d : Drive) : Rest :=
  match s.outcome d.commands with
  | .refused => .idle true
  | .silent => .idle false
  | _ => .dataOut d.lba []

/-- The rest a command leads to: read, write, flush, identify; any other is refused. -/
def begin (s : Script) (d : Drive) (cmd : UInt8) : Rest :=
  if cmd = 0x20 then if d.OneSector then d.offer s (halves (d.medium d.lba) 0 256) else .idle true
  else if cmd = 0x30 then if d.OneSector then d.accept s else .idle true
  else if cmd = 0xE7 then .idle (!s.flush d.commands)
  else if cmd = 0xEC then d.offer s d.identity
  else .idle true

/-- The registers can be written. -/
def Free (d : Drive) : Prop := d.busy = 0 ∧ ∃ failed, d.rest = .idle failed

instance (d : Drive) : Decidable d.Free :=
  match h : d.busy, hr : d.rest with
  | 0, .idle e => isTrue ⟨h, e, hr⟩
  | k + 1, _ => isFalse fun hd => absurd (h ▸ hd.1) (Nat.succ_ne_zero k)
  | 0, .dataIn _ | 0, .dataOut _ _ => isFalse fun ⟨_, _, he⟩ => Rest.noConfusion (hr.symm.trans he)

/-- A write to a register. -/
def outb (s : Script) (port : UInt16) (v : UInt8) (d : Drive) : Drive :=
  if port = 0x3F6 then { d with noIrq := v.toNat / 2 % 2 = 1 }
  else if d.Free then
    if port = 0x1F2 then { d with count := v }
    else if port = 0x1F3 then { d with lba0 := v }
    else if port = 0x1F4 then { d with lba1 := v }
    else if port = 0x1F5 then { d with lba2 := v }
    else if port = 0x1F6 then { d with device := v }
    else if port = 0x1F7 then
      { d with busy := s.delay d.commands, rest := d.begin s v, commands := d.commands + 1 }
    else d
  else s.intrude port v d

/-- A read of the status; the other registers are not read by the driver. -/
def inb (s : Script) (port : UInt16) (d : Drive) : UInt8 × Drive :=
  if port = 0x1F7 then
    match d.busy with
    | k + 1 => (s.noise d.commands k ||| 0x80, { d with busy := k })
    | 0 => (restStatus (s.noise d.commands 0) d.rest, d)
  else (0xFF, d)

/-- The host fetches a word. -/
def inw (port : UInt16) (d : Drive) : UInt16 × Drive :=
  match d.busy, d.rest with
  | 0, .dataIn (w :: ws) =>
    if port = 0x1F0 then
      (w, { d with rest := if ws = [] then .idle false else .dataIn ws })
    else (0xFFFF, d)
  | _, _ => (0xFFFF, d)

/-- The sector is complete: the drive is busy with it, and the write may still fail. -/
def finish (s : Script) (d : Drive) (lba : ℕ) (ws : List UInt16) : Drive :=
  if s.outcome (d.commands - 1) = .done then
    { d with
      medium := Function.update d.medium lba (transfer (d.medium lba) (blockByte ws))
      busy := s.settle (d.commands - 1), rest := .idle false }
  else { d with busy := s.settle (d.commands - 1), rest := .idle true }

/-- The host supplies a word. -/
def outw (s : Script) (port : UInt16) (w : UInt16) (d : Drive) : Drive :=
  match d.busy, d.rest with
  | 0, .dataOut lba ws =>
    if port = 0x1F0 then
      if ws.length + 1 = 256 then d.finish s lba (ws ++ [w])
      else { d with rest := .dataOut lba (ws ++ [w]) }
    else d
  | _, _ => d

end Drive

/-- The drive as a device. -/
def ideDevice (s : Script) : Device Drive := ⟨Drive.inb s, Drive.outb s, Drive.inw, Drive.outw s⟩

end OctoOS
