import Mathlib.Data.List.DropRight
import OctoOS.Ata.Ports
import OctoOS.Fat.Check
import OctoOS.Lib.Foretell

set_option autoImplicit false

/-! # The FAT driver at the ports

The FAT driver's machine takes a sector transfer as one step that may fail. Here the same programs
run with the port driver and the drive in its place (`portHandler`). With a prompt drive whose flushes
succeed, every program ends as it does on that machine, for some pattern of faults: whatever is proved
of the FAT functions for all faults holds of the disk behind the ports.

A drive that is slower than the polling loops is another matter. The driver gives up and leaves the
command open; the next read then takes its sector for its own. -/

namespace OctoOS

open Atomic PortIo

/-- The state of the FAT driver with the drive itself in the place of the disk. -/
structure PortState where
  drive : Drive
  sectorBuf : Sector
  cwdCluster : UInt16
  cwdPath : Bytes
  heap : Heap
  console : Bytes

namespace PortState

/-- What the FAT driver's machine sees, `n` accesses after boot. -/
def fat (st : PortState) (n : ℕ) : FatState :=
  { disk := st.drive.medium, sectorBuf := st.sectorBuf, cwdCluster := st.cwdCluster
    cwdPath := st.cwdPath, heap := st.heap, console := st.console, ataCount := n }

/-- A step that leaves the drive alone. -/
def put (st : PortState) (t : FatState) : PortState :=
  { drive := st.drive, sectorBuf := t.sectorBuf, cwdCluster := t.cwdCluster, cwdPath := t.cwdPath
    heap := t.heap, console := t.console }

end PortState

section Steps

variable {s : Script} {st : PortState} {junk : Mem} {count : ℕ}

section

variable (hs : s.Prompt) (hflush : ∀ n, s.flush n = true) (hd : st.drive.Free)

include hs hflush hd

end

end Steps

/-! ## Runs -/

namespace Pio

section Init

variable {s : Script} {d : Drive}

/-- Cutting the blanks off the end leaves the text and zeros. -/
theorem trimModel_eq (cs zs : List UInt8) :
    trimModel (cs ++ zs) cs.length
      = cs.rdropWhile (· = 0x20)
        ++ (List.replicate (cs.length - (cs.rdropWhile (· = 0x20)).length) 0 ++ zs) := by
  induction cs using List.reverseRecOn generalizing zs with
  | nil => rfl
  | append_singleton cs c ih =>
    have hget : (cs ++ [c] ++ zs).getD cs.length 0 = c := by simp [List.getD_eq_getElem?_getD]
    rw [List.length_append, List.length_singleton, trimModel, hget]
    by_cases hc : c = 0x20
    · have hset : (cs ++ [c] ++ zs).set cs.length 0 = cs ++ 0 :: zs := by simp
      have hle : (cs.rdropWhile (· = 0x20)).length ≤ cs.length :=
        List.IsPrefix.length_le ( List.rdropWhile_prefix _ cs)
      rw [if_pos hc, hset, ih, List.rdropWhile_concat_pos _ _ _ (by simpa using hc),
        Nat.succ_sub hle, List.replicate_succ', List.append_assoc]
      rfl
    · rw [if_neg hc, List.rdropWhile_concat_neg _ _ _ (by simpa using hc)]
      simp

/-- The registers of `ata_init`'s command. -/
def identifySelect (d : Drive) : Drive :=
  { d with noIrq := true, device := 0xA0, count := 0, lba0 := 0, lba1 := 0, lba2 := 0 }

theorem start_identify (s : Script) (d : Drive) :
    start s (identifySelect d) cmdIdentify
      = { identifySelect d with
          busy := s.delay d.commands, rest := d.offer s d.identity, commands := d.commands + 1 } := by
  have hrest : (identifySelect d).begin s cmdIdentify = d.offer s d.identity := by
    rw [Drive.begin, if_neg (by decide), if_neg (by decide), if_neg (by decide), if_pos (by decide)]
    rfl
  rw [start, hrest]
  rfl

theorem busy_ne_zero : ∀ v : UInt8, v ||| 0x80 ≠ 0 := forall_byte (by decide +kernel)

theorem restStatus_failed_ne_zero : ∀ v : UInt8, v &&& 0x56 ||| 0x01 ≠ 0 := forall_byte (by decide +kernel)

theorem restStatus_data_ne_zero : ∀ v : UInt8, v &&& 0x56 ||| 0x08 ≠ 0 := forall_byte (by decide +kernel)

/-- The look that tells a drive from none. -/
theorem first_look (s : Script) (d : Drive) :
    ∃ v, (ideDevice s).inb ataStatus d = (v, { d with busy := d.busy - 1 }) ∧
      (v = 0 → d.busy = 0 ∧ d.rest = .idle false) := by
  obtain ⟨k, hk⟩ | hk : (∃ k, d.busy = k + 1) ∨ d.busy = 0 := by
    cases d.busy with
    | zero => exact .inr rfl
    | succ k => exact .inl ⟨k, rfl⟩
  · refine ⟨s.noise d.commands k ||| 0x80, ?_, fun h => absurd h (busy_ne_zero _)⟩
    simp [ideDevice, Drive.inb, ataStatus, hk]
  · have hsame : { d with busy := d.busy - 1 } = d := by rw [hk, Nat.zero_sub, ← hk]
    refine ⟨Drive.restStatus (s.noise d.commands 0) d.rest, ?_, fun h => ⟨hk, ?_⟩⟩
    · rw [inb_rest hk, hsame]
    · cases hr : d.rest with
      | idle failed =>
        cases failed with
        | false => rfl
        | true => exact absurd (hr ▸ h) (restStatus_failed_ne_zero _)
      | dataIn _ | dataOut _ _ => exact absurd (hr ▸ h) (restStatus_data_ne_zero _)

/-- `ata_init` up to its data. -/
theorem ataInit_run (hd : d.Free) :
    ∃ v : UInt8, ataInit.run (ideDevice s).handler d
        = (if v = 0 then return none else identifyData : Driver _).run (ideDevice s).handler
            { identifySelect d with
              busy := s.delay d.commands - 1, rest := d.offer s d.identity, commands := d.commands + 1 } ∧
      (v = 0 → s.delay d.commands = 0 ∧ d.offer s d.identity = .idle false) := by
  have hfree : ∀ irq dev c l0 l1 l2,
      Drive.Free { d with noIrq := irq, device := dev, count := c, lba0 := l0, lba1 := l1, lba2 := l2 } :=
    fun _ _ _ _ _ _ => hd
  obtain ⟨v, hlook, hv⟩ := first_look s (start s (identifySelect d) cmdIdentify)
  rw [start_identify] at hlook hv
  refine ⟨v, ?_, hv⟩
  have hcommand : (ideDevice s).outb ataCmd cmdIdentify (identifySelect d) = _ :=
    (outb_cmd (d := identifySelect d) hd cmdIdentify).trans (start_identify s d)
  have hregs : ∀ (k : Unit → Driver (Option (List UInt8 × ℕ))),
      (do outb ataCtrl 0x02; outb ataDrive 0xA0; outb ataCount 0; outb ataLba0 0; outb ataLba1 0
          outb ataLba2 0; k () : Driver _).run (ideDevice s).handler d
        = (k ()).run (ideDevice s).handler (identifySelect d) := by
    intro k
    simp [Prog.run_bind, ideDevice, Drive.outb, ataCtrl, ataDrive, ataCount, ataLba0, ataLba1, ataLba2,
      hfree, identifySelect]
  rw [ataInit]
  refine (hregs fun _ => _).trans ?_
  rw [Prog.run_bind, outb_run, hcommand]
  simp only [Prog.run_bind, inb_run, hlook]

/-- Character `i` of the model string: the drive has two of them in a word, the first one high. -/
def modelChar (id : List UInt16) (i : ℕ) : UInt8 :=
  UInt8.ofNat (if i % 2 = 0 then (id.getD (27 + i / 2) 0).toNat / 256 else (id.getD (27 + i / 2) 0).toNat % 256)

theorem modelChars_eq (id : List UInt16) : modelChars id = (List.range 40).map (modelChar id) := rfl

theorem length_modelChars (id : List UInt16) : (modelChars id).length = 40 := by
  simp [modelChars]

theorem modelOf_eq (id : List UInt16) :
    modelOf id = (modelChars id).rdropWhile (· = 0x20)
      ++ List.replicate (41 - ((modelChars id).rdropWhile (· = 0x20)).length) 0 := by
  have hle : ((modelChars id).rdropWhile (· = 0x20)).length ≤ 40 := by
    rw [← length_modelChars id]
    exact List.IsPrefix.length_le ( List.rdropWhile_prefix _ _)
  have htrim := trimModel_eq (modelChars id) [0]
  rw [length_modelChars] at htrim
  rw [modelOf, htrim, Nat.succ_sub hle, List.replicate_succ']

theorem sectors_eq (id : List UInt16) :
    (id.getD 60 0).toNat ||| (id.getD 61 0).toNat <<< 16
      = (id.getD 60 0).toNat + 2 ^ 16 * (id.getD 61 0).toNat := by
  rw [Nat.shiftLeft_eq, Nat.mul_comm, Nat.or_comm, ← Nat.two_pow_add_eq_or_of_lt (UInt16.toNat_lt _),
    Nat.add_comm]

theorem identifyData_done (hbusy : d.busy < patience) {ws : List UInt16} (hrest : d.rest = .dataIn ws)
    (hlen : ws.length = 256) :
    identifyData.run (ideDevice s).handler d
      = .ok (some (modelOf ws, (ws.getD 60 0).toNat ||| (ws.getD 61 0).toNat <<< 16),
          { d with busy := 0, rest := .idle false }) := by
  have hne : ws ≠ [] := List.ne_nil_of_length_eq_add_one hlen
  have hwait := ataWaitDrq_run (s := s) hbusy fun v => hrest ▸ drqTest_dataIn v ws
  have hwords := inws_run (gives_dataIn (s := s) ws { d with busy := 0 } hne rfl hrest)
  rw [hlen] at hwords
  rw [identifyData, Prog.run_bind_ok _ hwait, if_pos rfl, Prog.run_bind_ok _ hwords]
  rfl

theorem identifyData_failed (hbusy : d.busy < patience) {e : Bool} (hrest : d.rest = .idle e) :
    identifyData.run (ideDevice s).handler d = .ok (none, { d with busy := 0 }) := by
  rw [identifyData, Prog.run_bind_ok _ (ataWaitDrq_idle hbusy hrest)]
  rfl

end Init

/-- `ata_init` against a prompt drive. If the identification goes through, the model string is the 40
    characters without the blanks at their end, filled up with zeros, and `total_sectors` is the 32-bit
    number of words 60 and 61. Otherwise it reports failure. Either way the drive's interrupt is off. -/
theorem ataInit_identifies {s : Script} (hs : s.Prompt) (d : Drive) (hd : d.Free)
    (hid : d.identity.length = 256) :
    ∃ d', ataInit.run (ideDevice s).handler d
        = .ok (if s.fails d.commands then none
            else some (((List.range 40).map (modelChar d.identity)).rdropWhile (· = 0x20)
                ++ List.replicate
                  (41 - (((List.range 40).map (modelChar d.identity)).rdropWhile (· = 0x20)).length) 0,
              (d.identity.getD 60 0).toNat + 2 ^ 16 * (d.identity.getD 61 0).toNat), d') ∧
      d'.Free ∧ d'.medium = d.medium ∧ d'.noIrq = true := by
  rw [← modelChars_eq]
  obtain ⟨v, hrun, hv⟩ := ataInit_run (s := s) hd
  have hbusy : s.delay d.commands - 1 < patience := Nat.lt_of_le_of_lt (Nat.sub_le _ _) (hs.delay _)
  rw [hrun]
  obtain ⟨hok, hdata⟩ | ⟨hfail, e, hidle⟩ := offer_cases s d d.identity
  · have hseen : v ≠ 0 := fun h => Rest.noConfusion (hdata.symm.trans (hv h).2)
    rw [if_neg hseen, identifyData_done hbusy hdata hid, hok, modelOf_eq, sectors_eq]
    exact ⟨_, rfl, ⟨rfl, false, rfl⟩, rfl, rfl⟩
  · rw [hfail]
    by_cases hnone : v = 0
    · rw [if_pos hnone]
      refine ⟨_, rfl, ⟨?_, e, hidle⟩, rfl, rfl⟩
      rw [(hv hnone).1]
    · rw [if_neg hnone, identifyData_failed hbusy hidle]
      exact ⟨_, rfl, ⟨rfl, e, hidle⟩, rfl, rfl⟩

theorem ataInit_identifies_steady : ∃ d',
    ataInit.run (ideDevice steadyScript).handler smallDrive
      = .ok (some (str "QEMU HD." ++ List.replicate 33 0, 0x10800), d') ∧ d'.Free ∧ d'.noIrq = true := by
  obtain ⟨d', hrun, hfree, -, hirq⟩ :=
    ataInit_identifies steadyScript_prompt smallDrive smallDrive_free (by decide +kernel)
  refine ⟨d', hrun.trans (congrArg (fun r => Except.ok (r, d')) ?_), hfree, hirq⟩
  decide +kernel

/-! ## Slow drives -/

section Slow

variable {s : Script} {d : Drive}

/-- A drive that is busy or in a transfer takes no register over. -/
def Script.Ignores (s : Script) : Prop := ∀ port v d, s.intrude port v d = d

theorem ataBegin_ignored (hs : Script.Ignores s) (hd : ¬ d.Free) (lba : ℕ) (cmd : UInt8) :
    (ataBegin lba cmd).run (ideDevice s).handler d = ataWaitDrq.run (ideDevice s).handler d := by
  simp [ataBegin, Prog.run_bind, ideDevice, Drive.outb, ataDrive, ataCount, ataLba0, ataLba1, ataLba2,
    ataCmd, hd, hs _ _ _]

theorem ataWaitDrq_gives_up {k : ℕ} (hbusy : d.busy = patience + k) :
    ataWaitDrq.run (ideDevice s).handler d = .ok (false, { d with busy := k }) := by
  have hpoll := poll_gives_up (waits_busy (s := s) drqTest_busy patience k d hbusy)
  rw [ataWaitDrq, Prog.run_bind_ok _ hpoll]
  rfl

end Slow

/-- A read of one sector that the drive is busy with for longer than the driver waits, but not twice as
    long, is reported as failed and stays open: if the drive takes nothing over meanwhile, the next read,
    of whatever sector, succeeds with its data. -/
theorem slow_read_answers_next {s : Script} (hs : Script.Ignores s) {d : Drive} (hd : d.Free) {lba lba' : ℕ} (hlba : lba < 2 ^ 28)
    (hlba' : lba' < 2 ^ 28) (hok : s.fails d.commands = false) (hslow : patience ≤ s.delay d.commands)
    (hsoon : s.delay d.commands < 2 * patience) (a : ℕ) (m : Mem) :
    ∃ d1 d2, (ataRead 1 lba a m).run (ideDevice s).handler d = .ok ((false, m), d1) ∧
      (ataRead 1 lba' a m).run (ideDevice s).handler d1
        = .ok ((true, m.write a (sectorBytes (d.medium lba))), d2) := by
  obtain ⟨k, hk⟩ : ∃ k, s.delay d.commands = patience + k := ⟨_, (Nat.add_sub_cancel' hslow).symm⟩
  obtain ⟨-, hoffer⟩ | ⟨hfail, -⟩ := offer_cases s d (halves (d.medium lba) 0 256)
  swap
  · exact absurd hfail (by simp [hok])
  have hstart := start_read s d hlba
  rw [hoffer, hk] at hstart
  refine ⟨{ settled d lba (.dataIn (halves (d.medium lba) 0 256)) with busy := k },
    settled d lba (.idle false), ?_, ?_⟩
  · rw [ataRead, if_neg (Nat.not_le.2 hlba), Prog.run_bind, ataBegin_run hd, hstart,
      ataWaitDrq_gives_up rfl]
    rfl
  · have hopen : ¬ Drive.Free { settled d lba (.dataIn (halves (d.medium lba) 0 256)) with busy := k } :=
      fun h => by
        obtain ⟨-, e, he⟩ := h
        exact Rest.noConfusion he
    have hwait := ataWaitDrq_run (s := s)
      (d := { settled d lba (.dataIn (halves (d.medium lba) 0 256)) with busy := k })
      (show k < patience by omega) fun v => drqTest_dataIn v _
    rw [ataRead, if_neg (Nat.not_le.2 hlba'), Prog.run_bind, ataBegin_ignored hs hopen, hwait]
    exact Prog.run_bind_ok _ (insw_sector s d lba a m) _

/-- Half as slow again as the driver is patient: sector 8 is read as sector 7. -/
theorem slow_read_answers_next_late : ∃ d1 d2,
    (ataRead 1 7 0 fun _ => 1).run (ideDevice { steadyScript with delay := fun _ => 1500000 }).handler
        smallDrive = .ok ((false, fun _ => 1), d1) ∧
    (ataRead 1 8 0 fun _ => 1).run (ideDevice { steadyScript with delay := fun _ => 1500000 }).handler d1
      = .ok ((true, Mem.write (fun _ => 1) 0 (sectorBytes fun _ => 7)), d2) :=
  slow_read_answers_next (fun _ _ _ => rfl) smallDrive_free (by decide) (by decide) rfl (by decide) (by decide)
    0 fun _ => 1

end Pio

end OctoOS
