import OctoOS.Syscall
import OctoOS.File.RoundTrip

set_option autoImplicit false

/-! # What the range check lets through

`user_range` subtracts the pointer from the end of the user window without looking whether it lies
behind it. For a pointer behind the window the difference wraps around, and almost every length
passes. The results here say for which arguments the check is exact, and what the calls that rely on
it do to the memory of the caller and to the write buffers. -/

namespace OctoOS

open Atomic Tiling

/-! ## The check -/

/-- The `len` bytes at `ptr` lie in the user window. -/
def InWindow (ptr len : UInt32) : Prop :=
  userBase ≤ ptr.toNat ∧ ptr.toNat + len.toNat ≤ userStackTop
  deriving Decidable

theorem userRange_iff (ptr len : UInt32) : userRange ptr len = true ↔
    userBase ≤ ptr.toNat ∧ len.toNat ≤ sub32 userStackTop ptr.toNat := by
  have hsub : (0x40400000 - ptr).toNat = sub32 userStackTop ptr.toNat := by
    have := ptr.toNat_lt
    rw [UInt32.toNat_sub, sub32]
    unfold userStackTop
    congr 1
    simp
    omega
  rw [userRange, Bool.and_eq_true, decide_eq_true_eq, decide_eq_true_eq, UInt32.le_iff_toNat_le,
    UInt32.le_iff_toNat_le, hsub]
  rfl

/-- The pointer and the length that a call checks. -/
def Regs.buffer (r : Regs) : Syscall → Option (UInt32 × UInt32)
  | .puts | .open => some (r.ebx, 1)
  | .read | .write => some (r.ecx, r.edx)
  | .getargs => some (r.ebx, r.ecx)
  | _ => none

/-- A call whose check fails does nothing. -/
theorem syscallDispatch_rejects {r : Regs} {c : Syscall} {ptr len : UInt32}
    (hc : Syscall.ofNumber r.eax = some c) (hb : r.buffer c = some (ptr, len))
    (hno : userRange ptr len = false) : syscallDispatch r = pure (-1) := by
  have hneg : (!userRange ptr len) = true := by rw [hno]; rfl
  unfold syscallDispatch
  rw [hc]
  cases c with
  | puts | «open» | read | write | getargs =>
    cases hb
    exact if_pos hneg
  | _ => cases hb

/-- **The range check is exact** for pointers up to the end of the window, and for buffers that
    reach around the address space to the window again. -/
theorem userRange_exact_iff (ptr len : UInt32) :
    ((userRange ptr len = true ↔ InWindow ptr len) ∧
      ∀ (r : Regs) (c : Syscall), Syscall.ofNumber r.eax = some c → r.buffer c = some (ptr, len) →
        ¬ InWindow ptr len → syscallDispatch r = pure (-1)) ↔
      (ptr.toNat ≤ userStackTop ∨ 2 ^ 32 + userStackTop < ptr.toNat + len.toNat) := by
  have hlt := ptr.toNat_lt
  have hexact : (userRange ptr len = true ↔ InWindow ptr len) ↔
      (ptr.toNat ≤ userStackTop ∨ 2 ^ 32 + userStackTop < ptr.toNat + len.toNat) := by
    rw [userRange_iff]
    unfold InWindow sub32 userBase userStackTop
    omega
  constructor
  · intro h
    exact hexact.1 h.1
  · intro h
    have hiff := hexact.2 h
    refine ⟨hiff, fun r c hc hb hno => syscallDispatch_rejects hc hb ?_⟩
    rw [← hiff] at hno
    exact Bool.eq_false_iff.2 hno

/-- The last byte of the address space passes as the start of a buffer of 1 GiB. -/
theorem userRange_accepts_top :
    userRange 0xFFFFFFFF 0x40000000 = true ∧ ¬ InWindow 0xFFFFFFFF 0x40000000 := by decide

/-! ## Stores to the caller -/

/-- Bytes stored one after another at a pointer. -/
def storeAt (ptr : UInt32) : Bytes → ℕ → Mem → Mem
  | [], _, m => m
  | b :: rest, i, m => storeAt ptr rest (i + 1) (Function.update m (addrOf ptr i) b)

section Stores

variable {fs : Fs} {fails : Faults} {s s' : SysState} {ptr : UInt32}

theorem storeAt_concat (bs : Bytes) (b : UInt8) (i : ℕ) (m : Mem) :
    storeAt ptr (bs ++ [b]) i m
      = Function.update (storeAt ptr bs i m) (addrOf ptr (i + bs.length)) b := by
  induction bs generalizing i m with
  | nil => rfl
  | cons c bs ih =>
    rw [List.cons_append, storeAt, ih, storeAt, List.length_cons]
    congr 2
    omega

/-- A buffer that does not reach the end of the address space. -/
theorem storeAt_eq {bs : Bytes} {i : ℕ} (h : ptr.toNat + i + bs.length ≤ 2 ^ 32) (m : Mem) :
    storeAt ptr bs i m = storeBytes m (ptr.toNat + i) bs := by
  induction bs generalizing i m with
  | nil => rw [storeBytes_nil, storeAt]
  | cons b bs ih =>
    rw [List.length_cons] at h
    rw [storeAt, ih (by omega), addrOf, w32_eq (by omega), ← storeBytes_cons, Nat.add_assoc]

/-- What is stored when no store faults. -/
theorem copyOut_run {bs : Bytes} {i : ℕ} {u : Unit}
    (h : (copyOut ptr bs i).run (sysHandler fs fails) s = .ok (u, s')) :
    s' = { s with mem := storeAt ptr bs i s.mem } := by
  induction bs generalizing i s with
  | nil =>
    cases h
    rfl
  | cons b bs ih =>
    obtain ⟨_, s1, hstore, hrest⟩ := Prog.run_bind_inv _ h
    rw [Sys.store_run] at hstore
    split_ifs at hstore
    cases hstore
    exact ih hrest

theorem copyOut_mapped (bs : Bytes) (i : ℕ)
    (hm : ∀ k < bs.length, s.mapped (addrOf ptr (i + k)) = true) :
    (copyOut ptr bs i).run (sysHandler fs fails) s
      = .ok ((), { s with mem := storeAt ptr bs i s.mem }) := by
  induction bs generalizing i s with
  | nil => rfl
  | cons b bs ih =>
    have hstore : (Sys.store (addrOf ptr i) b).run (sysHandler fs fails) s
        = .ok ((), { s with mem := Function.update s.mem (addrOf ptr i) b }) := by
      rw [Sys.store_run]
      exact if_pos (hm 0 (by simp))
    rw [copyOut, Prog.run_bind_ok _ hstore]
    refine ih (s := { s with mem := Function.update s.mem (addrOf ptr i) b }) (i + 1) (fun k hk => ?_)
    rw [Nat.add_assoc, Nat.add_comm 1]
    exact hm (k + 1) (by rw [List.length_cons]; omega)

/-! ## `SYS_GETARGS` -/

/-- The bytes that `SYS_GETARGS` stores. -/
def argsBytes (args : Bytes) (size : UInt32) : Bytes := args.take (argsLen args size) ++ [0]

theorem argsLen_le (args : Bytes) (size : UInt32) : argsLen args size ≤ args.length := by
  unfold argsLen
  split_ifs <;> omega

theorem argsLen_succ (args : Bytes) {size : UInt32} (h : size ≠ 0) :
    argsLen args size + 1 = min (args.length + 1) size.toNat := by
  have hpos : size.toNat ≠ 0 := fun hz => h (UInt32.toNat_inj.1 hz)
  unfold argsLen
  rw [if_pos h]
  split_ifs <;> omega

theorem take_argsLen_length (args : Bytes) (size : UInt32) :
    (args.take (argsLen args size)).length = argsLen args size := by
  rw [List.length_take, Nat.min_eq_left (argsLen_le args size)]

theorem sysGetargs_run {r : Regs} {rc : Int} (hok : userRange r.ebx r.ecx = true)
    (h : (sysGetargs r).run (sysHandler fs fails) s = .ok (rc, s')) :
    rc = argsLen s.args r.ecx ∧ s'.mem = storeAt r.ebx (argsBytes s.args r.ecx) 0 s.mem := by
  rw [sysGetargs, if_neg (by rw [hok]; decide)] at h
  obtain ⟨args, s1, hargs, h⟩ := Prog.run_bind_inv _ h
  cases hargs
  obtain ⟨_, s2, hcopy, h⟩ := Prog.run_bind_inv _ h
  obtain ⟨_, s3, hstore, h⟩ := Prog.run_bind_inv _ h
  cases h
  rw [copyOut_run hcopy, Sys.store_run] at hstore
  split_ifs at hstore
  cases hstore
  refine ⟨rfl, ?_⟩
  rw [argsBytes, storeAt_concat, take_argsLen_length, Nat.zero_add]

theorem sysGetargs_mapped {r : Regs} (hok : userRange r.ebx r.ecx = true)
    (hm : ∀ a, s.mapped a = true) :
    ∃ rc s', (sysGetargs r).run (sysHandler fs fails) s = .ok (rc, s') := by
  have hargs : Sys.args.run (sysHandler fs fails) s = .ok (s.args, s) := rfl
  have hcopy := @copyOut_mapped fs fails s r.ebx (s.args.take (argsLen s.args r.ecx)) 0
    (fun _ _ => hm _)
  have hstore := Sys.store_run fs fails { s with
    mem := storeAt r.ebx (s.args.take (argsLen s.args r.ecx)) 0 s.mem }
    (addrOf r.ebx (argsLen s.args r.ecx)) 0
  rw [if_pos (hm _)] at hstore
  rw [sysGetargs, if_neg (by rw [hok]; decide)]
  exact ⟨_, _, (Prog.run_bind_ok _ hargs _).trans
    ((Prog.run_bind_ok _ hcopy _).trans ((Prog.run_bind_ok _ hstore _).trans rfl))⟩

/-- A caller with all addresses present, all bytes 1 and the given arguments. -/
def onesState (args : Bytes) : SysState where
  mem := fun _ => 1
  mapped := fun _ => true
  con := ⟨fun _ => 0, 0, 0⟩
  intr := false
  others := []
  out := []
  ticks := 0
  pid := 1
  args := args
  files := ⟨⟨fun _ _ => 0, fun _ => 0, 0, [], ⟨0, 0, fun _ => 0⟩, [], 0⟩, fun _ => File.zero, fun _ => 0⟩

/-- The call stays inside the buffer, and fills it with the longest prefix that fits. -/
def GetargsSpec (r : Regs) (s : SysState) (rc : Int) (s' : SysState) : Prop :=
  (∀ a, ¬ (r.ebx.toNat ≤ a ∧ a < r.ebx.toNat + r.ecx.toNat) → s'.mem a = s.mem a) ∧
  (0 < r.ecx.toNat → ∃ pre, pre <+: s.args ∧ pre.length < r.ecx.toNat ∧
    (∀ q, q <+: s.args → q.length < r.ecx.toNat → q.length ≤ pre.length) ∧
    loadBytes s'.mem r.ebx.toNat (pre.length + 1) = pre ++ [0] ∧ rc = pre.length)

theorem getargsSpec_of_fits {r : Regs} {rc : Int} (hne : r.ecx ≠ 0)
    (hfit : r.ebx.toNat + min (s.args.length + 1) r.ecx.toNat ≤ 2 ^ 32)
    (hrc : rc = argsLen s.args r.ecx)
    (hmem : s'.mem = storeAt r.ebx (argsBytes s.args r.ecx) 0 s.mem) : GetargsSpec r s rc s' := by
  have hsucc := argsLen_succ s.args hne
  have hlen : (argsBytes s.args r.ecx).length = argsLen s.args r.ecx + 1 := by
    rw [argsBytes, List.length_append, take_argsLen_length, List.length_singleton]
  rw [storeAt_eq (by omega), Nat.add_zero] at hmem
  refine ⟨fun a ha => ?_, fun hpos => ?_⟩
  · rw [hmem]
    by_cases hlo : a < r.ebx.toNat
    · exact storeBytes_of_lt _ _ _ hlo
    · exact storeBytes_of_ge _ _ _ (by omega)
  · refine ⟨s.args.take (argsLen s.args r.ecx),  List.take_prefix _ _, ?_, fun q hq hqlen => ?_, ?_, ?_⟩
    · rw [take_argsLen_length]
      omega
    · have := hq.length_le
      rw [take_argsLen_length]
      omega
    · rw [take_argsLen_length, hmem, ← hlen, loadBytes_store, argsBytes]
    · rw [take_argsLen_length, hrc]

/-- **`SYS_GETARGS` stays inside the buffer** if and only if the buffer has room for the terminator
    and what is stored does not reach around the end of the address space. -/
theorem sysGetargs_frame_iff {r : Regs} (args : Bytes) (hcall : Syscall.ofNumber r.eax = some .getargs)
    (hok : userRange r.ebx r.ecx = true) (hargs : args.length ≤ 63) :
    (∀ s rc s', s.args = args → (syscallDispatch r).run (sysHandler fs fails) s = .ok (rc, s') →
      GetargsSpec r s rc s') ↔
      (r.ecx ≠ 0 ∧ r.ebx.toNat + min (args.length + 1) r.ecx.toNat ≤ 2 ^ 32) := by
  have hdispatch : syscallDispatch r = sysGetargs r := by
    unfold syscallDispatch
    rw [hcall]
  rw [hdispatch]
  constructor
  · intro h
    -- where all bytes are 1, the terminator is seen wherever it goes
    obtain ⟨rc, s', hrun⟩ := @sysGetargs_mapped fs fails (onesState args) r hok (fun _ => rfl)
    obtain ⟨-, hmem⟩ := sysGetargs_run hok hrun
    have hframe := (h _ rc s' rfl hrun).1
    have hnul : s'.mem (addrOf r.ebx (argsLen args r.ecx)) = 0 := by
      rw [hmem, argsBytes, storeAt_concat, take_argsLen_length, Nat.zero_add]
      exact Function.update_self ..
    have hin : r.ebx.toNat ≤ addrOf r.ebx (argsLen args r.ecx) ∧
        addrOf r.ebx (argsLen args r.ecx) < r.ebx.toNat + r.ecx.toNat := by
      by_contra hout
      rw [hframe _ hout] at hnul
      exact absurd hnul (show (1 : UInt8) ≠ 0 by decide)
    have hlt := r.ebx.toNat_lt
    have hle := argsLen_le args r.ecx
    unfold addrOf w32 at hin
    have hne : r.ecx ≠ 0 := by
      intro hz
      rw [hz] at hin
      simp at hin
      omega
    have := argsLen_succ args hne
    exact ⟨hne, by omega⟩
  · rintro ⟨hne, hfit⟩ s rc s' rfl hrun
    obtain ⟨hrc, hmem⟩ := sysGetargs_run hok hrun
    exact getargsSpec_of_fits hne hfit hrc hmem

end Stores

/-- A buffer of 16 bytes at the start of the window. -/
theorem sysGetargs_frame_ab : ∃ rc s',
    (syscallDispatch ⟨11, 0x40000000, 16, 0⟩).run (sysHandler smallFs noFaults)
      (onesState (str "ab")) = .ok (rc, s') ∧ rc = 2 ∧
    GetargsSpec ⟨11, 0x40000000, 16, 0⟩ (onesState (str "ab")) rc s' := by
  have hrun : (syscallDispatch ⟨11, 0x40000000, 16, 0⟩).Ends (sysHandler smallFs noFaults)
      (onesState (str "ab")) (fun rc _ => rc = 2) := by decide +kernel
  obtain ⟨rc, s', hrun, hrc⟩ := hrun
  exact ⟨rc, s', hrun, hrc, (sysGetargs_frame_iff (str "ab") rfl (by decide) (by decide)).2
    ⟨by decide, by decide⟩ _ rc s' rfl hrun⟩

/-- A buffer without room: the terminator is stored anyway. -/
theorem sysGetargs_empty_buffer : userRange 0x40000000 0 = true ∧
    ∃ rc s', (syscallDispatch ⟨11, 0x40000000, 0, 0⟩).run (sysHandler smallFs noFaults)
      (onesState (str "ab")) = .ok (rc, s') ∧
      ¬ GetargsSpec ⟨11, 0x40000000, 0, 0⟩ (onesState (str "ab")) rc s' := by
  have hrun : (syscallDispatch ⟨11, 0x40000000, 0, 0⟩).Ends (sysHandler smallFs noFaults)
      (onesState (str "ab")) (fun _ s' => s'.mem 0x40000000 = 0) := by decide +kernel
  obtain ⟨rc, s', hrun, hmem⟩ := hrun
  refine ⟨by decide, rc, s', hrun, fun hspec => ?_⟩
  rw [hspec.1 0x40000000 (by decide)] at hmem
  exact absurd hmem (show (1 : UInt8) ≠ 0 by decide)

/-! ## Writes to a descriptor -/

/-- The results of writes of any sizes, and the descriptor after them. -/
def Desc.writes : Desc → List Bytes → List Int × Desc
  | d, [] => ([], d)
  | d, src :: rest =>
    ((d.write src).1.1 :: (Desc.writes (d.write src).2 rest).1, (Desc.writes (d.write src).2 rest).2)

/-- No sum of `file_write` wraps around. -/
def Desc.NoWrap : Desc → List Bytes → Prop
  | _, [] => True
  | d, src :: rest => d.data.length + src.length < 2 ^ 32 ∧ Desc.NoWrap (d.write src).2 rest

section Writes

variable {s s' : FileSys} {l : List Blk} {base : Blk → Prop} {i : ℕ} {d : Desc}

theorem Desc.write_mode (d : Desc) (src : Bytes) : (d.write src).2.mode = d.mode := by
  unfold Desc.write
  split_ifs <;> rfl

/-- A write stays below the capacity and only adds. -/
theorem Desc.write_capacity (hcap : d.data.length ≤ writeCap) (src : Bytes) :
    (d.write src).2.data.length ≤ writeCap ∧ d.data <+: (d.write src).2.data := by
  unfold Desc.write
  split_ifs with h
  · exact ⟨hcap, List.prefix_rfl⟩
  · rw [not_or, not_lt] at h
    exact ⟨by simpa using h.2,  List.prefix_append _ _⟩

theorem Desc.writes_capacity (hcap : d.data.length ≤ writeCap) (chunks : List Bytes) :
    (d.writes chunks).2.data.length ≤ writeCap ∧ d.data <+: (d.writes chunks).2.data := by
  induction chunks generalizing d with
  | nil => exact ⟨hcap, List.prefix_rfl⟩
  | cons src rest ih =>
    obtain ⟨hcap1, hpre1⟩ := Desc.write_capacity hcap src
    obtain ⟨hcap2, hpre2⟩ := ih hcap1
    exact ⟨hcap2, hpre1.trans hpre2⟩

/-- One `file_write` whose sum does not wrap. -/
theorem fileWrite_noWrap (hl : s.fat.heap.blocks = some l) (ho : Owns s.files l base)
    (hi : i < maxFiles) (hd : s.desc i = some d) {src : Bytes}
    (hsum : d.data.length + src.length < 2 ^ 32) :
    ∃ s', fileWrite d.pid (i + fdBase) src s = .ok ((d.write src).1.1, s') ∧
      s'.desc i = some (d.write src).2 ∧ s'.fat = s.fat ∧ Owns s'.files l base := by
  by_cases hfull : d.mode ≠ oWronly ∨ writeCap < d.data.length + src.length
  · refine ⟨s, ?_, ?_, rfl, ho⟩
    · rw [fileWrite_eq hl ho hi hd hsum, if_pos hfull]
    · rw [Desc.write, if_pos hfull]
      exact hd
  · obtain ⟨s', hres, hdesc, hfat, ho', -⟩ := fileWrite_fits hl ho hi hd hfull
    refine ⟨s', ?_, ?_, hfat, ho'⟩
    · rw [hres, Desc.write, if_neg hfull]
    · rw [hdesc, Desc.write, if_neg hfull]

/-- One `file_write` whose sum wraps: it passes the check and leaves the buffer. -/
theorem fileWrite_wraps (hl : s.fat.heap.blocks = some l) (ho : Owns s.files l base)
    (hi : i < maxFiles) (hd : s.desc i = some d) (hmode : d.mode = oWronly)
    (hcap : d.data.length ≤ writeCap) {src : Bytes} (hsrc : src.length < 2 ^ 32)
    (hsum : 2 ^ 32 ≤ d.data.length + src.length) :
    fileWrite d.pid (i + fdBase) src s = .error .undefined := by
  have hu := FileSys.used_of_desc hd
  obtain ⟨b, hb, hown, -⟩ := ho.slot i hi hu
  have hlt := block_lt hl hb
  have hpay : s.fat.heap.payload (s.files i).buf = b.size := by
    rw [hown.buf]
    exact Heap.payload_eq hl (List.mem_filter.1 hb).1
  rw [fileWrite, getFile_of_desc hi hd]
  rw [FileSys.desc_eq hu] at hd
  cases hd
  simp only [loadBytes_length] at hcap hsum hmode
  simp only
  unfold writeCap at *
  rw [if_neg (not_not.2 hmode), if_neg (by unfold w32; omega), hpay, if_pos (by omega)]

/-- **The capacity of a write buffer.** A sequence of writes of any 32-bit sizes does what it
    should, each write appending its bytes or being refused and the size staying below the capacity,
    if and only if no sum of a size and a length wraps around. -/
theorem writeAll_capacity_iff (hl : s.fat.heap.blocks = some l) (ho : Owns s.files l base)
    (hi : i < maxFiles) (hd : s.desc i = some d) (hmode : d.mode = oWronly)
    (hcap : d.data.length ≤ writeCap) {chunks : List Bytes} (h32 : ∀ c ∈ chunks, c.length < 2 ^ 32) :
    (∃ s', writeAll d.pid (i + fdBase) chunks s = .ok ((d.writes chunks).1, s') ∧
      s'.desc i = some (d.writes chunks).2 ∧ (d.writes chunks).2.data.length ≤ writeCap ∧
      d.data <+: (d.writes chunks).2.data) ↔ d.NoWrap chunks := by
  have hkept := Desc.writes_capacity hcap chunks
  simp only [hkept, and_true]
  clear hkept
  induction chunks generalizing s d with
  | nil => exact iff_of_true ⟨s, rfl, hd⟩ trivial
  | cons src rest ih =>
    have hsrc := h32 src (List.mem_cons_self ..)
    by_cases hsum : d.data.length + src.length < 2 ^ 32
    · obtain ⟨s1, hres, hd1, hfat, ho1⟩ := fileWrite_noWrap hl ho hi hd hsum
      rw [← hfat] at hl
      have hiff := ih hl ho1 hd1 ((d.write_mode src).trans hmode) (Desc.write_capacity hcap src).1
        (fun c hc => h32 c (List.mem_cons_of_mem _ hc))
      rw [d.write_pid src] at hiff
      simp only [Desc.NoWrap, hsum, true_and, ← hiff, Desc.writes, writeAll, hres, ok_bind]
      constructor
      · rintro ⟨s', hrun, hdesc⟩
        obtain ⟨⟨rs, s''⟩, hrest, hrun⟩ := ok_of_bind hrun
        cases hrun
        exact ⟨_, hrest, hdesc⟩
      · rintro ⟨s', hrun, hdesc⟩
        exact ⟨s', by rw [hrun]; rfl, hdesc⟩
    · have hwrap := fileWrite_wraps hl ho hi hd hmode hcap hsrc (by omega)
      refine iff_of_false ?_ (fun h => hsum h.1)
      rintro ⟨s', hrun, -⟩
      rw [writeAll, hwrap] at hrun
      cases hrun

end Writes

/-- A fresh descriptor for writing on the empty volume. -/
theorem smallFiles_open : ∃ s l, fileOpen smallFs noFaults 1 (str "B") oWronly
      (smallFiles [] [] []) = .ok (3, s) ∧ s.fat.heap.blocks = some l ∧
    Owns s.files l (· ∈ usedOf [⟨0x100000, 0x1FFF4, false⟩]) ∧
    s.desc 0 = some ⟨1, oWronly, str "/B", [], 0⟩ := by
  have hres : (fileOpen smallFs noFaults 1 (str "B") oWronly (smallFiles [] [] [])).map
      (fun r => r.1) = .ok 3 := by decide +kernel
  cases hopen : fileOpen smallFs noFaults 1 (str "B") oWronly (smallFiles [] [] []) with
  | error w =>
    rw [hopen] at hres
    cases hres
  | ok r =>
    obtain ⟨fd, s⟩ := r
    rw [hopen] at hres
    cases hres
    obtain ⟨i, hi, hfd, -, hd, ⟨l, hl, ho⟩, -⟩ := fileOpen_write (by decide) filesHeap_blocks
      (Owns.init (fun _ _ => rfl)) hopen (by decide)
    obtain rfl : i = 0 := by
      have : (3 : Int) = i + 3 := hfd
      omega
    exact ⟨s, l, rfl, hl, ho, hd⟩

/-- `A`, written to a fresh descriptor. -/
theorem writeAll_capacity_a : ∃ s s', fileOpen smallFs noFaults 1 (str "B") oWronly
      (smallFiles [] [] []) = .ok (3, s) ∧
    writeAll 1 3 [str "A"] s = .ok ([1], s') ∧
    s'.desc 0 = some ⟨1, oWronly, str "/B", str "A", 0⟩ := by
  obtain ⟨s, l, hopen, hl, ho, hd⟩ := smallFiles_open
  have hiff := @writeAll_capacity_iff _ _ _ 0 _ hl ho (by decide) hd rfl (by decide) [str "A"] (by decide)
  obtain ⟨s', hrun, hdesc, -, -⟩ := hiff.2 ⟨by decide, trivial⟩
  exact ⟨s, s', hopen, hrun, hdesc⟩

/-- A length just below 4 GiB passes the range check and, once the buffer holds a byte, the check of
    the capacity. -/
theorem fileWrite_overruns : ∃ s s', fileOpen smallFs noFaults 1 (str "B") oWronly
      (smallFiles [] [] []) = .ok (3, s) ∧ fileWrite 1 3 (str "A") s = .ok (1, s') ∧
    userRange 0x40400001 0xFFFFFFFF = true ∧
    fileWrite 1 3 (List.replicate 0xFFFFFFFF 0) s' = .error .undefined := by
  obtain ⟨s, l, hopen, hl, ho, hd⟩ := smallFiles_open
  obtain ⟨s', hrun, hdesc, hfat, ho'⟩ := @fileWrite_noWrap _ _ _ 0 _ hl ho (by decide) hd
    (str "A") (by decide)
  rw [← hfat] at hl
  refine ⟨s, s', hopen, hrun, by decide, ?_⟩
  exact fileWrite_wraps hl ho' (i := 0) (by decide) hdesc rfl (by decide)
    (by rw [List.length_replicate]; decide) (by rw [List.length_replicate]; decide)

end OctoOS
