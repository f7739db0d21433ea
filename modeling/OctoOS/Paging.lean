import OctoOS.Frame

set_option autoImplicit false

/-! # Page tables (`kernel/paging.c`)

Page directories and page tables are frames; their entries are words of the physical memory, which
the kernel reaches at the same virtual addresses. `kdir` is set once, by `paging_init`, and is an
argument of the functions that read it. `walk` is the processor's translation of one address. -/

namespace OctoOS

/-- `USER_BASE`. -/
def userBase : ℕ := 0x40000000

/-- `USER_STACK_TOP`. -/
def userStackTop : ℕ := 0x40400000

/-- `USER_STACK_PAGES`. -/
def userStackPages : ℕ := 4

/-- `USER_IMAGE_MAX`. -/
def userImageMax : ℕ := 0x400000 - userStackPages * frameSize

/-- `IDENTITY_PDES`. -/
def identityPdes : ℕ := 64

/-- `USER_PDE`. -/
def userPde : ℕ := userBase >>> 22

/-- `PTE_P`. -/
def pteP : ℕ := 0x001

/-- `PTE_W`. -/
def pteW : ℕ := 0x002

/-- `PTE_U`. -/
def pteU : ℕ := 0x004

/-- `PDE_PS`. -/
def pdePs : ℕ := 0x080

/-- `entry & PTE_P`. -/
def present (entry : ℕ) : Bool := entry &&& pteP ≠ 0

/-- `entry & ~0xFFFu`. -/
def frameOf (entry : ℕ) : ℕ := entry / frameSize * frameSize

/-- `frame | PTE_U | PTE_W | PTE_P`. -/
def userEntry (frame : ℕ) : ℕ := frame ||| pteU ||| pteW ||| pteP

/-- The loop of `paging_init` over the `n` entries of `kdir` from `i` on. -/
def pagingInitLoop (kdir : ℕ) : ℕ → ℕ → Mem → Mem
  | 0, _, m => m
  | n + 1, i, m =>
    pagingInitLoop kdir n (i + 1) (m.setWord (kdir + 4 * i) (i <<< 22 ||| pdePs ||| pteW ||| pteP))

/-- `paging_init`: the new `kdir` and the memory. -/
def pagingInit (s : Phys) : ℕ × Phys :=
  let (kdir, s) := frameAlloc s
  (kdir, { s with mem := pagingInitLoop kdir identityPdes 0 s.mem })

/-- The loop of `free_user_pages` over the `n` entries of `pt` from `i` on. -/
def freeUserPagesLoop (pt : ℕ) : ℕ → ℕ → Phys → Phys
  | 0, _, s => s
  | n + 1, i, s =>
    let entry := s.mem.word (pt + 4 * i)
    freeUserPagesLoop pt n (i + 1) (if present entry then frameFree (frameOf entry) s else s)

/-- `free_user_pages`. -/
def freeUserPages (pgdir : ℕ) (s : Phys) : Phys :=
  let entry := s.mem.word (pgdir + 4 * userPde)
  if present entry then
    frameFree pgdir (frameFree (frameOf entry) (freeUserPagesLoop (frameOf entry) 1024 0 s))
  else frameFree pgdir s

/-- The loop of `paging_new_user` over the `n` stack pages from `i` on; `false` when a frame is
    missing. -/
def mapStackLoop (pt : ℕ) : ℕ → ℕ → Phys → Bool × Phys
  | 0, _, s => (true, s)
  | n + 1, i, s =>
    let (f, s) := frameAlloc s
    if f = 0 then (false, s)
    else mapStackLoop pt n (i + 1) { s with mem := s.mem.setWord (pt + 4 * i) (userEntry f) }

/-- `paging_new_user`. -/
def pagingNewUser (kdir : ℕ) (s : Phys) : ℕ × Phys :=
  let (pgdir, s) := frameAlloc s
  if pgdir = 0 then (0, s)
  else
    let s := { s with mem := s.mem.copy pgdir kdir frameSize }
    let (pt, s) := frameAlloc s
    if pt = 0 then (0, frameFree pgdir s)
    else
      let s := { s with mem := s.mem.setWord (pgdir + 4 * userPde) (userEntry pt) }
      let (mapped, s) := mapStackLoop pt userStackPages (1024 - userStackPages) s
      if mapped then (pgdir, s) else (0, freeUserPages pgdir s)

/-- `paging_user_page`. -/
def pagingUserPage (pgdir vaddr : ℕ) (s : Phys) : ℕ × Phys :=
  if vaddr < userBase ∨ userBase + userImageMax ≤ vaddr then (0, s)
  else
    let pt := frameOf (s.mem.word (pgdir + 4 * userPde))
    let idx := (vaddr - userBase) / frameSize
    if present (s.mem.word (pt + 4 * idx)) then (frameOf (s.mem.word (pt + 4 * idx)), s)
    else
      let (f, s) := frameAlloc s
      if f = 0 then (0, s)
      else
        let s := { s with mem := s.mem.setWord (pt + 4 * idx) (userEntry f) }
        (frameOf (s.mem.word (pt + 4 * idx)), s)

/-- `paging_destroy_user`. -/
def pagingDestroyUser (pgdir : ℕ) (s : Phys) : Phys := freeUserPages pgdir s

/-- Whether an entry lets an access through; user mode needs the `U` bit. -/
def allows (user : Bool) (entry : ℕ) : Bool := present entry && (!user || entry &&& pteU ≠ 0)

/-- The physical address the processor finds for `va`; `none` is a page fault. -/
def walk (user : Bool) (m : Mem) (pgdir va : ℕ) : Option ℕ :=
  let pde := m.word (pgdir + 4 * (va / 2 ^ 22))
  if allows user pde then
    if pde &&& pdePs ≠ 0 then some (pde / 2 ^ 22 * 2 ^ 22 + va % 2 ^ 22)
    else
      let pte := m.word (frameOf pde + 4 * (va / frameSize % 1024))
      if allows user pte then some (frameOf pte + va % frameSize) else none
  else none

/-! ## Entries

The flags of an entry are its low twelve bits. -/

section Entries

variable {f w i : ℕ}

theorem and_flags (w : ℕ) {mask : ℕ} (hmask : mask < frameSize) :
    w &&& mask = w % frameSize &&& mask := by
  have hlt : w &&& mask < 2 ^ 12 := Nat.lt_of_le_of_lt Nat.and_le_right hmask
  calc w &&& mask = (w &&& mask) % 2 ^ 12 := (Nat.mod_eq_of_lt hlt).symm
    _ = w % 2 ^ 12 &&& mask % 2 ^ 12 := Nat.and_mod_two_pow
    _ = w % frameSize &&& mask := congrArg (w % 2 ^ 12 &&& ·) (Nat.mod_eq_of_lt hmask)

theorem present_of_flags {flags : ℕ} (hw : w % frameSize = flags) : present w = present flags := by
  rw [present, and_flags w (by decide), hw, present, and_flags flags (by decide), ← hw, Nat.mod_mod]

theorem allows_of_flags {flags : ℕ} (user : Bool) (hw : w % frameSize = flags) :
    allows user w = allows user flags := by
  rw [allows, present_of_flags hw, and_flags w (by decide), hw, allows, and_flags flags (by decide),
    ← hw, Nat.mod_mod]

theorem userEntry_eq (hf : f % frameSize = 0) : userEntry f = f + 7 := by
  obtain ⟨k, rfl⟩ := Nat.dvd_of_mod_eq_zero hf
  rw [userEntry, Nat.or_assoc, Nat.or_assoc]
  exact (Nat.two_pow_add_eq_or_of_lt (i := 12) (b := 7) (by decide) k).symm

theorem userEntry_flags (hf : f % frameSize = 0) : userEntry f % frameSize = 7 := by
  rw [userEntry_eq hf]
  unfold frameSize at *
  omega

theorem frameOf_userEntry (hf : f % frameSize = 0) : frameOf (userEntry f) = f := by
  rw [userEntry_eq hf, frameOf]
  unfold frameSize at *
  omega

theorem userEntry_lt (hf : f % frameSize = 0) (hlt : f + frameSize ≤ 2 ^ 32) :
    userEntry f < 2 ^ 32 := by
  rw [userEntry_eq hf]
  unfold frameSize at *
  omega

/-- The entry of `kdir` and of every page directory for the 4 MiB from `i << 22` on. -/
def kernelEntry (i : ℕ) : ℕ := if i < identityPdes then i <<< 22 ||| pdePs ||| pteW ||| pteP else 0

theorem kernelEntry_eq (hi : i < identityPdes) : kernelEntry i = i * 2 ^ 22 + 0x83 := by
  rw [kernelEntry, if_pos hi, Nat.or_assoc, Nat.or_assoc, Nat.shiftLeft_eq, Nat.mul_comm]
  exact (Nat.two_pow_add_eq_or_of_lt (i := 22) (b := 0x83) (by decide) i).symm

theorem kernelEntry_flags (hi : i < identityPdes) : kernelEntry i % frameSize = 0x83 := by
  rw [kernelEntry_eq hi]
  unfold frameSize
  omega

theorem kernelEntry_lt (i : ℕ) : kernelEntry i < 2 ^ 32 := by
  by_cases hi : i < identityPdes
  · rw [kernelEntry_eq hi]
    unfold identityPdes at hi
    omega
  · rw [kernelEntry, if_neg hi]
    decide

/-- No kernel entry lets user mode through. -/
theorem allows_user_kernelEntry (i : ℕ) : allows true (kernelEntry i) = false := by
  by_cases hi : i < identityPdes
  · rw [allows_of_flags true (kernelEntry_flags hi)]
    decide
  · rw [kernelEntry, if_neg hi]
    decide

end Entries

end OctoOS
