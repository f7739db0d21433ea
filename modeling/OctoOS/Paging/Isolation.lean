import OctoOS.Paging.Spaces

set_option autoImplicit false

/-! # Address-space isolation

What a page walk finds in an address space, and that no run of the functions of `paging.c` lets two
address spaces share a frame or reach one of the kernel's tables from user mode. Between the calls
of the kernel the processes may store wherever they can walk to. -/

namespace OctoOS

/-- The page table that a page directory refers to for the user window. -/
def tableOf (m : Mem) (pgdir : ℕ) : ℕ := frameOf (m.word (pgdir + 4 * userPde))

/-- What is reached from `s0`, with the page directories that are in use: `paging_new_user` made
    them and `paging_destroy_user` has not been called on them. -/
inductive PagingRun (kdir : ℕ) (s0 : Phys) : Phys → List ℕ → Prop where
  | init : PagingRun kdir s0 s0 []
  | newUser {s s' : Phys} {live : List ℕ} {d : ℕ} : PagingRun kdir s0 s live →
      pagingNewUser kdir s = (d, s') → PagingRun kdir s0 s' (if d = 0 then live else d :: live)
  | userPage {s s' : Phys} {live : List ℕ} {d va r : ℕ} : PagingRun kdir s0 s live → d ∈ live →
      pagingUserPage d va s = (r, s') → PagingRun kdir s0 s' live
  | destroyUser {s : Phys} {live : List ℕ} {d : ℕ} : PagingRun kdir s0 s live → d ∈ live →
      PagingRun kdir s0 (pagingDestroyUser d s) (live.erase d)
  /-- A process stores a byte. -/
  | store {s : Phys} {live : List ℕ} {d va pa : ℕ} (b : UInt8) : PagingRun kdir s0 s live →
      d ∈ live → va < 2 ^ 32 → walk true s.mem d va = some pa →
      PagingRun kdir s0 { s with mem := Function.update s.mem pa b } live

/-- What isolation means for the page directories `live`. -/
structure Isolated (kdir : ℕ) (s : Phys) (live : List ℕ) : Prop where
  /-- User mode reaches nothing outside the user window. -/
  window : ∀ d ∈ live, ∀ va < 2 ^ 32, ∀ pa, walk true s.mem d va = some pa →
    userBase ≤ va ∧ va < userStackTop
  /-- What it reaches is in an allocated frame, and in none of the kernel's tables. -/
  frame : ∀ d ∈ live, ∀ va < 2 ^ 32, ∀ pa, walk true s.mem d va = some pa →
    frameOf pa ∈ s.frames ∧ frameOf pa ≠ kdir ∧
      ∀ d' ∈ live, frameOf pa ≠ d' ∧ frameOf pa ≠ tableOf s.mem d'
  /-- No other address space and no other page of the same one maps that frame. -/
  alone : ∀ d ∈ live, ∀ va < 2 ^ 32, ∀ pa, walk true s.mem d va = some pa →
    ∀ d' ∈ live, ∀ va' < 2 ^ 32, ∀ pa', walk true s.mem d' va' = some pa' →
      frameOf pa' = frameOf pa → d' = d ∧ va' / frameSize = va / frameSize
  /-- Through the kernel's own page directory user mode reaches nothing. -/
  kernel : ∀ va < 2 ^ 32, walk true s.mem kdir va = none
  /-- The identity map of the first 256 MiB is the same everywhere. -/
  identity : ∀ d ∈ kdir :: live, (∀ i < identityPdes, s.mem.word (d + 4 * i) = kernelEntry i) ∧
    ∀ va < identityLimit, walk false s.mem d va = some va

/-! ## Page walks -/

section Walk

variable {m : Mem} {d va : ℕ}

theorem walk_user_kernelEntry (hpde : m.word (d + 4 * (va / 2 ^ 22)) = kernelEntry (va / 2 ^ 22)) :
    walk true m d va = none := by
  rw [walk, hpde]
  simp only [allows_user_kernelEntry, Bool.false_eq_true, if_false]

theorem walk_identity (hpde : m.word (d + 4 * (va / 2 ^ 22)) = kernelEntry (va / 2 ^ 22))
    (hva : va < identityLimit) : walk false m d va = some va := by
  have hi : va / 2 ^ 22 < identityPdes := by
    unfold identityLimit at hva
    unfold identityPdes
    omega
  have hallows : allows false (kernelEntry (va / 2 ^ 22)) = true := by
    rw [allows_of_flags false (kernelEntry_flags hi)]
    decide
  have hps : kernelEntry (va / 2 ^ 22) &&& pdePs ≠ 0 := by
    rw [and_flags _ (by decide), kernelEntry_flags hi]
    decide
  rw [walk, hpde]
  simp only [hallows, if_true, if_pos hps]
  rw [kernelEntry_eq hi]
  congr 1
  omega

end Walk

/-! ## Isolation along runs -/

section Run

variable {kdir : ℕ} {rest : List ℕ} {l : List Space} {sp : Space} {s s0 : Phys} {live : List ℕ}

section

variable (h : PagingInv kdir rest l s) (hsp : sp ∈ l)

include h hsp

theorem PagingInv.tableOf_dir : tableOf s.mem sp.dir = sp.table := by
  rw [tableOf, (h.spaces sp hsp).user, frameOf_userEntry (h.aligned hsp sp.table_mem)]

/-- In the user window a walk finds the frame the space has there, for any access. -/
theorem PagingInv.walk_window {va : ℕ} (hlo : userBase ≤ va) (hhi : va < userStackTop)
    (user : Bool) : walk user s.mem sp.dir va
      = (sp.pages ((va - userBase) / frameSize)).map (· + va % frameSize) := by
  have hpde : va / 2 ^ 22 = userPde := by
    unfold userBase userStackTop at *
    unfold userPde userBase
    omega
  have hidx : va / frameSize % 1024 = (va - userBase) / frameSize := by
    unfold userBase userStackTop frameSize at *
    omega
  have hlt : (va - userBase) / frameSize < 1024 := by
    rw [← hidx]
    exact Nat.mod_lt _ (by decide)
  have htab := h.aligned hsp sp.table_mem
  have hallows : ∀ f, f % frameSize = 0 → allows user (userEntry f) = true := fun f hf => by
    rw [allows_of_flags user (userEntry_flags hf)]
    cases user <;> decide
  have hps : ¬ (userEntry sp.table &&& pdePs ≠ 0) := by
    rw [and_flags _ (by decide), userEntry_flags htab]
    decide
  rw [walk, hpde, (h.spaces sp hsp).user]
  simp only [hallows _ htab, if_true, if_neg hps, frameOf_userEntry htab, hidx,
    (h.spaces sp hsp).pages _ hlt]
  cases hpage : sp.pages ((va - userBase) / frameSize) with
  | none =>
    have hnone : allows user (pageEntry none) = false := by cases user <;> decide
    rw [hnone]
    rfl
  | some f =>
    have hf := h.aligned hsp (Space.mem_frames (Space.mem_mapped.2 ⟨_, hlt, hpage⟩))
    simp only [pageEntry, hallows f hf, if_true, frameOf_userEntry hf]
    rfl

variable {va pa : ℕ} (hva : va < 2 ^ 32) (hw : walk true s.mem sp.dir va = some pa)

include hva hw

/-- What a user-mode walk in a space finds, and where. -/
theorem PagingInv.walk_some :
    userBase ≤ va ∧ va < userStackTop ∧
      sp.pages ((va - userBase) / frameSize) = some (frameOf pa) ∧ frameOf pa ∈ sp.mapped := by
  by_cases hwin : userBase ≤ va ∧ va < userStackTop
  · obtain ⟨hlo, hhi⟩ := hwin
    rw [h.walk_window hsp hlo hhi] at hw
    obtain ⟨f, hpage, rfl⟩ := Option.map_eq_some_iff.1 hw
    have hlt : (va - userBase) / frameSize < 1024 := by
      unfold userBase userStackTop frameSize at *
      omega
    have hmem : f ∈ sp.mapped := Space.mem_mapped.2 ⟨_, hlt, hpage⟩
    have hf := h.aligned hsp (Space.mem_frames hmem)
    have hframe : frameOf (f + va % frameSize) = f := by
      unfold frameOf frameSize at *
      omega
    rw [hframe]
    exact ⟨hlo, hhi, hpage, hmem⟩
  · have hpde : va / 2 ^ 22 ≠ userPde := by
      unfold userBase userStackTop at hwin
      unfold userPde userBase
      omega
    rw [walk_user_kernelEntry ((h.spaces sp hsp).kernel _ (by omega) hpde)] at hw
    cases hw

/-- A store of a process goes to one of its pages. -/
theorem PagingInv.store (b : UInt8) :
    PagingInv kdir rest l { s with mem := Function.update s.mem pa b } := by
  obtain ⟨-, -, -, hmem⟩ := h.walk_some hsp hva hw
  refine h.set_page hsp hmem (fun i hi => Function.update_of_ne (fun heq => hi ?_) _ _)
  rw [heq]
  unfold frameOf frameSize
  omega

end

/-- The invariant gives isolation. -/
theorem PagingInv.isolated (h : PagingInv kdir rest l s) (hlive : (l.map Space.dir).Perm live) :
    Isolated kdir s live := by
  have hspace : ∀ d ∈ live, ∃ sp ∈ l, sp.dir = d := fun d hd => by
    simpa only [List.mem_map] using hlive.mem_iff.2 hd
  refine ⟨fun d hd va hva pa hw => ?_, fun d hd va hva pa hw => ?_,
    fun d hd va hva pa hw d' hd' va' hva' pa' hw' heq => ?_, fun va hva => ?_, fun d hd => ?_⟩
  · obtain ⟨sp, hsp, rfl⟩ := hspace d hd
    obtain ⟨hlo, hhi, -⟩ := h.walk_some hsp hva hw
    exact ⟨hlo, hhi⟩
  · obtain ⟨sp, hsp, rfl⟩ := hspace d hd
    obtain ⟨-, -, -, hmem⟩ := h.walk_some hsp hva hw
    obtain ⟨hk, htabs⟩ := h.page_ne hsp hmem
    refine ⟨h.mem_space hsp (Space.mem_frames hmem), hk.symm, fun d' hd' => ?_⟩
    obtain ⟨sp', hsp', rfl⟩ := hspace d' hd'
    rw [h.tableOf_dir hsp']
    exact ⟨(htabs sp' hsp').1.symm, (htabs sp' hsp').2.symm⟩
  · obtain ⟨sp, hsp, rfl⟩ := hspace d hd
    obtain ⟨sp', hsp', rfl⟩ := hspace d' hd'
    obtain ⟨hlo, hhi, hpage, hmem⟩ := h.walk_some hsp hva hw
    obtain ⟨hlo', hhi', hpage', hmem'⟩ := h.walk_some hsp' hva' hw'
    rw [heq] at hpage' hmem'
    -- the frame has one owner, and that one maps it once
    obtain rfl := owner_unique h.nodup_spaces hsp' hsp (Space.mem_frames hmem') (Space.mem_frames hmem)
    have hnd := h.nodup_frames hsp
    rw [Space.frames, List.nodup_cons, List.nodup_cons] at hnd
    have hidx := filterMap_index_unique (i := (va' - userBase) / frameSize)
      (j := (va - userBase) / frameSize) hnd.2.2 (by unfold userBase userStackTop frameSize at *; omega)
      (by unfold userBase userStackTop frameSize at *; omega) hpage' hpage
    refine ⟨rfl, ?_⟩
    unfold userBase frameSize at *
    omega
  · exact walk_user_kernelEntry (h.kernel _ (by omega))
  · have hlow : ∀ i < identityPdes, s.mem.word (d + 4 * i) = kernelEntry i := by
      intro i hi
      unfold identityPdes at hi
      rcases List.mem_cons.1 hd with rfl | hd
      · exact h.kernel i (by omega)
      · obtain ⟨sp, hsp, rfl⟩ := hspace d hd
        exact (h.spaces sp hsp).kernel i (by omega) (by unfold userPde userBase; omega)
    refine ⟨hlow, fun va hva => walk_identity (hlow _ ?_) hva⟩
    unfold identityLimit at hva
    unfold identityPdes
    omega

/-- A page directory in use is that of a space; the others are the rest. -/
theorem exists_space {d : ℕ} (hd : d ∈ live) (hlive : (l.map Space.dir).Perm live) :
    ∃ sp l', sp.dir = d ∧ l.Perm (sp :: l') ∧ live.Perm (d :: l'.map Space.dir) := by
  obtain ⟨sp, hsp, rfl⟩ := List.mem_map.1 (hlive.mem_iff.2 hd)
  obtain ⟨l1, l2, rfl⟩ := List.append_of_mem hsp
  have hperm : (l1 ++ sp :: l2).Perm (sp :: (l1 ++ l2)) := List.perm_middle
  exact ⟨sp, l1 ++ l2, rfl, hperm, hlive.symm.trans (hperm.map Space.dir)⟩

/-- Every reachable memory holds address spaces that own all frames but the kernel's. -/
theorem PagingRun.inv (h0 : PagingInv kdir [] [] s0) (hrun : PagingRun kdir s0 s live) :
    ∃ l, PagingInv kdir [] l s ∧ (l.map Space.dir).Perm live := by
  induction hrun with
  | init => exact ⟨[], h0, List.Perm.refl _⟩
  | newUser _ hnew ih =>
    obtain ⟨l, hinv, hlive⟩ := ih
    rcases pagingNewUser_inv hinv with ⟨s', heq, hinv'⟩ | ⟨sp, s', heq, hinv', -, -⟩
    · obtain ⟨rfl, rfl⟩ := Prod.mk.inj (hnew.symm.trans heq)
      exact ⟨l, hinv', hlive⟩
    · obtain ⟨rfl, rfl⟩ := Prod.mk.inj (hnew.symm.trans heq)
      have hpos := (hinv'.ok.frame (hinv'.mem_space (List.mem_cons_self ..) (List.mem_cons_self ..))).2.1
      rw [if_neg (by omega)]
      exact ⟨sp :: l, hinv', hlive.cons _⟩
  | @userPage s s' live d va r _ hd hpage ih =>
    obtain ⟨l, hinv, hlive⟩ := ih
    obtain ⟨sp, l', rfl, hperm, hlive'⟩ := exists_space hd hlive
    rcases pagingUserPage_inv (hinv.perm (List.Perm.refl _) hperm) va with ⟨heq, -⟩ |
      ⟨f, s'', heq, -, -, hinv', -⟩
    · obtain ⟨-, rfl⟩ := Prod.mk.inj (hpage.symm.trans heq)
      exact ⟨l, hinv, hlive⟩
    · obtain ⟨-, rfl⟩ := Prod.mk.inj (hpage.symm.trans heq)
      exact ⟨_, hinv', hlive'.symm⟩
  | @destroyUser s live d _ hd ih =>
    obtain ⟨l, hinv, hlive⟩ := ih
    obtain ⟨sp, l', rfl, hperm, hlive'⟩ := exists_space hd hlive
    refine ⟨l', freeUserPages_inv (hinv.perm (List.Perm.refl _) hperm), ?_⟩
    exact List.Perm.cons_inv (hlive'.symm.trans (List.perm_cons_erase hd))
  | @store s live d va pa b _ hd hva hw ih =>
    obtain ⟨l, hinv, hlive⟩ := ih
    obtain ⟨sp, hsp, rfl⟩ := List.mem_map.1 (hlive.mem_iff.2 hd)
    exact ⟨l, hinv.store hsp hva hw b, hlive⟩

end Run

/-- The invariant holds in every state reached after `paging_init` found a frame. -/
theorem pagingRun_inv {map : List E820Entry} {mem : Mem} {kdir : ℕ} {s0 s : Phys} {live : List ℕ}
    (hinit : pagingInit (frameInit map mem) = (kdir, s0)) (hkdir : kdir ≠ 0)
    (hrun : PagingRun kdir s0 s live) :
    ∃ l, PagingInv kdir [] l s ∧ (l.map Space.dir).Perm live := by
  have hpos : 0 < (frameInit map mem).base := by
    refine Nat.pos_of_ne_zero (fun h0 => hkdir ?_)
    exact (congrArg Prod.fst hinit).symm.trans (frameAlloc_of_base_zero (frameInit_bitmap map mem) h0)
  exact hrun.inv (pagingInit_inv (frameInit_ok map mem hpos) (frameInit_frames map mem) hinit hkdir)

/-- After any sequence of the calls of `paging.c`, the live address spaces are isolated. -/
theorem pagingRun_isolated {map : List E820Entry} {mem : Mem} {kdir : ℕ} {s0 s : Phys}
    {live : List ℕ} (hinit : pagingInit (frameInit map mem) = (kdir, s0)) (hkdir : kdir ≠ 0)
    (hrun : PagingRun kdir s0 s live) : Isolated kdir s live := by
  obtain ⟨l, hinv, hlive⟩ := pagingRun_inv hinit hkdir hrun
  exact hinv.isolated hlive

/-- 16 MiB of memory from 1 MiB on: the first frame is at 0x900000. -/
def mediumMap : List E820Entry := [⟨0x100000, 0x1000000, 1⟩]

/-- The memory after `frame_init` and `paging_init`. -/
def mediumPhys : Phys := (pagingInit (frameInit mediumMap (fun _ => 0))).2

theorem mediumPhys_init : pagingInit (frameInit mediumMap (fun _ => 0)) = (0x900000, mediumPhys) := by
  have hk : (pagingInit (frameInit mediumMap (fun _ => 0))).1 = 0x900000 := by decide +kernel
  exact Prod.ext hk rfl

/-- The memory with one address space. -/
theorem mediumPhys_newUser :
    pagingNewUser 0x900000 mediumPhys = (0x901000, (pagingNewUser 0x900000 mediumPhys).2) := by
  have hd : (pagingNewUser 0x900000 mediumPhys).1 = 0x901000 := by decide +kernel
  exact Prod.ext hd rfl

/-- Two address spaces, and a store by the first to its top page: the other one's is its own. -/
theorem pagingRun_isolated_twoSpaces : ∃ s, PagingRun 0x900000 mediumPhys s [0x907000, 0x901000] ∧
    walk true s.mem 0x901000 0x403FFFFF = some 0x906FFF ∧
    walk true s.mem 0x907000 0x403FFFFF = some 0x90CFFF ∧
    s.mem 0x906FFF = 0x55 ∧ s.mem 0x90CFFF = 0 ∧ Isolated 0x900000 s [0x907000, 0x901000] := by
  have hsecond : pagingNewUser 0x900000 (pagingNewUser 0x900000 mediumPhys).2
      = (0x907000, (pagingNewUser 0x900000 (pagingNewUser 0x900000 mediumPhys).2).2) :=
    Prod.ext (by decide +kernel) rfl
  have hw : walk true (pagingNewUser 0x900000 (pagingNewUser 0x900000 mediumPhys).2).2.mem 0x901000
      0x403FFFFF = some 0x906FFF := by decide +kernel
  have hrun := PagingRun.store 0x55 (PagingRun.newUser (PagingRun.newUser PagingRun.init
    mediumPhys_newUser) hsecond) (by decide) (by decide) hw
  exact ⟨_, hrun, by decide +kernel, by decide +kernel, by decide +kernel, by decide +kernel,
    pagingRun_isolated mediumPhys_init (by decide) hrun⟩

end OctoOS
