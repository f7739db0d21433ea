import OctoOS.Heap.Runs
import Mathlib.Data.List.Perm.Basic

set_option autoImplicit false

/-! # Heap calls that are interrupted

The shell runs with interrupts enabled, so the timer can switch to a user task between any two
header accesses of a `kmalloc` or `kfree` the shell has made. The system calls of user tasks run
with interrupts off: `SYS_OPEN` and `SYS_CLOSE` are single steps with whole heap calls in them.
Next to the heap the system carries the blocks handed out and not given back, and what the call of
the shell has still to do. The blocks stay apart in every run in which no heap call of a user task
falls between the header accesses of a call of the shell; `kmalloc_handsOutTwice` is a run in which
one does. -/

namespace OctoOS

open Atomic Tiling

/-! ## The system -/

/-- A block handed out: to the shell or to a user task, the pointer, and the payload asked for. -/
structure Grant where
  shell : Bool
  ptr : ℕ
  size : ℕ

/-- Two blocks, headers included, do not meet. -/
def Grant.Apart (a b : Grant) : Prop :=
  a.ptr + a.size + blockHeader ≤ b.ptr ∨ b.ptr + b.size + blockHeader ≤ a.ptr
  deriving Decidable

inductive HeapCall where
  | kmalloc (size : ℕ)
  | kfree (ptr : ℕ)

namespace HeapCall

/-- The header accesses of a call, with `heap_head` given. -/
def prog (head : ℕ) : HeapCall → Prog heapSig ℕ
  | .kmalloc size => kmallocProg head size
  | .kfree ptr => do
    kfreeProg head ptr
    return 0

/-- Sizes are 32 bits wide, and only what one holds is given back. -/
def Allowed (shell : Bool) (grants : List Grant) : HeapCall → Prop
  | .kmalloc size => size < 2 ^ 32
  | .kfree ptr => ptr = 0 ∨ ∃ g ∈ grants, g.shell = shell ∧ g.ptr = ptr

instance (shell : Bool) (grants : List Grant) (call : HeapCall) : Decidable (call.Allowed shell grants) := by
  cases call <;> unfold HeapCall.Allowed <;> infer_instance

/-- What is held once the call has been made. -/
def enter (shell : Bool) (grants : List Grant) : HeapCall → List Grant
  | .kmalloc _ => grants
  | .kfree ptr => grants.eraseP (fun g => g.shell = shell ∧ g.ptr = ptr)

/-- What is held once the call has returned `r`. -/
def leave (shell : Bool) (r : ℕ) (grants : List Grant) : HeapCall → List Grant
  | .kmalloc size => if r = 0 then grants else ⟨shell, r, alignUp size⟩ :: grants
  | .kfree _ => grants

end HeapCall

/-- A call of the shell under way: whether it made an access yet, and what it has still to do. -/
structure PendingCall where
  call : HeapCall
  begun : Bool
  rest : Prog heapSig ℕ

/-- The heap, the blocks handed out and the call the shell is in. -/
structure HeapSys where
  heap : Heap
  grants : List Grant
  shell : Option PendingCall

namespace HeapSys

/-- A call without accesses left returns. -/
def settle (s : HeapSys) : HeapSys :=
  match s.shell with
  | some ⟨call, _, .ret r⟩ => ⟨s.heap, call.leave true r s.grants, none⟩
  | _ => s

/-- The shell is between two header accesses of a call. -/
def Inside (s : HeapSys) : Prop := s.shell.any PendingCall.begun
  deriving Decidable

end HeapSys

/-- Whole heap calls of a user task, one after another. -/
def userCalls : List HeapCall → Heap → List Grant → Option (Heap × List Grant)
  | [], h, grants => some (h, grants)
  | call :: calls, h, grants =>
    if call.Allowed false grants then
      match (call.prog h.head).run heapHandler h.mem with
      | .ok (r, mem) =>
        userCalls calls { h with mem := mem } (call.leave false r (call.enter false grants))
      | .error _ => none
    else none

/-- What happens next. -/
inductive HeapEvent where
  /-- the shell makes a call -/
  | call (c : HeapCall)
  /-- one header access of the call the shell is in -/
  | access
  /-- the timer switches to a user task, which makes a system call with these heap calls -/
  | user (calls : List HeapCall)

/-- The state after an event, `none` for an event that cannot come here. -/
def HeapSys.next (s : HeapSys) : HeapEvent → Option HeapSys
  | .call c =>
    if s.shell.isNone ∧ c.Allowed true s.grants then
      some (settle ⟨s.heap, c.enter true s.grants, some ⟨c, false, c.prog s.heap.head⟩⟩)
    else none
  | .access =>
    match s.shell with
    | some ⟨c, _, .op o k⟩ =>
      match heapHandler o s.heap.mem with
      | .ok (r, mem) => some (settle ⟨{ s.heap with mem := mem }, s.grants, some ⟨c, true, k r⟩⟩)
      | .error _ => none
    | _ => none
  | .user calls =>
    (userCalls calls s.heap s.grants).map (fun r => ⟨r.1, r.2, s.shell⟩)

/-- The states reachable from a fresh heap by events with `ok`. -/
inductive HeapMix (ok : HeapSys → HeapEvent → Prop) (h0 : Heap) : HeapSys → Prop where
  | init : HeapMix ok h0 ⟨h0, [], none⟩
  | step {s s' : HeapSys} (e : HeapEvent) : HeapMix ok h0 s → ok s e → s.next e = some s' →
      HeapMix ok h0 s'

/-- The blocks handed out are apart, and between the calls of the shell the list tiles the
    region. -/
structure HeapSys.Sound (h0 : Heap) (s : HeapSys) : Prop where
  apart : s.grants.Pairwise Grant.Apart
  tiles : s.shell = none → ∃ l, Chained s.heap.mem s.heap.head l ∧
    Tiles blockHeader h0.head l (h0.head + h0.total)

/-- User tasks make no heap calls while the shell is inside one. -/
def CallsApart (s : HeapSys) : HeapEvent → Prop
  | .user calls => calls.isEmpty ∨ ¬ s.Inside
  | _ => True

/-! ## Blocks and the block list -/

/-- Different blocks were handed out, and they are used blocks of the list. -/
structure GrantsIn (l : List Blk) (grants : List Grant) : Prop where
  used : ∀ g ∈ grants, ∃ b ∈ usedOf l, g.ptr = b.addr + blockHeader ∧ g.size ≤ b.size
  distinct : grants.Pairwise (fun a b => a.ptr ≠ b.ptr)

/-- The blocks that a call is about to give back. -/
def HeapCall.Holds (held : List Grant) : HeapCall → Prop
  | .kmalloc _ => held = []
  | .kfree ptr => (ptr = 0 ∧ held = []) ∨ ∃ g, held = [g] ∧ g.ptr = ptr

section Grants

variable {h : Heap} {l : List Blk} {grants held extra : List Grant} {call : HeapCall}

theorem GrantsIn.perm {gs gs' : List Grant} (hg : GrantsIn l gs) (hp : gs.Perm gs') : GrantsIn l gs' where
  used g hg' := hg.used g (hp.mem_iff.2 hg')
  distinct := hg.distinct.perm hp (fun hne heq => hne heq.symm)

theorem GrantsIn.right {gs gs' : List Grant} (hg : GrantsIn l (gs ++ gs')) : GrantsIn l gs' where
  used g hg' := hg.used g (List.mem_append_right _ hg')
  distinct := (List.pairwise_append.1 hg.distinct).2.1

theorem GrantsIn.apart (hI : h.Inv l) (hg : GrantsIn l grants) : grants.Pairwise Grant.Apart := by
  refine hg.distinct.imp_of_mem (fun {a b} ha hb hne => ?_)
  obtain ⟨x, hx, hxa, hxs⟩ := hg.used a ha
  obtain ⟨y, hy, hyb, hys⟩ := hg.used b hb
  have hxy : x ≠ y := by
    rintro rfl
    exact hne (hxa.trans hyb.symm)
  have hdis := hI.tiles.disjoint (List.mem_filter.1 hx).1 (List.mem_filter.1 hy).1 hxy
  unfold Blk.fin at hdis
  unfold Grant.Apart
  omega

/-- Making a call sets aside what it gives back. -/
theorem GrantsIn.enter {shell : Bool} (hg : GrantsIn l (extra ++ grants))
    (ha : call.Allowed shell grants) :
    ∃ held, call.Holds held ∧ GrantsIn l (held ++ (extra ++ call.enter shell grants)) := by
  cases call with
  | kmalloc size => exact ⟨[], rfl, hg⟩
  | kfree ptr =>
    by_cases hex : ∃ g ∈ grants, g.shell = shell ∧ g.ptr = ptr
    · obtain ⟨g, hgm, hgp⟩ := hex
      obtain ⟨g', l1, l2, -, hg', heq, herase⟩ := List.exists_of_eraseP
        (p := fun g => decide (g.shell = shell ∧ g.ptr = ptr)) hgm (by simpa using hgp)
      have hptr : g'.ptr = ptr := (by simpa using hg' : g'.shell = shell ∧ g'.ptr = ptr).2
      refine ⟨[g'], Or.inr ⟨g', rfl, hptr⟩, hg.perm ?_⟩
      rw [HeapCall.enter, herase, heq, List.singleton_append]
      exact (List.perm_middle.append_left extra).trans List.perm_middle
    · -- the null pointer, which nobody holds
      have hz : ptr = 0 := ha.resolve_right hex
      refine ⟨[], Or.inl ⟨hz, rfl⟩, ?_⟩
      rw [HeapCall.enter, List.eraseP_of_forall_not]
      · exact hg
      · intro g hgm hgp
        exact hex ⟨g, hgm, by simpa using hgp⟩

/-- **A whole call keeps the blocks apart.** -/
theorem HeapCall.run_spec (hI : h.Inv l) (shell : Bool) (hh : call.Holds held)
    (hg : GrantsIn l (held ++ grants)) :
    ∃ r mem l', (call.prog h.head).run heapHandler h.mem = .ok (r, mem) ∧
      Heap.Inv { h with mem := mem } l' ∧ GrantsIn l' (call.leave shell r grants) := by
  cases call with
  | kmalloc size =>
    obtain rfl : held = [] := hh
    have hrun : ∀ {p mem}, h.kmalloc size = .ok (p, { h with mem := mem }) →
        (kmallocProg h.head size).run heapHandler h.mem = .ok (p, mem) := by
      intro p mem hk
      rw [Heap.kmalloc] at hk
      cases hr : (kmallocProg h.head size).run heapHandler h.mem with
      | error w => rw [hr] at hk; exact absurd hk (by simp [Except.map])
      | ok x =>
        rw [hr] at hk
        simp only [Except.map, Except.ok.injEq, Prod.mk.injEq, Heap.mk.injEq, true_and] at hk
        rw [← hk.1, ← hk.2]
    rcases Heap.kmalloc_spec hI size with ⟨-, a, l', m', hal, hres, hI'⟩ | ⟨-, hres⟩
    · refine ⟨_, m', l', hrun hres, hI', ?_⟩
      obtain ⟨n, hna, -, hns, ⟨f, hf, hfa, hfu⟩, hmem⟩ := alloc_used hal
      rw [HeapCall.leave, if_neg (by unfold blockHeader; omega)]
      refine ⟨fun g hgm => ?_, List.pairwise_cons.2 ⟨fun g hgm => ?_, hg.distinct⟩⟩
      · rcases List.mem_cons.1 hgm with rfl | hgm
        · exact ⟨n, (hmem n).2 (Or.inl rfl), by rw [hna], hns⟩
        · obtain ⟨b, hb, hba, hbs⟩ := hg.used g hgm
          exact ⟨b, (hmem b).2 (Or.inr hb), hba, hbs⟩
      · -- the block was free, so nobody held it
        obtain ⟨b, hb, hba, -⟩ := hg.used g hgm
        intro heq
        have hbf : b = f := hI.tiles.eq_of_addr_eq (by decide) (List.mem_filter.1 hb).1 hf (by
          simp only at heq
          omega)
        have hbu := (List.mem_filter.1 hb).2
        rw [hbf, hfu] at hbu
        cases hbu
    · exact ⟨0, h.mem, l, hrun hres, hI, by rw [HeapCall.leave, if_pos rfl]; exact hg⟩
  | kfree ptr =>
    have hrun : ∀ {mem}, h.kfree ptr = .ok { h with mem := mem } →
        (HeapCall.prog h.head (.kfree ptr)).run heapHandler h.mem = .ok (0, mem) := by
      intro mem hk
      rw [Heap.kfree] at hk
      rw [HeapCall.prog, Prog.run_bind]
      cases hr : (kfreeProg h.head ptr).run heapHandler h.mem with
      | error w => rw [hr] at hk; exact absurd hk (by simp [Except.map])
      | ok x =>
        rw [hr] at hk
        simp only [Except.map, Except.ok.injEq, Heap.mk.injEq, true_and] at hk
        rw [← hk]
        rfl
    rcases hh with ⟨rfl, rfl⟩ | ⟨g, rfl, rfl⟩
    · exact ⟨0, h.mem, l, hrun (Heap.kfree_null h), hI, hg⟩
    · obtain ⟨b, hb, hba, -⟩ := hg.used g (by simp)
      obtain ⟨m', hres, hI'⟩ := Heap.kfree_spec hI hb
      rw [← hba] at hres
      refine ⟨0, m', _, hrun hres, hI', fun x hx => ?_, hg.right.distinct⟩
      obtain ⟨c, hc, hca, hcs⟩ := hg.used x (List.mem_append_right _ hx)
      have hne : g.ptr ≠ x.ptr := (List.pairwise_append.1 hg.distinct).2.2 g (by simp) x hx
      refine ⟨c, ?_, hca, hcs⟩
      rw [usedOf_coalesce]
      exact mem_usedOf_release.2 ⟨hc, by omega⟩

theorem HeapCall.leave_append (shell : Bool) (r : ℕ) (extra grants : List Grant) :
    (call.leave shell r (extra ++ grants)).Perm (extra ++ call.leave shell r grants) := by
  cases call with
  | kmalloc size =>
    rw [HeapCall.leave, HeapCall.leave]
    split_ifs
    · exact List.Perm.refl _
    · exact List.perm_middle.symm
  | kfree ptr => exact List.Perm.refl _

/-- The calls of a user task, while `extra` is held by others. -/
theorem userCalls_spec {r : Heap × List Grant} {calls : List HeapCall}
    (hu : userCalls calls h grants = some r) (hI : h.Inv l) (hg : GrantsIn l (extra ++ grants)) :
    ∃ l', r.1.Inv l' ∧ r.1.head = h.head ∧ r.1.total = h.total ∧ GrantsIn l' (extra ++ r.2) := by
  induction calls generalizing h l grants with
  | nil =>
    cases hu
    exact ⟨l, hI, rfl, rfl, hg⟩
  | cons call calls ih =>
    rw [userCalls] at hu
    split_ifs at hu with ha
    obtain ⟨held, hh, hg'⟩ := hg.enter ha
    obtain ⟨r', mem', l', hrun, hI', hleave⟩ := HeapCall.run_spec hI false hh hg'
    rw [hrun] at hu
    obtain ⟨l'', hI'', hhead, htotal, hg''⟩ :=
      ih hu hI' (hleave.perm (HeapCall.leave_append false _ extra _))
    exact ⟨l'', hI'', hhead, htotal, hg''⟩

end Grants

/-! ## Runs -/

/-- What a call under way still does to the heap is what the whole call does to the memory `mem0`
    it started from. -/
structure PendingCall.Resumes (p : PendingCall) (head : ℕ) (mem0 mem : HeapMem) : Prop where
  run : p.rest.run heapHandler mem = (p.call.prog head).run heapHandler mem0
  fresh : p.begun = false → mem = mem0 ∧ p.rest = p.call.prog head

/-- The invariant of the system: the heap is sound where the call under way, if any, started. -/
structure HeapSys.Inv (h0 : Heap) (s : HeapSys) (mem0 : HeapMem) (l : List Blk) (held : List Grant) :
    Prop where
  heap : Heap.Inv { s.heap with mem := mem0 } l
  region : s.heap.head = h0.head ∧ s.heap.total = h0.total
  grants : GrantsIn l (held ++ s.grants)
  idle : s.shell = none → mem0 = s.heap.mem
  busy : ∀ p, s.shell = some p → p.call.Holds held ∧ p.Resumes s.heap.head mem0 s.heap.mem

section Runs

variable {h0 : Heap} {s s' : HeapSys} {mem0 : HeapMem} {l : List Blk} {held : List Grant}

/-- A call that returns. -/
theorem HeapSys.Inv.settle (hi : s.Inv h0 mem0 l held) : ∃ m l' held', s.settle.Inv h0 m l' held' := by
  obtain ⟨heap, grants, shell⟩ := s
  cases shell with
  | none => exact ⟨mem0, l, held, hi⟩
  | some p =>
    obtain ⟨call, begun, rest⟩ := p
    cases rest with
    | ret r =>
      obtain ⟨hh, hres⟩ := hi.busy _ rfl
      obtain ⟨r', mem', l', hrun, hI', hleave⟩ := HeapCall.run_spec hi.heap true hh hi.grants
      have heq := hres.run.trans hrun
      cases heq
      exact ⟨heap.mem, l', [], hI', hi.region, hleave, fun _ => rfl,
        fun p hp => absurd hp (by simp [HeapSys.settle])⟩
    | stop w => exact ⟨mem0, l, held, hi⟩
    | op o k => exact ⟨mem0, l, held, hi⟩

theorem HeapSys.Inv.next (hi : s.Inv h0 mem0 l held) {e : HeapEvent} (hok : CallsApart s e)
    (hnext : s.next e = some s') : ∃ m l' held', s'.Inv h0 m l' held' := by
  cases e with
  | call c =>
    rw [HeapSys.next] at hnext
    split_ifs at hnext with hc
    cases hnext
    obtain ⟨held', hh, hg⟩ := @GrantsIn.enter _ _ [] _ _ (GrantsIn.right hi.grants) hc.2
    have hmem := hi.idle (Option.isNone_iff_eq_none.1 hc.1)
    subst hmem
    refine HeapSys.Inv.settle ⟨hi.heap, hi.region, hg, fun h => absurd h (by simp), fun p hp => ?_⟩
    cases hp
    exact ⟨hh, rfl, fun _ => ⟨rfl, rfl⟩⟩
  | access =>
    obtain ⟨heap, grants, shell⟩ := s
    rw [HeapSys.next] at hnext
    split at hnext
    · rename_i c begun o k hshell
      obtain ⟨hh, hres⟩ := hi.busy _ hshell
      split at hnext
      · rename_i r mem hop
        cases hnext
        refine HeapSys.Inv.settle ⟨hi.heap, hi.region, hi.grants, fun h => absurd h (by simp),
          fun q hq => ?_⟩
        cases hq
        have hrun : (k r).run heapHandler mem = (c.prog heap.head).run heapHandler mem0 := by
          rw [← hres.run]
          simp only [Prog.run, hop]
        exact ⟨hh, hrun, fun h => absurd h (by simp)⟩
      · cases hnext
    · cases hnext
  | user calls =>
    obtain ⟨r, hu, rfl⟩ := Option.map_eq_some_iff.1 hnext
    rcases hok with hnil | hquiet
    · obtain rfl := List.isEmpty_iff.1 hnil
      cases hu
      exact ⟨mem0, l, held, hi⟩
    -- the heap is where the next call of the shell starts
    have hbegun : ∀ p, s.shell = some p → p.begun = false := by
      intro p hp
      unfold HeapSys.Inside at hquiet
      rw [hp] at hquiet
      simpa using hquiet
    have hmem : mem0 = s.heap.mem := by
      cases hsh : s.shell with
      | none => exact hi.idle hsh
      | some p => exact ((hi.busy p hsh).2.fresh (hbegun p hsh)).1.symm
    subst hmem
    obtain ⟨l', hI', hhead, htotal, hg'⟩ := userCalls_spec hu hi.heap hi.grants
    refine ⟨r.1.mem, l', held, hI', ⟨hhead.trans hi.region.1, htotal.trans hi.region.2⟩, hg',
      fun _ => rfl, fun p hp => ?_⟩
    obtain ⟨hh, hres⟩ := hi.busy p hp
    obtain ⟨-, hrest⟩ := hres.fresh (hbegun p hp)
    rw [← hhead] at hrest
    exact ⟨hh, by rw [hrest], fun _ => ⟨rfl, hrest⟩⟩

/-- **CallsApart calls keep the heap sound.** -/
theorem heapMix_sound {map : List E820Entry} {mem : HeapMem} (hinit : heapInit map mem = h0)
    (hhead : h0.head ≠ 0) (hsize : blockHeader ≤ h0.total) (hwrap : h0.head + h0.total < 2 ^ 32)
    (hmix : HeapMix CallsApart h0 s) : s.Sound h0 := by
  have hinv : ∃ m l held, s.Inv h0 m l held := by
    induction hmix with
    | init =>
      exact ⟨h0.mem, _, [], heapInit_inv hinit hhead hsize hwrap, ⟨rfl, rfl⟩, ⟨by simp, by simp⟩,
        fun _ => rfl, fun p hp => absurd hp (by simp)⟩
    | step e _ hok hnext ih =>
      obtain ⟨m, l, held, hi⟩ := ih
      exact hi.next hok hnext
  obtain ⟨m, l, held, hi⟩ := hinv
  refine ⟨hi.grants.right.apart hi.heap, fun hnone => ⟨l, ?_, ?_⟩⟩
  · rw [← hi.idle hnone]
    exact hi.heap.chained
  · have := hi.heap.tiles
    rwa [hi.region.1, hi.region.2] at this

end Runs

/-! ## Two runs -/

/-- The events one after another, each with `ok`. -/
def HeapSys.exec (ok : HeapSys → HeapEvent → Prop) [∀ s e, Decidable (ok s e)] :
    List HeapEvent → HeapSys → Option HeapSys
  | [], s => some s
  | e :: es, s => if ok s e then (s.next e).bind (exec ok es) else none

theorem HeapMix.exec {ok : HeapSys → HeapEvent → Prop} [∀ s e, Decidable (ok s e)] {h0 : Heap}
    {es : List HeapEvent} {s s' : HeapSys} (hm : HeapMix ok h0 s) (hrun : s.exec ok es = some s') :
    HeapMix ok h0 s' := by
  induction es generalizing s with
  | nil =>
    cases hrun
    exact hm
  | cons e es ih =>
    rw [HeapSys.exec] at hrun
    split_ifs at hrun with hok
    obtain ⟨s1, hnext, hrest⟩ := Option.bind_eq_some_iff.1 hrun
    exact ih (hm.step e hok hnext) hrest

instance (s : HeapSys) (e : HeapEvent) : Decidable (CallsApart s e) := by
  cases e <;> unfold CallsApart <;> infer_instance

/-- A fresh heap of 4 KiB. -/
def smallHeap : HeapSys := ⟨heapInit smallMap (fun _ => 0), [], none⟩

/-- A user task allocates while the shell is about to; the shell gets the next block. -/
theorem heapMix_sound_smallHeap : ∃ s, HeapMix CallsApart (heapInit smallMap (fun _ => 0)) s ∧
    s.grants.map Grant.ptr = [0x100028, 0x10000C] ∧ s.Sound (heapInit smallMap (fun _ => 0)) := by
  have hrun : (smallHeap.exec CallsApart ([.call (.kmalloc 16), .user [.kmalloc 16]] ++
      List.replicate 13 .access)).map (fun s => s.grants.map Grant.ptr)
        = some [0x100028, 0x10000C] := by decide +kernel
  obtain ⟨s, hs, hptrs⟩ := Option.map_eq_some_iff.1 hrun
  have hmix := HeapMix.exec HeapMix.init hs
  exact ⟨s, hmix, hptrs, heapMix_sound rfl (by decide) (by decide) (by decide) hmix⟩

/-- The shell has seen that the first block is free and large enough when a user task takes it;
    then it takes the block, too. -/
theorem kmalloc_handsOutTwice : ∃ s, HeapMix (fun _ _ => True) (heapInit smallMap (fun _ => 0)) s ∧
    s.grants.map Grant.ptr = [0x10000C, 0x10000C] ∧ ¬ s.grants.Pairwise Grant.Apart := by
  have hrun : (smallHeap.exec (fun _ _ => True) [.call (.kmalloc 16), .access, .access,
      .user [.kmalloc 16], .access, .access]).map
        (fun s => (s.grants.map Grant.ptr, decide (s.grants.Pairwise Grant.Apart)))
        = some ([0x10000C, 0x10000C], false) := by decide +kernel
  obtain ⟨s, hs, heq⟩ := Option.map_eq_some_iff.1 hrun
  obtain ⟨hptrs, hapart⟩ := Prod.mk.inj heq
  exact ⟨s, HeapMix.exec HeapMix.init hs, hptrs, of_decide_eq_false hapart⟩

end OctoOS
