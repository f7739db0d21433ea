import OctoOS.Fat.Read
import OctoOS.Fat.Calls

set_option autoImplicit false

/-! # The driver and the heap, on any volume

What `fat_read_file` and `fat_write_file` do to the heap whatever the disk holds and the device
does: they give back every buffer they take, except for the one that `fat_read_file` returns, and
they never store outside a block. The walks over directories and chains touch no heap at all,
which is said once for the steps they are made of. A walk that starts at the root does not look at
the working directory either. -/

namespace OctoOS

open Atomic Tiling

/-! ## Steps that touch neither the heap nor the working directory -/

def FatOp.Plain : FatOp → Prop
  | .ataRead _ | .ataWrite _ | .ataWriteFrom _ _ _ | .bufLoad | .bufStore _ _ | .print _ => True
  | _ => False

/-- Steps that leave the heap and the working directory as they are. -/
def FatOp.Idle : FatOp → Prop
  | .getCwdCluster => True
  | .getCwdPath => True
  | o => o.Plain

/-- Steps that do not depend on the cluster of the working directory. -/
def FatOp.NoCwd : FatOp → Prop
  | .getCwdCluster => False
  | .setCwdCluster _ => False
  | _ => True

variable {o : FatOp}

theorem FatOp.Looks.plain (h : o.Looks) : o.Plain := by
  cases o <;> first | exact h | trivial

theorem FatOp.Reads.idle (h : o.Reads) : o.Idle := by
  cases o <;> first | exact h | trivial

theorem FatOp.Plain.idle (h : o.Plain) : o.Idle := by
  cases o <;> first | exact h | trivial

theorem FatOp.Plain.noCwd (h : o.Plain) : o.NoCwd := by
  cases o <;> trivial

section Walks

variable {fs : Fs}

/-- A walk whose body only looks at the entry. -/
theorem dirWhile_looks {β : Type} (f : Dirent → Loc → Option β) (fuel : ℕ) (it : DirIter) :
    (dirWhile fs (fun d l => return f d l) fuel it).Only FatOp.Looks := by
  induction fuel generalizing it with
  | zero => rfl
  | succ fuel ih =>
    rw [dirWhile]
    refine (dirNext_looks it).bind (fun r => ?_)
    cases r with
    | none => exact Prog.Only.pure _
    | some x =>
      refine (Prog.Only.pure _).bind (fun y => ?_)
      cases y with
      | none => exact ih _
      | some z => exact Prog.Only.pure _

theorem dirFind_looks (d : UInt16) (name : Name83) : (dirFind fs d name).Only FatOp.Looks := by
  unfold dirFind
  exact Prog.Only.ite (Prog.Only.pure _) ((dirWhile_looks _ _ _).bind (fun _ => Prog.Only.pure _))

theorem dirFreeSlot_looks (d : UInt16) : (dirFreeSlot fs d).Only FatOp.Looks := dirWhile_looks _ _ _

theorem resolveLoop_looks (parentOf : Bool) (comps : List Bytes) (out : Dirent) (loc : Loc) :
    (resolveLoop fs parentOf comps out loc).Only FatOp.Looks := by
  induction comps generalizing out loc with
  | nil => exact Prog.Only.pure _
  | cons comp rest ih =>
    rw [resolveLoop]
    cases to83 comp with
    | none => exact Prog.Only.pure _
    | some name =>
      refine Prog.Only.ite (Prog.Only.pure _) (Prog.Only.ite (Prog.Only.pure _) ?_)
      refine (dirFind_looks _ _).bind (fun r => ?_)
      cases r with
      | none => exact Prog.Only.pure _
      | some x => exact ih _ _

theorem resolve_reads (parentOf : Bool) (path : Bytes) (loc : Loc) :
    (resolve fs parentOf path loc).Only FatOp.Reads :=
  Prog.Only.bind (Prog.Only.perform trivial)
    (fun _ => (resolveLoop_looks _ _ _ _).mono (fun _ => FatOp.Looks.reads))

theorem parentOf_reads (path : Bytes) : (parentOf fs path).Only FatOp.Reads := by
  unfold parentOf
  refine (resolve_reads _ _ _).bind (fun r => ?_)
  cases r with
  | none => exact Prog.Only.pure _
  | some x => exact Prog.Only.ite (Prog.Only.pure _) (Prog.Only.pure _)

theorem ataRead_plain (lba : ℕ) : (ataRead lba).Only FatOp.Plain := ⟨trivial, fun _ => trivial⟩

theorem ataWrite_plain (lba : ℕ) : (ataWrite lba).Only FatOp.Plain := ⟨trivial, fun _ => trivial⟩

theorem bufStore_plain (off : ℕ) (data : Bytes) : (bufStore off data).Only FatOp.Plain :=
  ⟨trivial, fun _ => trivial⟩

theorem print_plain (text : Bytes) : (print text).Only FatOp.Plain := ⟨trivial, fun _ => trivial⟩

theorem fatGet_plain (c : UInt16) : (fatGet fs c).Only FatOp.Plain :=
  (fatGet_looks c).mono (fun _ => FatOp.Looks.plain)

theorem fatSet_plain (c x : UInt16) : (fatSet fs c x).Only FatOp.Plain := by
  unfold fatSet
  generalize fs.numFats = n
  generalize 0 = f
  induction n generalizing f with
  | zero => trivial
  | succ n ih =>
    rw [fatSetLoop]
    refine (ataRead_plain _).bind (fun b => Prog.Only.ite ?_ (Prog.Only.pure _))
    refine (bufStore_plain _ _).bind (fun _ => (bufStore_plain _ _).bind (fun _ => ?_))
    exact (ataWrite_plain _).bind (fun b => Prog.Only.ite (ih _) (Prog.Only.pure _))

theorem clusterAlloc_plain : (clusterAlloc fs).Only FatOp.Plain := by
  unfold clusterAlloc
  generalize clusterLoopBound = fuel
  generalize (2 : UInt16) = c
  induction fuel generalizing c with
  | zero => rfl
  | succ fuel ih =>
    rw [clusterAllocLoop]
    refine Prog.Only.ite ((fatGet_plain _).bind (fun x => Prog.Only.ite ?_ (ih _))) (Prog.Only.pure _)
    exact (fatSet_plain _ _).bind (fun b => Prog.Only.ite (Prog.Only.pure _) (Prog.Only.pure _))

theorem chainFree_plain (c : UInt16) : (chainFree fs c).Only FatOp.Plain := by
  unfold chainFree
  generalize clusterLoopBound = fuel
  induction fuel generalizing c with
  | zero => rfl
  | succ fuel ih =>
    rw [chainFreeLoop]
    refine Prog.Only.ite ?_ (Prog.Only.pure _)
    exact (fatGet_plain _).bind (fun next => (fatSet_plain _ _).bind (fun _ => ih _))

theorem dirFind_plain (d : UInt16) (name : Name83) : (dirFind fs d name).Only FatOp.Plain :=
  (dirFind_looks d name).mono (fun _ => FatOp.Looks.plain)

theorem dirFreeSlot_plain (d : UInt16) : (dirFreeSlot fs d).Only FatOp.Plain :=
  (dirFreeSlot_looks d).mono (fun _ => FatOp.Looks.plain)

theorem locUpdate_plain (l : Loc) (d : Dirent) : (locUpdate l d).Only FatOp.Plain := by
  unfold locUpdate
  refine (ataRead_plain _).bind (fun b => Prog.Only.ite ?_ (Prog.Only.pure _))
  exact (bufStore_plain _ _).bind (fun _ => ataWrite_plain _)

theorem lookupFile_idle (path : Bytes) : (lookupFile fs path).Only FatOp.Idle := by
  have hprint : ∀ text, (print text).Only FatOp.Idle := fun text => ⟨trivial, fun _ => trivial⟩
  unfold lookupFile
  refine Prog.Only.ite ((hprint _).bind (fun _ => Prog.Only.pure _))
    (((resolve_reads _ _ _).mono (fun _ => FatOp.Reads.idle)).bind (fun r => ?_))
  cases r with
  | none => exact (hprint _).bind (fun _ => Prog.Only.pure _)
  | some x => exact Prog.Only.ite ((hprint _).bind (fun _ => Prog.Only.pure _)) (Prog.Only.pure _)

end Walks

section Runs

variable {fs : Fs} {fails : Faults} {st : FatState} {l : List Blk} {α : Type} {b : Blk}
  {p : Fat α}

theorem FatOp.Idle.step {o : FatOp} (ho : o.Idle) (st : FatState) :
    ∃ r st', fatHandler fails o st = .ok (r, st') ∧ st'.heap = st.heap ∧ st'.cwdPath = st.cwdPath := by
  cases o with
  | ataRead _ | ataWrite _ =>
    simp only [fatHandler]
    split_ifs
    · exact ⟨_, _, rfl, rfl, rfl⟩
    · exact ⟨_, _, rfl, rfl, rfl⟩
  | ataReadTo _ _ _ | kmalloc _ | kfree _ | heapStore _ _ _ | setCwdCluster _ | setCwdPath _ =>
    exact ho.elim
  | _ => exact ⟨_, _, rfl, rfl, rfl⟩

/-- A program of idle steps leaves the heap and the text of the working directory alone. -/
theorem keeps_of_idle (hp : p.Only FatOp.Idle) (st : FatState) :
    p.Defined (fatHandler fails) st
      (fun _ st' => st'.heap = st.heap ∧ st'.cwdPath = st.cwdPath) := by
  refine hp.defined (fun _ => ⟨rfl, rfl⟩) ?_ (fun o s ho => FatOp.Idle.step ho s) st
  exact fun h1 h2 => ⟨h2.1.trans h1.1, h2.2.trans h1.2⟩

theorem keepsHeap_of_idle (hp : p.Only FatOp.Idle) (hl : st.heap.blocks = some l) :
    p.Defined (fatHandler fails) st (fun _ st' => st'.heap.blocks = some l) := by
  refine (keeps_of_idle hp st).mono (fun _ st' h => ?_)
  rw [h.1, hl]

theorem keepsHeap_of_plain (hp : p.Only FatOp.Plain) (hl : st.heap.blocks = some l) :
    p.Defined (fatHandler fails) st (fun _ st' => st'.heap.blocks = some l) :=
  keepsHeap_of_idle (hp.mono (fun _ => FatOp.Plain.idle)) hl

/-! ## Heap steps -/

theorem kmalloc_defined (hl : st.heap.blocks = some l) (size : ℕ) :
    (kmalloc size).Defined (fatHandler fails) st (fun p st' =>
      p = (kmallocBlocks size l).1 ∧ st'.heap.blocks = some (kmallocBlocks size l).2) := by
  obtain ⟨h', hres, hb⟩ := Heap.kmalloc_blocks hl size
  have hstep : fatHandler fails (.kmalloc size) st
      = .ok ((kmallocBlocks size l).1, { st with heap := h' }) := by
    simp only [fatHandler, hres]
  exact Prog.Defined.perform hstep ⟨rfl, hb⟩

section

variable {b : Blk} (hl : st.heap.blocks = some l) (hb : b ∈ usedOf l)

include hl hb

theorem kfree_defined :
    (kfree (b.addr + blockHeader)).Defined (fatHandler fails) st (fun _ st' =>
      st'.heap.blocks = some (coalesce blockHeader (release b.addr l))) := by
  obtain ⟨h', hres, hb'⟩ := Heap.kfree_blocks hl hb
  have hstep : fatHandler fails (.kfree (b.addr + blockHeader)) st
      = .ok ((), { st with heap := h' }) := by
    simp only [fatHandler, hres]
  exact Prog.Defined.perform hstep hb'

theorem heapStore_defined {off len : ℕ} (hfit : off + len ≤ b.size) :
    (heapStore (b.addr + blockHeader) off len).Defined (fatHandler fails) st (fun _ st' =>
      st'.heap.blocks = some l) := by
  have hstep : fatHandler fails (.heapStore (b.addr + blockHeader) off len) st = .ok ((), st) := by
    simp only [fatHandler, Heap.payload_eq hl (List.mem_filter.1 hb).1, if_neg (not_lt.2 hfit)]
  exact Prog.Defined.perform hstep hl

theorem ataReadTo_defined {lba count : ℕ} (hfit : count * sectorSize ≤ b.size) :
    (ataReadTo lba count (b.addr + blockHeader)).Defined (fatHandler fails) st (fun _ st' =>
      st'.heap.blocks = some l) := by
  have hstep : fatHandler fails (.ataReadTo lba count (b.addr + blockHeader)) st
      = .ok ((readSectors fails st.disk count st.ataCount lba).1,
        { st with ataCount := (readSectors fails st.disk count st.ataCount lba).2 }) := by
    simp only [fatHandler, Heap.payload_eq hl (List.mem_filter.1 hb).1, if_neg (not_lt.2 hfit)]
  exact Prog.Defined.perform hstep hl

end

/-- The block of a transfer buffer holds a cluster. -/
theorem clusterBytes_le_alignUp (hspc : fs.sectorsPerCluster < 256) :
    w32 (fs.sectorsPerCluster * sectorSize) = fs.sectorsPerCluster * sectorSize ∧
      fs.sectorsPerCluster * sectorSize ≤ alignUp (w32 (fs.sectorsPerCluster * sectorSize)) := by
  have hw : w32 (fs.sectorsPerCluster * sectorSize) = fs.sectorsPerCluster * sectorSize :=
    w32_eq (by unfold sectorSize; omega)
  refine ⟨hw, ?_⟩
  rw [hw]
  exact alignUp_ge (by unfold sectorSize; omega)

/-! ## `fat_read_file` -/

/-- The loop of `file_stream`. `P arg n` is what the callback needs when `n` bytes are to come. -/
theorem fileStreamLoop_defined {γ : Type} {fn : γ → Bytes → Fat γ} {P : γ → ℕ → Prop}
    (hb : b ∈ usedOf l) (hfit : fs.sectorsPerCluster * sectorSize ≤ b.size)
    (hfn : ∀ arg n k chunk st, P arg n → chunk.length ≤ k → k ≤ n → st.heap.blocks = some l →
      (fn arg chunk).Defined (fatHandler fails) st (fun arg' st' =>
        st'.heap.blocks = some l ∧ P arg' (n - k))) (fuel n : ℕ) (c : UInt16) {arg : γ}
    (hP : P arg n) (hl : st.heap.blocks = some l) :
    (fileStreamLoop fs fn (b.addr + blockHeader) fuel n c arg).Defined (fatHandler fails) st
      (fun r st' => st'.heap.blocks = some (coalesce blockHeader (release b.addr l)) ∧
        ∀ arg', r = some arg' → P arg' 0) := by
  induction fuel generalizing n c arg st with
  | zero => exact Prog.Defined.diverges
  | succ fuel ih =>
    rw [fileStreamLoop]
    simp only
    by_cases hgo : n ≠ 0 ∧ 2 ≤ c ∧ ¬ isEoc c
    · rw [if_pos hgo]
      refine (ataReadTo_defined hl hb hfit).bind (fun r st1 h1 => ?_)
      cases r with
      | none =>
        refine (kfree_defined h1 hb).bind (fun _ st2 h2 => Prog.Defined.pure ⟨h2, ?_⟩)
        intro arg' h
        cases h
      | some data =>
        refine (hfn arg n _ _ st1 hP (List.length_take_le _ _) ?_ h1).bind (fun arg' st2 h2 => ?_)
        · split_ifs <;> omega
        · exact (keepsHeap_of_plain (fatGet_plain c) h2.1).bind (fun next st3 h3 => ih _ _ h2.2 h3)
    · rw [if_neg hgo]
      refine (kfree_defined hl hb).bind (fun _ st2 h2 => Prog.Defined.pure ⟨h2, ?_⟩)
      intro arg' h
      by_cases hn : n = 0
      · rw [if_pos hn] at h
        cases h
        rw [hn] at hP
        exact hP
      · rw [if_neg hn] at h
        cases h

/-- `file_stream` gives its transfer buffer back. -/
theorem fileStream_defined (hspc : fs.sectorsPerCluster < 256) {γ : Type} {fn : γ → Bytes → Fat γ}
    {P : γ → ℕ → Prop}
    (hfn : ∀ l' : List Blk, (∀ c ∈ usedOf l, c ∈ usedOf l') → ∀ arg n k chunk st, P arg n →
      chunk.length ≤ k → k ≤ n → st.heap.blocks = some l' →
      (fn arg chunk).Defined (fatHandler fails) st (fun arg' st' =>
        st'.heap.blocks = some l' ∧ P arg' (n - k)))
    (d : Dirent) {arg : γ} (hP : P arg d.size.toNat) (hl : st.heap.blocks = some l) :
    (fileStream fs d fn arg).Defined (fatHandler fails) st (fun r st' =>
      st'.heap.blocks = some l ∧ ∀ arg', r = some arg' → P arg' 0) := by
  unfold fileStream
  refine (kmalloc_defined hl _).bind (fun buf st1 h1 => ?_)
  obtain ⟨rfl, h1⟩ := h1
  by_cases hbuf : (kmallocBlocks (w32 (fs.sectorsPerCluster * sectorSize)) l).1 = 0
  · rw [if_pos hbuf]
    rw [kmallocBlocks_null hbuf] at h1
    refine Prog.Defined.pure ⟨h1, fun arg' h => ?_⟩
    cases h
  · rw [if_neg hbuf]
    obtain ⟨b, hptr, hsize, hg⟩ := kmallocBlocks_granted (Heap.blockList_of_blocks hl) hbuf
    rw [hptr]
    refine (fileStreamLoop_defined hg.mem (le_trans (clusterBytes_le_alignUp hspc).2 hsize)
      (hfn _ (fun c hc => (hg.used c).2 (Or.inr hc))) _ _ _ hP h1).mono (fun r st2 h2 => ?_)
    rw [hg.back] at h2
    exact h2

/-- **`fat_read_file` on any volume**: it gives back what it takes, and the buffer it returns is a
    block of its own that holds the bytes. The size in the entry is one that `kmalloc` can round
    up. -/
theorem fatReadFile_defined (hspc : fs.sectorsPerCluster < 256) {path : Bytes}
    (hsize : ∀ d st', (lookupFile fs path).run (fatHandler fails) st = .ok (some d, st') →
      d.size.toNat + 7 < 2 ^ 32 ∨ ∀ b ∈ l, b.used = true)
    (hl : st.heap.blocks = some l) :
    (fatReadFile fs path).Defined (fatHandler fails) st (fun r st' =>
      match r with
      | none => st'.heap.blocks = some l
      | some (buf, data) => ∃ b l', st'.heap.blocks = some l' ∧ buf = b.addr + blockHeader ∧
          data.length ≤ b.size ∧ Granted l b l') := by
  unfold fatReadFile
  refine ((keepsHeap_of_idle (lookupFile_idle path) hl).and_run
    (R := fun r _ => ∀ d, r = some d → d.size.toNat + 7 < 2 ^ 32 ∨ ∀ b ∈ l, b.used = true)
    ?_).bind (fun r st1 h1 => ?_)
  · rintro r st' hrun d rfl
    exact hsize d st' hrun
  obtain ⟨h1, hd⟩ := h1
  cases r with
  | none => exact Prog.Defined.pure h1
  | some d =>
    simp only
    refine (kmalloc_defined h1 _).bind (fun buf st2 h2 => ?_)
    obtain ⟨rfl, h2⟩ := h2
    by_cases hbuf : (kmallocBlocks (if d.size = 0 then 1 else d.size.toNat) l).1 = 0
    · rw [if_pos hbuf]
      rw [kmallocBlocks_null hbuf] at h2
      exact (keepsHeap_of_plain (print_plain _) h2).bind (fun _ st3 h3 => Prog.Defined.pure h3)
    · rw [if_neg hbuf]
      obtain ⟨b, hptr, hbs, hg⟩ := kmallocBlocks_granted (Heap.blockList_of_blocks h1) hbuf
      have hfit : d.size.toNat ≤ b.size := by
        have hlt := (hd d rfl).resolve_right (fun hfull => hbuf (kmallocBlocks_full hfull _))
        refine le_trans ?_ (le_trans (alignUp_ge ?_) hbs)
        · split_ifs with hz
          · simp [hz]
          · exact le_refl _
        · split_ifs <;> omega
      rw [hptr]
      -- what was copied and what is to come fit into the block
      refine (fileStream_defined hspc (P := fun copied n => copied.length + n ≤ b.size) ?_ d
        (by simpa using hfit : ([] : Bytes).length + _ ≤ b.size) h2).bind (fun r st3 h3 => ?_)
      · intro l' hsub copied n k chunk st hP hk hn hl'
        unfold streamCopy
        refine (heapStore_defined hl' (hsub b hg.mem) (by omega)).bind (fun _ st' h' => ?_)
        exact Prog.Defined.pure ⟨h', by rw [List.length_append]; omega⟩
      · cases r with
        | none =>
          refine (keepsHeap_of_plain (print_plain _) h3.1).bind (fun _ st4 h4 => ?_)
          refine (kfree_defined h4 hg.mem).bind (fun _ st5 h5 => Prog.Defined.pure ?_)
          rw [hg.back] at h5
          exact h5
        | some data => exact Prog.Defined.pure ⟨b, _, h3.1, rfl, by simpa using h3.2 data rfl, hg⟩

/-! ## Sizes that wrap around

Seven sizes just below 4 GiB are rounded up to 0. -/

/-- A pointer from `kmalloc` heads a block of at least `size` bytes inside the heap. -/
def Heap.PayloadFits (h : Heap) (size : ℕ) : Prop :=
  ∀ p h', h.kmalloc size = .ok (p, h') → p ≠ 0 → 0 < size ∧ ∃ l' b, h'.blocks = some l' ∧
    b ∈ usedOf l' ∧ p = b.addr + blockHeader ∧ size ≤ b.size ∧ h.head ≤ b.addr ∧
    b.addr + blockHeader + b.size ≤ h.head + h.total

/-- **What `kmalloc` returns is large enough**, and `fat_read_file` stays inside it, if and only if
    the size can be rounded up or there is no free block anyway. -/
theorem kmalloc_payload_iff {h : Heap} (hl : h.blocks = some l) {size : ℕ} (h32 : size < 2 ^ 32) :
    (h.PayloadFits size ∧ ∀ (fs : Fs) (fails : Faults) (st : FatState) (path : Bytes),
      fs.sectorsPerCluster < 256 → st.heap = h →
      (∀ d st', (lookupFile fs path).run (fatHandler fails) st = .ok (some d, st') →
        d.size.toNat = size) →
      (fatReadFile fs path).run (fatHandler fails) st ≠ .error .undefined) ↔
      (size ≤ 0xFFFFFFF8 ∨ ∀ b ∈ l, b.used = true) := by
  constructor
  · rintro ⟨hfits, -⟩
    by_contra hno
    rw [not_or, not_le] at hno
    obtain ⟨hbig, hfree⟩ := hno
    push Not at hfree
    obtain ⟨b, hb, hu⟩ := hfree
    obtain ⟨h', hres, hl'⟩ := Heap.kmalloc_blocks hl size
    have hne : (kmallocBlocks size l).1 ≠ 0 := kmallocBlocks_wraps hbig h32 hb (by simpa using hu)
    obtain ⟨-, l', c, hl'', hc, -, hsize, -⟩ := hfits _ h' hres hne
    have hI := Heap.inv_of_blocks hl'' (List.ne_nil_of_mem (List.mem_filter.1 hc).1)
    have := (hI.tiles.mem_bounds (List.mem_filter.1 hc).1)
    have := hI.noWrap
    have := hI.small
    unfold Blk.fin heapMaxSize at *
    omega
  · intro hcond
    refine ⟨fun p h' hres hne => ?_, fun fs fails st path hspc hheap hsize => ?_⟩
    · obtain ⟨h'', hres', hl'⟩ := Heap.kmalloc_blocks hl size
      rw [hres'] at hres
      cases hres
      have hlt := hcond.resolve_right (fun hfull => hne (kmallocBlocks_full hfull _))
      obtain ⟨b, hptr, hbs, hg⟩ := kmallocBlocks_granted (Heap.blockList_of_blocks hl) hne
      have hpos : 0 < size := by
        by_contra hz
        obtain rfl : size = 0 := by omega
        exact hne (by simp [kmallocBlocks])
      have hmem := (List.mem_filter.1 hg.mem).1
      have hI := Heap.inv_of_blocks hl' (List.ne_nil_of_mem hmem)
      obtain ⟨hhead, htotal⟩ := Heap.kmalloc_region hres'
      have hb := hI.tiles.mem_bounds hmem
      rw [hhead, htotal] at hb
      exact ⟨hpos, _, b, hl', hg.mem, hptr, le_trans (alignUp_ge (by omega)) hbs, hb.1, hb.2⟩
    · refine (fatReadFile_defined hspc (fun d st' hrun => ?_) (hheap ▸ hl)).ne_undefined
      rw [hsize d st' hrun]
      exact hcond.imp (fun h => by omega) id

/-- 100 bytes on a fresh heap of 4 KiB. -/
theorem kmalloc_payload_hundred : (heapInit smallMap (fun _ => 0)).PayloadFits 100 := by
  have hI := @heapInit_inv smallMap (fun _ => 0) _ rfl (by decide) (by decide) (by decide)
  exact ((kmalloc_payload_iff hI.blocks_eq (by decide)).2 (Or.inl (by decide))).1

/-- 4 GiB less one byte on a fresh heap of 4 KiB. -/
theorem kmalloc_hands_out_nothing :
    ((heapInit smallMap (fun _ => 0)).kmalloc 0xFFFFFFFF).map (fun r => (r.1, r.2.payload r.1))
      = .ok (0x10000C, 0) ∧ ¬ (heapInit smallMap (fun _ => 0)).PayloadFits 0xFFFFFFFF := by
  have hres : ((heapInit smallMap (fun _ => 0)).kmalloc 0xFFFFFFFF).map
      (fun r => (r.1, r.2.payload r.1)) = .ok (0x10000C, 0) := by decide +kernel
  refine ⟨hres, fun hfits => ?_⟩
  cases hrun : (heapInit smallMap (fun _ => 0)).kmalloc 0xFFFFFFFF with
  | error w =>
    rw [hrun] at hres
    cases hres
  | ok r =>
    rw [hrun] at hres
    have hptr : r.1 = 0x10000C := congrArg Prod.fst (Except.ok.inj hres)
    obtain ⟨-, -, b, -, -, -, hsize, -, hend⟩ := hfits r.1 r.2 hrun (by rw [hptr]; decide)
    have hregion : (heapInit smallMap (fun _ => 0)).head + (heapInit smallMap (fun _ => 0)).total
        = 0x101000 := by decide +kernel
    omega

/-! ## `fat_write_file` -/

theorem chainWriteFail_defined (hb : b ∈ usedOf l) (first : UInt16) (hl : st.heap.blocks = some l) :
    (chainWriteFail fs (b.addr + blockHeader) first).Defined (fatHandler fails) st (fun _ st' =>
      st'.heap.blocks = some (coalesce blockHeader (release b.addr l))) := by
  unfold chainWriteFail
  by_cases hf : first ≠ 0
  · rw [if_pos hf]
    refine (keepsHeap_of_plain (chainFree_plain first) hl).bind (fun _ st1 h1 => ?_)
    exact (kfree_defined h1 hb).bind (fun _ st2 h2 => Prog.Defined.pure h2)
  · rw [if_neg hf]
    exact (kfree_defined hl hb).bind (fun _ st2 h2 => Prog.Defined.pure h2)

theorem chainWriteLoop_defined (hb : b ∈ usedOf l)
    (hfit : w32 (fs.sectorsPerCluster * sectorSize) ≤ b.size) (fuel : ℕ) (data : Bytes)
    (first prev : UInt16) (hl : st.heap.blocks = some l) :
    (chainWriteLoop fs (b.addr + blockHeader) fuel data first prev).Defined (fatHandler fails) st
      (fun _ st' => st'.heap.blocks = some (coalesce blockHeader (release b.addr l))) := by
  induction fuel generalizing data first prev st with
  | zero => exact Prog.Defined.diverges
  | succ fuel ih =>
    rw [chainWriteLoop]
    simp only
    by_cases hdata : data = []
    · rw [if_pos hdata]
      exact (kfree_defined hl hb).bind (fun _ st1 h1 => Prog.Defined.pure h1)
    rw [if_neg hdata]
    refine (keepsHeap_of_plain clusterAlloc_plain hl).bind (fun c st1 h1 => ?_)
    by_cases hc : c = 0
    · rw [if_pos hc]
      exact chainWriteFail_defined hb _ h1
    rw [if_neg hc]
    have hlink : (if prev ≠ 0 then fatSet fs prev c else pure true : Fat Bool).Only FatOp.Plain :=
      Prog.Only.ite (fatSet_plain _ _) (Prog.Only.pure _)
    refine (keepsHeap_of_plain hlink h1).bind (fun linked st2 h2 => ?_)
    by_cases hlinked : (!linked) = true
    · rw [if_pos hlinked]
      exact chainWriteFail_defined hb _ h2
    rw [if_neg hlinked]
    refine (heapStore_defined h2 hb (by omega)).bind (fun _ st3 h3 => ?_)
    have hwrite : ∀ lba count image, (ataWriteFrom lba count image).Only FatOp.Plain :=
      fun _ _ _ => ⟨trivial, fun _ => trivial⟩
    refine (keepsHeap_of_plain (hwrite _ _ _) h3).bind (fun ok st4 h4 => ?_)
    by_cases hok : ok = true
    · rw [if_pos hok]
      exact ih _ _ _ h4
    · rw [if_neg hok]
      exact chainWriteFail_defined hb _ h4

theorem chainWrite_defined (hspc : fs.sectorsPerCluster < 256) (data : Bytes)
    (hl : st.heap.blocks = some l) :
    (chainWrite fs data).Defined (fatHandler fails) st (fun _ st' => st'.heap.blocks = some l) := by
  unfold chainWrite
  by_cases hdata : data = []
  · rw [if_pos hdata]
    exact Prog.Defined.pure hl
  rw [if_neg hdata]
  refine (kmalloc_defined hl _).bind (fun buf st1 h1 => ?_)
  obtain ⟨rfl, h1⟩ := h1
  by_cases hbuf : (kmallocBlocks (w32 (fs.sectorsPerCluster * sectorSize)) l).1 = 0
  · rw [if_pos hbuf]
    rw [kmallocBlocks_null hbuf] at h1
    exact Prog.Defined.pure h1
  · rw [if_neg hbuf]
    obtain ⟨b, hptr, hsize, hg⟩ := kmallocBlocks_granted (Heap.blockList_of_blocks hl) hbuf
    obtain ⟨hw, hle⟩ := clusterBytes_le_alignUp hspc
    rw [hptr]
    refine (chainWriteLoop_defined hg.mem ?_ _ _ _ _ h1).mono (fun _ st2 h2 => ?_)
    · exact le_trans (le_of_eq hw) (le_trans hle hsize)
    · rw [hg.back] at h2
      exact h2

theorem writeEntry_defined (hspc : fs.sectorsPerCluster < 256) (data : Bytes) (d : Dirent) (loc : Loc)
    (hl : st.heap.blocks = some l) :
    (writeEntry fs data d loc).Defined (fatHandler fails) st (fun _ st' =>
      st'.heap.blocks = some l) := by
  unfold writeEntry
  refine (chainWrite_defined hspc data hl).bind (fun first st1 h1 => ?_)
  by_cases hfull : data ≠ [] ∧ first = 0
  · rw [if_pos hfull]
    exact (keepsHeap_of_plain (print_plain _) h1).bind (fun _ st2 h2 => Prog.Defined.pure h2)
  · rw [if_neg hfull]
    exact (keepsHeap_of_plain (locUpdate_plain _ _) h1).bind (fun ok st2 h2 => Prog.Defined.pure h2)

/-- **`fat_write_file` on any volume** gives back every buffer it takes. -/
theorem fatWriteFile_defined (hspc : fs.sectorsPerCluster < 256) (path data : Bytes)
    (hl : st.heap.blocks = some l) :
    (fatWriteFile fs path data).Defined (fatHandler fails) st (fun _ st' =>
      st'.heap.blocks = some l) := by
  have hfail : ∀ {st : FatState} (text : Bytes), st.heap.blocks = some l →
      (do print text; return -1 : Fat Int).Defined (fatHandler fails) st (fun _ st' =>
        st'.heap.blocks = some l) := fun text hl =>
    (keepsHeap_of_plain (print_plain text) hl).bind (fun _ st1 h1 => Prog.Defined.pure h1)
  unfold fatWriteFile
  by_cases hm : (!fs.mounted) = true
  · rw [if_pos hm]
    exact hfail _ hl
  rw [if_neg hm]
  refine (keepsHeap_of_idle ((parentOf_reads path).mono (fun _ => FatOp.Reads.idle)) hl).bind (fun r st1 h1 => ?_)
  cases r with
  | none => exact hfail _ h1
  | some x =>
    refine (keepsHeap_of_plain (dirFind_plain _ _) h1).bind (fun r st2 h2 => ?_)
    cases r with
    | some y =>
      obtain ⟨d, loc⟩ := y
      by_cases hdir : d.isDir = true
      · simp only [hdir, if_true]
        exact hfail _ h2
      · simp only [hdir]
        by_cases hc : 2 ≤ d.clusterLo
        · simp only [hc, if_true]
          exact (keepsHeap_of_plain (chainFree_plain _) h2).bind
            (fun _ st3 h3 => writeEntry_defined hspc _ _ _ h3)
        · simp only [hc, if_false]
          exact writeEntry_defined hspc _ _ _ h2
    | none =>
      refine (keepsHeap_of_plain (dirFreeSlot_plain _) h2).bind (fun r st3 h3 => ?_)
      cases r with
      | none => exact hfail _ h3
      | some loc => exact writeEntry_defined hspc _ _ _ h3

end Runs

/-! ## Absolute paths -/

section Absolute

variable {fs : Fs} {fails : Faults} {st : FatState} {α : Type} {p : Fat α}

/-- The state with another working directory. -/
def FatState.withCwd (c : UInt16) (st : FatState) : FatState := { st with cwdCluster := c }

theorem ite_eq_map {ε β γ : Type} {c : Prop} [Decidable c] {g : β → γ} {x y : Except ε β}
    {x' y' : Except ε γ} (hx : x' = x.map g) (hy : y' = y.map g) :
    (if c then x' else y') = (if c then x else y).map g := by
  split_ifs
  · exact hx
  · exact hy

theorem FatOp.NoCwd.step {o : fatSig.Op} (ho : FatOp.NoCwd o) (c : UInt16) (st : FatState) :
    fatHandler fails o (st.withCwd c)
      = (fatHandler fails o st).map (fun r => (r.1, r.2.withCwd c)) := by
  cases o with
  | ataRead _ | ataWrite _ | ataReadTo _ _ _ | heapStore _ _ _ => exact ite_eq_map rfl rfl
  | kmalloc size =>
    simp only [fatHandler, FatState.withCwd]
    cases st.heap.kmalloc size <;> rfl
  | kfree ptr =>
    simp only [fatHandler, FatState.withCwd]
    cases st.heap.kfree ptr <;> rfl
  | getCwdCluster | setCwdCluster _ => exact ho.elim
  | _ => rfl

/-- A program that asks for the working directory first and does not use the answer. -/
def CwdBlind (p : Fat α) : Prop :=
  ∃ q : Fat α, q.Only FatOp.NoCwd ∧ p = (getCwdCluster >>= fun _ => q)

theorem CwdBlind.bind {β : Type} {f : α → Fat β} (hp : CwdBlind p)
    (hf : ∀ a, (f a).Only FatOp.NoCwd) : CwdBlind (p >>= f) := by
  obtain ⟨q, hq, rfl⟩ := hp
  exact ⟨q >>= f, hq.bind hf, rfl⟩

theorem resolve_blind (parentOf : Bool) (path : Bytes) (loc : Loc) :
    CwdBlind (resolve fs parentOf (slash :: path) loc) :=
  ⟨_, (resolveLoop_looks parentOf (components path) (dirEntry 0) loc).mono
    (fun _ h => h.plain.noCwd), rfl⟩

theorem CwdBlind.run_withCwd {p : Fat α} (hp : CwdBlind p) (c : UInt16) (st : FatState) :
    p.run (fatHandler fails) (st.withCwd c)
      = (p.run (fatHandler fails) st).map (fun r => (r.1, r.2.withCwd c)) := by
  obtain ⟨q, hq, rfl⟩ := hp
  exact hq.run_map (fun o s ho => FatOp.NoCwd.step ho c s) st

theorem CwdBlind.noAtaError (hp : CwdBlind p) {fault : Faults} (hc : NoAtaError fault p st)
    (c : UInt16) : NoAtaError fault p (st.withCwd c) := by
  obtain ⟨q, hq, rfl⟩ := hp
  refine ⟨hc.1, fun r s' ho => ?_⟩
  cases ho
  refine hq.clean_map (fun o s ho => FatOp.NoCwd.step ho c s) (fun o s hb => ?_) (hc.2 _ st rfl)
  cases o <;> exact hb

end Absolute

end OctoOS
