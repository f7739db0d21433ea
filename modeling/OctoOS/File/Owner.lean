import OctoOS.File
import OctoOS.Fat.Memory
import Mathlib.Data.List.GetD

set_option autoImplicit false

/-! # Who owns which buffer

The slots of `files[]` are shared by all processes and recycled in any order. `Owns` says that the
live heap blocks are those of other users (`base`) and one for every used slot. Under it the slots
cannot see each other: `FileSys.desc` is what a descriptor looks like from above, an open file with
its bytes and a cursor, and a call changes the descriptor it is made on, as `Desc.answer` says, and
no other. -/

namespace OctoOS

open Atomic Tiling

/-! ## The path of a slot -/

/-- The string in front of the first NUL. -/
def cString (t : Bytes) : Bytes := t.takeWhile (· ≠ 0)

theorem storeBytes_nil (s : Sector) (o : ℕ) : storeBytes s o [] = s := by
  funext k
  exact if_neg (by simp)

theorem storeBytes_cons (s : Sector) (o : ℕ) (c : UInt8) (cs : Bytes) :
    storeBytes (Function.update s o c) (o + 1) cs = storeBytes s o (c :: cs) := by
  funext k
  rcases lt_trichotomy k o with hlt | rfl | hgt
  · rw [storeBytes_of_lt _ _ _ (by omega), storeBytes_of_lt _ _ _ hlt,
      Function.update_of_ne (by omega)]
  · rw [storeBytes_of_lt _ _ _ (by omega), Function.update_self]
    simpa using (storeBytes_add s k (c :: cs) (k := 0) (by simp)).symm
  · obtain ⟨j, rfl⟩ := Nat.exists_eq_add_of_lt hgt
    by_cases hj : j < cs.length
    · rw [show o + j + 1 = o + 1 + j by omega, storeBytes_add _ _ _ hj,
        show o + 1 + j = o + (j + 1) by omega, storeBytes_add _ _ _ (by simpa using hj)]
      rfl
    · rw [storeBytes_of_ge _ _ _ (by omega), storeBytes_of_ge _ _ _ (by simp; omega),
        Function.update_of_ne (by omega)]

theorem storeBytes_append (s : Sector) (o : ℕ) (a b : Bytes) :
    storeBytes (storeBytes s o a) (o + a.length) b = storeBytes s o (a ++ b) := by
  induction a generalizing s o with
  | nil => rw [storeBytes_nil, List.length_nil, Nat.add_zero, List.nil_append]
  | cons c cs ih =>
    rw [← storeBytes_cons, List.cons_append, ← storeBytes_cons, ← ih]
    congr 1
    rw [List.length_cons]
    omega

/-- Stores that stay inside the path of a slot. -/
theorem storeFiles_path {files : ℕ → File} {i off : ℕ} {cs : Bytes} (hi : i < maxFiles)
    (hfit : off + cs.length ≤ pathMax) :
    storeFiles files (i * sizeofFile + pathOffset + off) cs
      = some (Function.update files i { files i with path := storeBytes (files i).path off cs }) := by
  unfold maxFiles at hi
  unfold pathMax at hfit
  induction cs generalizing files off with
  | nil => simp [storeFiles, storeBytes_nil]
  | cons c cs ih =>
    rw [List.length_cons] at hfit
    have hdiv : (i * 120 + 12 + off) / 120 = i := by omega
    have hmod : (i * 120 + 12 + off) % 120 = 12 + off := by omega
    rw [storeFiles, if_pos (by unfold maxFiles sizeofFile pathOffset; omega)]
    simp only [sizeofFile, pathOffset] at ih ⊢
    rw [hdiv, hmod, Nat.add_assoc _ off 1, ih (by omega), Function.update_self,
      Function.update_idem]
    have hbyte : (files i).setByte (12 + off) c
        = { files i with path := Function.update (files i).path off c } := by
      unfold File.setByte
      rw [if_neg (by omega), if_neg (by omega), if_neg (by omega), if_pos (by omega),
        Nat.add_sub_cancel_left]
    rw [hbyte, storeBytes_cons]

/-- The absolute form of a path fits into a slot. -/
def PathFits (cwd path : Bytes) : Prop := (absText cwd path).length + 1 ≤ pathMax
  deriving Decidable

/-- `abs_path` where the absolute form fits. -/
theorem absPath_fits {cwd path : Bytes} (hfit : PathFits cwd path) {i : ℕ} (hi : i < maxFiles)
    (files : ℕ → File) :
    absPath cwd path i files = some (true, Function.update files i
      { files i with path := storeBytes (files i).path 0 (absText cwd path ++ [0]) }) := by
  have hlen : (cwdPart cwd path).length + path.length + 1 ≤ pathMax := by
    simpa [PathFits, absText] using hfit
  have hpart := @storeFiles_path files i 0 (cwdPart cwd path) hi (by omega)
  rw [Nat.add_zero] at hpart
  simp only [absPath, hpart, Option.bind_eq_bind, Option.bind_some, if_neg (not_lt.2 hlen)]
  rw [storeFiles_path hi (by rw [List.length_append, List.length_singleton]; omega)]
  simp only [Function.update_self, Function.update_idem, Option.bind_some]
  have happ := storeBytes_append (files i).path 0 (cwdPart cwd path) (path ++ [0])
  rw [Nat.zero_add] at happ
  rw [happ, absText, List.append_assoc]
  rfl

theorem takeWhile_nul (t r : Bytes) : (t ++ 0 :: r).takeWhile (· ≠ 0) = cString t := by
  unfold cString
  induction t with
  | nil => simp
  | cons c cs ih =>
    by_cases hc : c = 0
    · simp [hc]
    · simp only [List.cons_append, List.takeWhile_cons, ih]

/-- The string in a path that was just stored. -/
theorem pathText_store {f : File} {t : Bytes} (ht : t.length + 1 ≤ pathMax)
    (hf : f.path = storeBytes File.zero.path 0 (t ++ [0])) : f.pathText = cString t := by
  obtain ⟨k, hk⟩ := Nat.exists_eq_add_of_le ht
  have hget : ∀ j < t.length, f.path j = t.getD j 0 := by
    intro j hj
    have := storeBytes_add File.zero.path 0 (t ++ [0]) (k := j) (by simp; omega)
    rw [Nat.zero_add] at this
    rw [hf, this, List.getD_append _ _ _ _ hj]
  have hnul : f.path t.length = 0 := by
    have := storeBytes_add File.zero.path 0 (t ++ [0]) (k := t.length) (by simp)
    rw [Nat.zero_add] at this
    rw [hf, this, List.getD_append_right _ _ _ _ (le_refl _)]
    simp
  have hlist : (List.range t.length).map f.path = t := by
    refine List.ext_getElem (by simp) (fun j h1 h2 => ?_)
    rw [List.getElem_map, List.getElem_range, hget j h2, List.getD_eq_getElem _ _ h2]
  rw [File.pathText, hk, List.range_add, List.range_succ, List.map_append, List.map_append, hlist,
    List.map_singleton, hnul, List.append_assoc, List.singleton_append, takeWhile_nul]

/-! ## Buffers -/

@[simp] theorem loadBytes_length (ram : ℕ → UInt8) (a n : ℕ) : (loadBytes ram a n).length = n := by
  simp [loadBytes]

theorem loadBytes_congr {ram ram' : ℕ → UInt8} {a n : ℕ} (h : ∀ k < n, ram' (a + k) = ram (a + k)) :
    loadBytes ram' a n = loadBytes ram a n := by
  unfold loadBytes
  exact List.map_congr_left (fun k hk => h k (List.mem_range.1 hk))

theorem loadBytes_add (ram : ℕ → UInt8) (a m n : ℕ) :
    loadBytes ram a (m + n) = loadBytes ram a m ++ loadBytes ram (a + m) n := by
  unfold loadBytes
  rw [List.range_add, List.map_append, List.map_map]
  congr 1
  refine List.map_congr_left (fun k _ => ?_)
  rw [Function.comp_apply, Nat.add_assoc]

theorem loadBytes_store (ram : ℕ → UInt8) (a : ℕ) (data : Bytes) :
    loadBytes (storeBytes ram a data) a data.length = data := by
  refine List.ext_getElem (by simp) (fun k h1 h2 => ?_)
  simp only [loadBytes, List.getElem_map, List.getElem_range]
  rw [storeBytes_add _ _ _ h2, List.getD_eq_getElem _ _ h2]

/-- Bytes that are stored behind others. -/
theorem loadBytes_store_append (ram : ℕ → UInt8) (a n : ℕ) (data : Bytes) :
    loadBytes (storeBytes ram (a + n) data) a (n + data.length) = loadBytes ram a n ++ data := by
  rw [loadBytes_add, loadBytes_store, loadBytes_congr]
  intro k hk
  exact storeBytes_of_lt _ _ _ (by omega)

/-- The bytes of a sub-range. -/
theorem loadBytes_sub (ram : ℕ → UInt8) {a n p m : ℕ} (h : p + m ≤ n) :
    loadBytes ram (a + p) m = ((loadBytes ram a n).drop p).take m := by
  obtain ⟨k, rfl⟩ := Nat.exists_eq_add_of_le h
  rw [loadBytes_add, loadBytes_add, List.append_assoc, List.drop_append_of_le_length (by simp),
    List.drop_of_length_le (by simp), List.nil_append, List.take_append_of_le_length (by simp),
    List.take_of_length_le (by simp)]

/-! ## Ownership -/

/-- A used slot and the block of its buffer. -/
structure Owned (f : File) (b : Blk) : Prop where
  buf : f.buf = b.addr + blockHeader
  size : f.size ≤ b.size
  pos : f.pos ≤ f.size
  mode : f.mode = oRdonly ∨ f.mode = oWronly ∧ writeCap ≤ b.size

/-- The used blocks of the heap are those of `base` and the buffers of the used slots. -/
structure Owns (files : ℕ → File) (l : List Blk) (base : Blk → Prop) : Prop where
  slot : ∀ i < maxFiles, (files i).used ≠ 0 → ∃ b ∈ usedOf l, Owned (files i) b ∧ ¬ base b
  apart : ∀ i < maxFiles, ∀ j < maxFiles, (files i).used ≠ 0 → (files j).used ≠ 0 →
    (files i).buf = (files j).buf → i = j
  live : ∀ b ∈ usedOf l, base b ∨
    ∃ i < maxFiles, (files i).used ≠ 0 ∧ (files i).buf = b.addr + blockHeader
  kept : ∀ b, base b → b ∈ usedOf l

/-- Only slots that are unused before and after differ. -/
def SameUsed (files files' : ℕ → File) : Prop :=
  ∀ i, files' i = files i ∨ (files i).used = 0 ∧ (files' i).used = 0

theorem BlockList.eq_of_addr {l : List Blk} (hl : BlockList l) {b c : Blk} (hb : b ∈ usedOf l)
    (hc : c ∈ usedOf l) (h : b.addr = c.addr) : b = c := by
  rcases hl with rfl | ⟨lo, hi, ht, -⟩
  · exact absurd hb (by simp [usedOf])
  · exact ht.eq_of_addr_eq (by decide) (List.mem_filter.1 hb).1 (List.mem_filter.1 hc).1 h

namespace Owns

variable {files files' : ℕ → File} {l l' : List Blk} {base : Blk → Prop} {i : ℕ} {b : Blk} {f : File}

theorem init {l0 : List Blk} (hfree : ∀ i < maxFiles, (files i).used = 0) :
    Owns files l0 (· ∈ usedOf l0) where
  slot i hi hu := absurd (hfree i hi) hu
  apart i hi _ _ hu := absurd (hfree i hi) hu
  live _ hb := Or.inl hb
  kept _ hb := hb

section

variable (ho : Owns files l base)

include ho

theorem congr (h : SameUsed files files') : Owns files' l base := by
  have hsame : ∀ j, (files' j).used ≠ 0 → files' j = files j := fun j hu =>
    (h j).resolve_right (fun hz => hu hz.2)
  have hsame' : ∀ j, (files j).used ≠ 0 → files' j = files j := fun j hu =>
    (h j).resolve_right (fun hz => hu hz.1)
  refine ⟨fun j hj hu => ?_, fun j hj k hk hu hu' heq => ?_, fun c hc => ?_, ho.kept⟩
  · have hj' := hsame j hu
    rw [hj'] at hu ⊢
    exact ho.slot j hj hu
  · have hj' := hsame j hu
    have hk' := hsame k hu'
    rw [hj'] at hu heq
    rw [hk'] at hu' heq
    exact ho.apart j hj k hk hu hu' heq
  · rcases ho.live c hc with hbase | ⟨j, hj, hu, hbuf⟩
    · exact Or.inl hbase
    · have hj' := hsame' j hu
      rw [← hj'] at hu hbuf
      exact Or.inr ⟨j, hj, hu, hbuf⟩

/-- A block is handed out to an unused slot. -/
theorem opened (hg : Granted l b l') (hi : i < maxFiles) (hfree : (files i).used = 0)
    (hused : f.used ≠ 0) (hf : Owned f b) : Owns (Function.update files i f) l' base := by
  have hbuf : ∀ j < maxFiles, (files j).used ≠ 0 → (files j).buf ≠ f.buf := by
    intro j hj hu heq
    obtain ⟨c, hc, hown, -⟩ := ho.slot j hj hu
    rw [hown.buf, hf.buf] at heq
    exact hg.fresh c hc (by omega)
  have hold : ∀ j, j ≠ i → Function.update files i f j = files j := fun j hj =>
    Function.update_of_ne hj _ _
  refine ⟨fun j hj hu => ?_, fun j hj k hk hu hu' heq => ?_, fun c hc => ?_, fun c hc => ?_⟩
  · by_cases hji : j = i
    · subst hji
      rw [Function.update_self] at hu ⊢
      refine ⟨b, hg.mem, hf, fun hbase => ?_⟩
      exact hg.fresh b (ho.kept b hbase) rfl
    · rw [hold j hji] at hu ⊢
      obtain ⟨c, hc, hown⟩ := ho.slot j hj hu
      exact ⟨c, (hg.used c).2 (Or.inr hc), hown⟩
  · by_cases hji : j = i <;> by_cases hki : k = i
    · rw [hji, hki]
    · subst hji
      rw [Function.update_self, hold k hki] at heq
      rw [hold k hki] at hu'
      exact absurd heq.symm (hbuf k hk hu')
    · subst hki
      rw [Function.update_self, hold j hji] at heq
      rw [hold j hji] at hu
      exact absurd heq (hbuf j hj hu)
    · rw [hold j hji] at hu heq
      rw [hold k hki] at hu' heq
      exact ho.apart j hj k hk hu hu' heq
  · rcases (hg.used c).1 hc with rfl | hc'
    · exact Or.inr ⟨i, hi, by rw [Function.update_self]; exact hused,
        by rw [Function.update_self]; exact hf.buf⟩
    · rcases ho.live c hc' with hbase | ⟨j, hj, hu, hcb⟩
      · exact Or.inl hbase
      · have hji : j ≠ i := fun hji => hu (hji ▸ hfree)
        rw [← hold j hji] at hu hcb
        exact Or.inr ⟨j, hj, hu, hcb⟩
  · exact (hg.used c).2 (Or.inr (ho.kept c hc))

/-- The buffer of a slot is freed and the slot becomes unused. -/
theorem closed (hl : BlockList l) (hi : i < maxFiles) (hu : (files i).used ≠ 0) (hb : b ∈ usedOf l)
    (hown : Owned (files i) b) (hbase : ¬ base b) (hf : f.used = 0) :
    Owns (Function.update files i f) (coalesce blockHeader (release b.addr l)) base := by
  have hold : ∀ {j}, (Function.update files i f j).used ≠ 0 →
      j ≠ i ∧ Function.update files i f j = files j := by
    intro j hj
    have hji : j ≠ i := by
      rintro rfl
      rw [Function.update_self] at hj
      exact hj hf
    exact ⟨hji, Function.update_of_ne hji _ _⟩
  refine ⟨fun j hj hu' => ?_, fun j hj k hk hu1 hu2 heq => ?_, fun c hc => ?_, fun c hc => ?_⟩
  · obtain ⟨hji, heq⟩ := hold hu'
    rw [heq] at hu' ⊢
    obtain ⟨c, hc, hown', hcb⟩ := ho.slot j hj hu'
    refine ⟨c, mem_usedOf_free.2 ⟨hc, fun haddr => ?_⟩, hown', hcb⟩
    refine hji (ho.apart j hj i hi hu' hu ?_)
    rw [hown'.buf, hown.buf, haddr]
  · obtain ⟨-, h1⟩ := hold hu1
    obtain ⟨-, h2⟩ := hold hu2
    rw [h1] at hu1 heq
    rw [h2] at hu2 heq
    exact ho.apart j hj k hk hu1 hu2 heq
  · obtain ⟨hc, haddr⟩ := mem_usedOf_free.1 hc
    rcases ho.live c hc with hcb | ⟨j, hj, hu', hcb⟩
    · exact Or.inl hcb
    · have hji : j ≠ i := by
        rintro rfl
        rw [hown.buf] at hcb
        exact haddr (by omega)
      rw [← Function.update_of_ne hji f files] at hu' hcb
      exact Or.inr ⟨j, hj, hu', hcb⟩
  · refine mem_usedOf_free.2 ⟨ho.kept c hc, fun haddr => hbase ?_⟩
    rw [← hl.eq_of_addr (ho.kept c hc) hb haddr]
    exact hc

/-- A block is handed out to somebody else. -/
theorem granted (hg : Granted l b l') : Owns files l' (fun c => c = b ∨ base c) := by
  refine ⟨fun i hi hu => ?_, ho.apart, fun c hc => ?_, fun c hc => ?_⟩
  · obtain ⟨c, hc, hown, hbase⟩ := ho.slot i hi hu
    refine ⟨c, (hg.used c).2 (Or.inr hc), hown, fun h => ?_⟩
    rcases h with rfl | h
    · exact hg.fresh c hc rfl
    · exact hbase h
  · rcases (hg.used c).1 hc with rfl | hc'
    · exact Or.inl (Or.inl rfl)
    · exact (ho.live c hc').imp Or.inr id
  · exact (hg.used c).2 (hc.imp id (ho.kept c))

/-- Somebody else frees a block. -/
theorem released (hl : BlockList l) (hb : base b) :
    Owns files (coalesce blockHeader (release b.addr l)) (fun c => base c ∧ c ≠ b) := by
  have hmem := ho.kept b hb
  refine ⟨fun i hi hu => ?_, ho.apart, fun c hc => ?_, fun c hc => ?_⟩
  · obtain ⟨c, hc, hown, hbase⟩ := ho.slot i hi hu
    refine ⟨c, mem_usedOf_free.2 ⟨hc, fun haddr => hbase ?_⟩, hown, fun h => hbase h.1⟩
    rw [hl.eq_of_addr hc hmem haddr]
    exact hb
  · obtain ⟨hc, haddr⟩ := mem_usedOf_free.1 hc
    exact (ho.live c hc).imp (fun h => ⟨h, fun heq => haddr (congrArg Blk.addr heq)⟩) id
  · exact mem_usedOf_free.2 ⟨ho.kept c hc.1, fun haddr => hc.2 (hl.eq_of_addr (ho.kept c hc.1) hmem haddr)⟩

theorem base_congr {base' : Blk → Prop} (h : ∀ c, base' c ↔ base c) : Owns files l base' := by
  obtain rfl : base' = base := funext (fun c => propext (h c))
  exact ho

/-- A used slot changes without giving up its buffer. -/
theorem edited (hi : i < maxFiles) (hu : (files i).used ≠ 0) (hb : b ∈ usedOf l) (hbase : ¬ base b)
    (hbuf : f.buf = (files i).buf) (hused : f.used ≠ 0) (hf : Owned f b) : Owns (Function.update files i f) l base := by
  have hcell : ∀ j, (Function.update files i f j).used ≠ 0 ↔ (files j).used ≠ 0 := by
    intro j
    by_cases hji : j = i
    · subst hji
      rw [Function.update_self]
      exact iff_of_true hused hu
    · rw [Function.update_of_ne hji]
  have hcellBuf : ∀ j, (Function.update files i f j).buf = (files j).buf := by
    intro j
    by_cases hji : j = i
    · subst hji
      rw [Function.update_self, hbuf]
    · rw [Function.update_of_ne hji]
  refine ⟨fun j hj hu' => ?_, fun j hj k hk hu1 hu2 heq => ?_, fun c hc => ?_, ho.kept⟩
  · by_cases hji : j = i
    · subst hji
      rw [Function.update_self]
      exact ⟨b, hb, hf, hbase⟩
    · rw [Function.update_of_ne hji] at hu' ⊢
      exact ho.slot j hj hu'
  · rw [hcellBuf, hcellBuf] at heq
    exact ho.apart j hj k hk ((hcell j).1 hu1) ((hcell k).1 hu2) heq
  · rcases ho.live c hc with hcb | ⟨j, hj, hu', hcb⟩
    · exact Or.inl hcb
    · exact Or.inr ⟨j, hj, (hcell j).2 hu', by rw [hcellBuf]; exact hcb⟩

end

end Owns

/-! ## Descriptors -/

/-- An open file as its process sees it. -/
structure Desc where
  pid : ℕ
  mode : ℕ
  path : Bytes
  data : Bytes
  pos : ℕ
  deriving DecidableEq

/-- The open file in the slot `i`. -/
def FileSys.desc (s : FileSys) (i : ℕ) : Option Desc :=
  let f := s.files i
  if f.used = 0 then none
  else some ⟨f.pid, f.mode, (s.pending f).1, (s.pending f).2, f.pos⟩

/-- Reading moves the cursor. -/
def Desc.read (d : Desc) (n : ℕ) : (Int × Bytes) × Desc :=
  if d.mode ≠ oRdonly then ((-1, []), d)
  else
    let chunk := (d.data.drop d.pos).take n
    ((chunk.length, chunk), { d with pos := d.pos + chunk.length })

/-- Writing appends, up to the capacity. -/
def Desc.write (d : Desc) (src : Bytes) : (Int × Bytes) × Desc :=
  if d.mode ≠ oWronly ∨ writeCap < d.data.length + src.length then ((-1, []), d)
  else ((src.length, []), { d with data := d.data ++ src })

/-- The calls of `file.h`. -/
inductive FileCall where
  | open (pid : ℕ) (path : Bytes) (mode : ℕ)
  | read (pid : ℕ) (fd : Int) (n : ℕ)
  | write (pid : ℕ) (fd : Int) (src : Bytes)
  | close (pid : ℕ) (fd : Int)
  | closeAll (pid : ℕ)

/-- What a call does, with its result and the bytes it delivers. -/
def FileCall.exec (fs : Fs) (fails : Faults) (s : FileSys) :
    FileCall → Except Stop ((Int × Bytes) × FileSys)
  | .open pid path mode => do
    let (r, s) ← fileOpen fs fails pid path mode s
    return ((r, []), s)
  | .read pid fd n => fileRead pid fd n s
  | .write pid fd src => do
    let (r, s) ← fileWrite pid fd src s
    return ((r, []), s)
  | .close pid fd => do
    let (r, s) ← fileClose fs fails pid fd s
    return ((r, []), s)
  | .closeAll pid => do
    let s ← fileCloseAll fs fails pid s
    return ((0, []), s)

/-- The call closes the descriptor in slot `i`. -/
def Desc.ClosedBy (d : Desc) (i : ℕ) : FileCall → Prop
  | .close pid fd => pid = d.pid ∧ fd = i + fdBase
  | .closeAll pid => pid = d.pid
  | _ => False

/-- The answer to a call on the descriptor in slot `i`, `none` for a call on something else. -/
def Desc.answer (d : Desc) (i : ℕ) : FileCall → Option ((Int × Bytes) × Desc)
  | .read pid fd n => if pid = d.pid ∧ fd = i + fdBase then some (d.read n) else none
  | .write pid fd src => if pid = d.pid ∧ fd = i + fdBase then some (d.write src) else none
  | _ => none

/-- What a caller has to see to: a path that fits and at most 4 MiB to write. -/
def FileCall.Fits (s : FileSys) : FileCall → Prop
  | .open _ path _ => PathFits s.fat.cwdPath path
  | .write _ _ src => src.length ≤ 4 * 1024 * 1024
  | _ => True

/-- The file that an open for reading finds has a size that `kmalloc` can round up. -/
def FileCall.Loads (fs : Fs) (fails : Faults) (s : FileSys) : FileCall → Prop
  | .open _ path mode => mode = oRdonly →
    match (lookupFile fs (cString (absText s.fat.cwdPath path))).run (fatHandler fails) s.fat with
    | .ok (some d, _) => d.size.toNat ≤ 0xFFFFFFF8
    | _ => True
  | _ => True

section Views

variable {s s' : FileSys} {i : ℕ}

theorem FileSys.desc_eq (hu : (s.files i).used ≠ 0) :
    s.desc i = some ⟨(s.files i).pid, (s.files i).mode, (s.files i).pathText,
      loadBytes s.ram (s.files i).buf (s.files i).size, (s.files i).pos⟩ := if_neg hu

/-- The descriptor in a slot that was just written. -/
theorem FileSys.desc_update {fat : FatState} {files : ℕ → File} {ram : ℕ → UInt8} {f : File}
    (hu : f.used ≠ 0) : FileSys.desc ⟨fat, Function.update files i f, ram⟩ i
      = some ⟨f.pid, f.mode, f.pathText, loadBytes ram f.buf f.size, f.pos⟩ := by
  unfold FileSys.desc
  simp only [Function.update_self, if_neg hu]
  rfl

theorem FileSys.used_of_desc {d : Desc} (hd : s.desc i = some d) : (s.files i).used ≠ 0 := by
  intro hz
  rw [FileSys.desc] at hd
  simp only [if_pos hz] at hd
  cases hd

theorem FileSys.desc_congr (hf : s'.files i = s.files i)
    (hr : ∀ k < (s.files i).size, s'.ram ((s.files i).buf + k) = s.ram ((s.files i).buf + k)) :
    s'.desc i = s.desc i := by
  unfold FileSys.desc FileSys.pending
  simp only [hf, loadBytes_congr hr]

theorem getFile_eq_some {files : ℕ → File} {pid : ℕ} {fd : Int} {j : ℕ}
    (h : getFile files pid fd = some j) :
    j < maxFiles ∧ fd = j + fdBase ∧ (files j).used ≠ 0 ∧ (files j).pid = pid := by
  unfold getFile at h
  simp only at h
  split_ifs at h with hno
  cases h
  simp only [not_or, not_lt, not_le, Decidable.not_not] at hno
  unfold fdBase at hno ⊢
  obtain ⟨h0, h16, hu, hp⟩ := hno
  exact ⟨by omega, by omega, hu, hp⟩

theorem getFile_of_desc {d : Desc} (hi : i < maxFiles) (hd : s.desc i = some d) :
    getFile s.files d.pid (i + fdBase) = some i := by
  have hu := FileSys.used_of_desc hd
  rw [FileSys.desc_eq hu] at hd
  cases hd
  have hidx : ((i : Int) + fdBase - fdBase).toNat = i := by omega
  unfold getFile
  simp only [hidx]
  rw [if_neg]
  rintro (h | h | h | h)
  · omega
  · omega
  · exact hu h
  · exact h rfl

end Views

end OctoOS
