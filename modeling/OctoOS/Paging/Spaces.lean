import OctoOS.Paging
import Mathlib.Data.List.Nodup
import Mathlib.Data.List.Pairwise
import Mathlib.Data.List.Perm.Basic

set_option autoImplicit false

/-! # Address spaces and the frames they own

An address space is a page directory, one page table and the frames that the table maps. The
memory holds a list of them, and every allocated frame belongs to exactly one of: the kernel's page
directory, an address space, or `rest`, the frames somebody else holds. Each function of
`paging.c` moves frames between these owners. -/

namespace OctoOS

/-- An address space; `pages i` is the frame of the `i`-th page of the user window. -/
structure Space where
  dir : ℕ
  table : ℕ
  pages : ℕ → Option ℕ

/-- The frames mapped in the user window. -/
def Space.mapped (sp : Space) : List ℕ := (List.range 1024).filterMap sp.pages

/-- All frames of an address space. -/
def Space.frames (sp : Space) : List ℕ := sp.dir :: sp.table :: sp.mapped

/-- The space with the frame `f` at page `i`. -/
def Space.map (sp : Space) (i f : ℕ) : Space :=
  { sp with pages := Function.update sp.pages i (some f) }

/-- Byte `k` of the `j`-th page of the user window; what is not mapped counts as zero. -/
def Space.pageByte (sp : Space) (m : Mem) (j k : ℕ) : UInt8 :=
  match sp.pages j with
  | some f => m (f + k)
  | none => 0

/-- What a page table holds for a page. -/
def pageEntry : Option ℕ → ℕ
  | none => 0
  | some f => userEntry f

/-- The memory holds the address space. -/
structure Space.InMem (sp : Space) (m : Mem) : Prop where
  kernel : ∀ i < 1024, i ≠ userPde → m.word (sp.dir + 4 * i) = kernelEntry i
  user : m.word (sp.dir + 4 * userPde) = userEntry sp.table
  pages : ∀ i < 1024, m.word (sp.table + 4 * i) = pageEntry (sp.pages i)

/-- The address spaces `l` are in memory, and every allocated frame has one owner. -/
structure PagingInv (kdir : ℕ) (rest : List ℕ) (l : List Space) (s : Phys) : Prop where
  ok : s.Ok
  owned : s.frames.Perm (kdir :: (rest ++ l.flatMap Space.frames))
  kernel : ∀ i < 1024, s.mem.word (kdir + 4 * i) = kernelEntry i
  spaces : ∀ sp ∈ l, sp.InMem s.mem

/-! ## Lists of frames -/

/-- Giving a new value to one index of a list of optional values adds that value. -/
theorem filterMap_update_perm {α : Type} {g : ℕ → Option α} {i n : ℕ} (hi : i < n)
    (hg : g i = none) (x : α) :
    ((List.range n).filterMap (Function.update g i (some x))).Perm
      (x :: (List.range n).filterMap g) := by
  induction n with
  | zero => exact absurd hi (by omega)
  | succ n ih =>
    rw [List.range_succ, List.filterMap_append, List.filterMap_append]
    by_cases hin : i = n
    · subst hin
      have hsame : (List.range i).filterMap (Function.update g i (some x))
          = (List.range i).filterMap g := by
        refine List.filterMap_congr (fun j hj => ?_)
        exact Function.update_of_ne (fun h => absurd (List.mem_range.1 hj) (by omega)) _ _
      rw [hsame, List.filterMap_cons, List.filterMap_cons, Function.update_self, hg]
      simp
    · have hlast : [n].filterMap (Function.update g i (some x)) = [n].filterMap g := by
        refine List.filterMap_congr (fun j hj => ?_)
        exact Function.update_of_ne (by rw [List.mem_singleton.1 hj]; omega) _ _
      rw [hlast]
      exact (ih (by omega)).append_right _

theorem two_to_back (a b : ℕ) (xs ys : List ℕ) :
    (a :: b :: xs ++ ys).Perm (xs ++ (b :: a :: ys)) := by
  have h : (a :: (xs ++ ys)).Perm (xs ++ a :: ys) := List.perm_middle.symm
  exact (List.Perm.swap ..).trans ((h.cons b).trans List.perm_middle.symm)

/-- In a list without repetitions a frame has one owner. -/
theorem owner_unique {α β : Type} {g : α → List β} {l : List α} (h : (l.flatMap g).Nodup) {a b : α}
    (ha : a ∈ l) (hb : b ∈ l) {x : β} (hxa : x ∈ g a) (hxb : x ∈ g b) : a = b := by
  by_contra hne
  have : Std.Symm (Function.onFun List.Disjoint g) := ⟨fun _ _ hd _ ha hb => hd hb ha⟩
  exact (List.nodup_flatMap.1 h).2.forall ha hb hne hxa hxb

/-- In a list of optional values without repetitions a value stands at one index. -/
theorem filterMap_index_unique {α : Type} {g : ℕ → Option α} {n i j : ℕ} {x : α}
    (h : ((List.range n).filterMap g).Nodup) (hi : i < n) (hj : j < n) (hgi : g i = some x)
    (hgj : g j = some x) : i = j := by
  rw [List.filterMap_eq_flatMap_toList] at h
  exact owner_unique (x := x) h (List.mem_range.2 hi) (List.mem_range.2 hj) (by simp [hgi])
    (by simp [hgj])

section Inv

variable {kdir p q f i n : ℕ} {rest rest' : List ℕ} {l l' : List Space} {sp : Space} {s s' : Phys}
  {m m' : Mem}

@[simp] theorem Space.map_dir (sp : Space) (i f : ℕ) : (sp.map i f).dir = sp.dir := rfl

@[simp] theorem Space.map_table (sp : Space) (i f : ℕ) : (sp.map i f).table = sp.table := rfl

theorem Space.map_pages (sp : Space) (i f j : ℕ) :
    (sp.map i f).pages j = if j = i then some f else sp.pages j := Function.update_apply ..

theorem Space.dir_mem (sp : Space) : sp.dir ∈ sp.frames := List.mem_cons_self ..

theorem Space.table_mem (sp : Space) : sp.table ∈ sp.frames :=
  List.mem_cons_of_mem _ (List.mem_cons_self ..)

theorem Space.mem_frames (hf : f ∈ sp.mapped) : f ∈ sp.frames :=
  List.mem_cons_of_mem _ (List.mem_cons_of_mem _ hf)

theorem Space.mem_mapped : f ∈ sp.mapped ↔ ∃ i < 1024, sp.pages i = some f := by
  simp only [Space.mapped, List.mem_filterMap, List.mem_range]

/-- A change inside one page leaves the words of every other page. -/
theorem word_of_page_ne (h : Mem.SameOff p frameSize m m') (hp : p % frameSize = 0)
    (hq : q % frameSize = 0) (hne : q ≠ p) (hi : i < 1024) : m'.word (q + 4 * i) = m.word (q + 4 * i) := by
  refine h.word ?_
  unfold frameSize at *
  omega

theorem Space.InMem.congr (h : sp.InMem m)
    (hd : ∀ i < 1024, m'.word (sp.dir + 4 * i) = m.word (sp.dir + 4 * i))
    (ht : ∀ i < 1024, m'.word (sp.table + 4 * i) = m.word (sp.table + 4 * i)) : sp.InMem m' where
  kernel i hi hne := (hd i hi).trans (h.kernel i hi hne)
  user := (hd userPde (by decide)).trans h.user
  pages i hi := (ht i hi).trans (h.pages i hi)

namespace PagingInv

section

variable (h : PagingInv kdir rest l s)

include h

theorem nodup : (kdir :: (rest ++ l.flatMap Space.frames)).Nodup :=
  h.owned.nodup_iff.1 s.nodup_frames

theorem frame_kdir : kdir % frameSize = 0 :=
  (h.ok.frame (h.owned.mem_iff.2 (List.mem_cons_self ..))).1

theorem mem_rest (hf : f ∈ rest) : f ∈ s.frames :=
  h.owned.mem_iff.2 (List.mem_cons_of_mem _ (List.mem_append_left _ hf))

theorem mem_space (hsp : sp ∈ l) (hf : f ∈ sp.frames) : f ∈ s.frames :=
  h.owned.mem_iff.2 (List.mem_cons_of_mem _ (List.mem_append_right _ (List.mem_flatMap.2 ⟨sp, hsp, hf⟩)))

theorem aligned (hsp : sp ∈ l) (hf : f ∈ sp.frames) : f % frameSize = 0 :=
  (h.ok.frame (h.mem_space hsp hf)).1

/-- The order of the owners does not matter. -/
theorem perm (hr : rest.Perm rest') (hl : l.Perm l') :
    PagingInv kdir rest' l' s where
  ok := h.ok
  owned := h.owned.trans ((hr.append (hl.flatMap_right _)).cons _)
  kernel := h.kernel
  spaces sp hsp := h.spaces sp (hl.mem_iff.2 hsp)

/-- A change of memory inside a page that is no page directory and no page table. -/
theorem set_mem (hm : Mem.SameOff p frameSize s.mem m) (hp : p % frameSize = 0) (hk : kdir ≠ p)
    (hl : ∀ sp ∈ l, sp.dir ≠ p ∧ sp.table ≠ p) :
    PagingInv kdir rest l { s with mem := m } where
  ok := h.ok.of_eq rfl rfl
  owned := h.owned
  kernel i hi := (word_of_page_ne hm hp h.frame_kdir hk hi).trans (h.kernel i hi)
  spaces sp hsp := (h.spaces sp hsp).congr
    (fun _ => word_of_page_ne hm hp (h.aligned hsp sp.dir_mem) (hl sp hsp).1)
    (fun _ => word_of_page_ne hm hp (h.aligned hsp sp.table_mem) (hl sp hsp).2)

/-- A page that somebody else holds is not one of the kernel's tables. -/
theorem rest_ne (hp : p ∈ rest) : kdir ≠ p ∧ ∀ sp ∈ l, sp.dir ≠ p ∧ sp.table ≠ p := by
  have hnd := h.nodup
  rw [List.nodup_cons] at hnd
  have hdis := (List.nodup_append.1 hnd.2).2.2
  refine ⟨fun heq => hnd.1 (by rw [heq]; exact List.mem_append_left _ hp), fun sp hsp => ?_⟩
  have hmem : ∀ x ∈ sp.frames, p ≠ x := fun x hx =>
    hdis p hp x (List.mem_flatMap.2 ⟨sp, hsp, hx⟩)
  exact ⟨(hmem _ sp.dir_mem).symm, (hmem _ sp.table_mem).symm⟩

/-- Whoever holds a frame may write it. -/
theorem set_rest (hp : p ∈ rest) (hm : Mem.SameOff p frameSize s.mem m) : PagingInv kdir rest l { s with mem := m } :=
  h.set_mem hm (h.ok.frame (h.mem_rest hp)).1 (h.rest_ne hp).1 (h.rest_ne hp).2

/-- `frame_alloc` hands out a frame. -/
theorem took (ht : Took s p s') : PagingInv kdir (p :: rest) l s' := by
  have hnd := ht.nodup
  have hnot : ∀ x ∈ s.frames, x ≠ p := fun x hx heq => (List.nodup_cons.1 hnd).1 (heq ▸ hx)
  have hmem := Mem.sameOff_fill s.mem p 0 frameSize
  rw [← ht.mem] at hmem
  have hs := h.set_mem hmem ((ht.ok h.ok).frame ht.mem_frames).1
    (hnot _ (h.owned.mem_iff.2 (List.mem_cons_self ..)))
    (fun sp hsp => ⟨hnot _ (h.mem_space hsp sp.dir_mem), hnot _ (h.mem_space hsp sp.table_mem)⟩)
  exact ⟨ht.ok h.ok, ht.frames.trans ((h.owned.cons p).trans (List.Perm.swap ..)), hs.kernel, hs.spaces⟩

end

/-- `frame_free` takes a frame back. -/
theorem gave (h : PagingInv kdir (p :: rest) l s) : PagingInv kdir rest l (frameFree p s) := by
  have hg := frameFree_spec (h.mem_rest (List.mem_cons_self ..))
  refine ⟨hg.ok h.ok, ?_, fun i hi => ?_, fun sp hsp => ?_⟩
  · exact List.Perm.cons_inv (a := p) (hg.frames.symm.trans (h.owned.trans (List.Perm.swap ..)))
  · rw [hg.mem]
    exact h.kernel i hi
  · rw [hg.mem]
    exact h.spaces sp hsp

/-- The frames of an address space, held or not. -/
theorem frames_perm (kdir : ℕ) (rest : List ℕ) (sp : Space) (l : List Space) :
    (kdir :: (sp.frames ++ rest ++ l.flatMap Space.frames)).Perm
      (kdir :: (rest ++ (sp :: l).flatMap Space.frames)) := by
  refine List.Perm.cons _ ?_
  rw [List.flatMap_cons, ← List.append_assoc]
  exact List.perm_append_comm.append_right _

/-- Frames that hold an address space become one. -/
theorem adopt (h : PagingInv kdir (sp.frames ++ rest) l s) (hsp : sp.InMem s.mem) :
    PagingInv kdir rest (sp :: l) s where
  ok := h.ok
  owned := h.owned.trans (frames_perm kdir rest sp l)
  kernel := h.kernel
  spaces sp' hsp' := by
    rcases List.mem_cons.1 hsp' with rfl | hmem
    · exact hsp
    · exact h.spaces sp' hmem

/-- An address space is given up; its frames are still allocated. -/
theorem disown (h : PagingInv kdir rest (sp :: l) s) : PagingInv kdir (sp.frames ++ rest) l s where
  ok := h.ok
  owned := h.owned.trans (frames_perm kdir rest sp l).symm
  kernel := h.kernel
  spaces sp' hsp' := h.spaces sp' (List.mem_cons_of_mem _ hsp')

section

variable (h : PagingInv kdir rest l s)

include h

theorem nodup_spaces : (l.flatMap Space.frames).Nodup :=
  (List.nodup_append.1 (List.nodup_cons.1 h.nodup).2).2.1

/-- The page directories are different. -/
theorem nodup_dirs : (l.map Space.dir).Nodup := by
  refine List.pairwise_map.2 ((List.nodup_flatMap.1 h.nodup_spaces).2.imp (fun {a b} hab heq => ?_))
  exact hab a.dir_mem (heq ▸ b.dir_mem)

/-- The frames of a space are distinct. -/
theorem nodup_frames (hsp : sp ∈ l) : sp.frames.Nodup :=
  (List.nodup_flatMap.1 h.nodup_spaces).1 sp hsp

theorem kdir_ne (hsp : sp ∈ l) (hf : f ∈ sp.frames) : kdir ≠ f := by
  intro heq
  refine (List.nodup_cons.1 h.nodup).1 (List.mem_append_right _ (List.mem_flatMap.2 ⟨sp, hsp, ?_⟩))
  rw [heq]
  exact hf

/-- A mapped frame is no page directory and no page table. -/
theorem page_ne (hsp : sp ∈ l) (hf : f ∈ sp.mapped) :
    kdir ≠ f ∧ ∀ sp' ∈ l, sp'.dir ≠ f ∧ sp'.table ≠ f := by
  have hmem := Space.mem_frames hf
  refine ⟨h.kdir_ne hsp hmem, fun sp' hsp' => ?_⟩
  -- a table that is this frame would make both spaces one, which has the frame twice
  have hone : ∀ x ∈ sp'.frames, x = f → sp' = sp := fun x hx heq =>
    owner_unique h.nodup_spaces hsp' hsp hx (heq ▸ hmem)
  have hnd := h.nodup_frames hsp
  rw [Space.frames, List.nodup_cons, List.nodup_cons] at hnd
  constructor
  · intro heq
    obtain rfl := hone _ sp'.dir_mem heq
    exact hnd.1 (heq ▸ List.mem_cons_of_mem _ hf)
  · intro heq
    obtain rfl := hone _ sp'.table_mem heq
    exact hnd.2.1 (heq ▸ hf)

/-- Writing a mapped page changes no table. -/
theorem set_page (hsp : sp ∈ l) (hf : f ∈ sp.mapped) (hm : Mem.SameOff f frameSize s.mem m) :
    PagingInv kdir rest l { s with mem := m } :=
  h.set_mem hm (h.aligned hsp (Space.mem_frames hf)) (h.page_ne hsp hf).1 (h.page_ne hsp hf).2

end

/-- A frame that is held is mapped at a free page. -/
theorem map_page (h : PagingInv kdir (f :: rest) (sp :: l) s) (hi : i < 1024)
    (hnone : sp.pages i = none) :
    PagingInv kdir rest (sp.map i f :: l)
      { s with mem := s.mem.setWord (sp.table + 4 * i) (userEntry f) } := by
  have hne : sp.dir ≠ sp.table := fun heq =>
    (List.nodup_cons.1 (h.nodup_frames (List.mem_cons_self ..))).1 (heq ▸ List.mem_cons_self ..)
  have hsp := h.spaces sp (List.mem_cons_self ..)
  have hdir := h.aligned (List.mem_cons_self ..) sp.dir_mem
  have htab := h.aligned (List.mem_cons_self ..) sp.table_mem
  have hf := h.ok.frame (h.mem_rest (List.mem_cons_self ..))
  have hoff : Mem.SameOff sp.table frameSize s.mem
      (s.mem.setWord (sp.table + 4 * i) (userEntry f)) :=
    (Mem.sameOff_setWord _ _ _).mono (by omega) (by unfold frameSize; omega)
  have hnew : (f :: sp.frames).Perm (sp.map i f).frames := by
    refine (List.Perm.swap ..).trans (List.Perm.cons _ ((List.Perm.swap ..).trans ?_))
    exact List.Perm.cons _ (filterMap_update_perm hi hnone f).symm
  -- give the space up, write its table, and take it back with the new page
  have hset := h.disown.set_rest (List.mem_append_left _ sp.table_mem) hoff
  refine adopt (hset.perm (List.perm_middle.trans (hnew.append_right rest)) (List.Perm.refl l))
    ⟨fun j hj hju => ?_, ?_, fun j hj => ?_⟩
  · exact (word_of_page_ne hoff htab hdir hne hj).trans (hsp.kernel j hj hju)
  · exact (word_of_page_ne hoff htab hdir hne (by decide)).trans hsp.user
  · rw [Space.map_table, Space.map_pages]
    by_cases hji : j = i
    · subst hji
      rw [if_pos rfl, Mem.word_setWord _ _ (userEntry_lt hf.1 hf.2.2)]
      rfl
    · rw [if_neg hji, Mem.word_setWord_of_ne _ _ (by omega)]
      exact hsp.pages j hj

/-- Frames that are held are freed one after another. -/
theorem free_all {fs : List ℕ} (h : PagingInv kdir (fs ++ rest) l s) :
    PagingInv kdir rest l (fs.foldl (fun s f => frameFree f s) s) := by
  induction fs generalizing s with
  | nil => exact h
  | cons f fs ih => exact ih h.gave

end PagingInv

end Inv

/-! ## The functions of `paging.c` -/

section Functions

variable {kdir p i n : ℕ} {rest : List ℕ} {l : List Space} {sp : Space} {s : Phys}

@[simp] theorem frameFree_mem (p : ℕ) (s : Phys) : (frameFree p s).mem = s.mem := by
  unfold frameFree
  simp only
  split_ifs <;> rfl

/-- The loop of `free_user_pages` frees the pages the table maps. -/
theorem freeUserPagesLoop_eq {t : ℕ} {pages : ℕ → Option ℕ} (n i : ℕ)
    (hw : ∀ j, i ≤ j → j < i + n → s.mem.word (t + 4 * j) = pageEntry (pages j))
    (hf : ∀ j, i ≤ j → j < i + n → ∀ f, pages j = some f → f % frameSize = 0) :
    freeUserPagesLoop t n i s
      = ((List.range' i n).filterMap pages).foldl (fun s f => frameFree f s) s := by
  induction n generalizing i s with
  | zero => rfl
  | succ n ih =>
    rw [freeUserPagesLoop, List.range'_succ, List.filterMap_cons, hw i (Nat.le_refl _) (by omega)]
    cases hp : pages i with
    | none =>
      exact ih (i + 1) (fun j h1 h2 => hw j (by omega) (by omega))
        (fun j h1 h2 => hf j (by omega) (by omega))
    | some f =>
      have hal := hf i (Nat.le_refl _) (by omega) f hp
      have hpres : present (userEntry f) = true := present_of_flags (userEntry_flags hal)
      simp only [pageEntry, hpres, if_true, List.foldl_cons, frameOf_userEntry hal]
      refine ih (i + 1) (fun j h1 h2 => ?_) (fun j h1 h2 => hf j (by omega) (by omega))
      rw [frameFree_mem]
      exact hw j (by omega) (by omega)

/-- `free_user_pages` gives back all frames of the space. -/
theorem freeUserPages_inv (h : PagingInv kdir rest (sp :: l) s) :
    PagingInv kdir rest l (freeUserPages sp.dir s) := by
  have hsp := h.spaces sp (List.mem_cons_self ..)
  have htab := h.aligned (List.mem_cons_self ..) sp.table_mem
  have hpres : present (userEntry sp.table) = true := present_of_flags (userEntry_flags htab)
  have hloop := @freeUserPagesLoop_eq s sp.table sp.pages 1024 0
    (fun j _ hj => hsp.pages j (by omega)) (fun j _ hj f hf => h.aligned (List.mem_cons_self ..)
      (Space.mem_frames (Space.mem_mapped.2 ⟨j, by omega, hf⟩)))
  rw [← List.range_eq_range'] at hloop
  rw [freeUserPages, hsp.user]
  simp only [hpres, if_true, frameOf_userEntry htab]
  rw [hloop]
  -- the pages first, then the table and the directory
  exact (h.disown.perm (two_to_back sp.dir sp.table sp.mapped rest)
    (List.Perm.refl l)).free_all.gave.gave

theorem PagingInv.mem_page (h : PagingInv kdir rest l s) (hsp : sp ∈ l) {f : ℕ} (hi : i < 1024)
    (hpage : sp.pages i = some f) : f ∈ sp.mapped ∧ f ∈ s.frames := by
  have hmem : f ∈ sp.mapped := Space.mem_mapped.2 ⟨i, hi, hpage⟩
  exact ⟨hmem, h.mem_space hsp (Space.mem_frames hmem)⟩

/-- Bytes of different pages are at different addresses. -/
theorem page_disjoint {p q k : ℕ} (hp : p % frameSize = 0) (hq : q % frameSize = 0) (hne : q ≠ p)
    (hk : k < frameSize) : ¬ (p ≤ q + k ∧ q + k < p + frameSize) := by
  unfold frameSize at *
  omega

/-- A fresh frame in a free page: the process finds the same bytes as before. -/
theorem PagingInv.pageByte_map (h : PagingInv kdir rest (sp :: l) s) {f j k : ℕ} {s1 : Phys}
    (htook : Took s f s1) (hi : i < 1024) (hnone : sp.pages i = none) (hj : j < 1024)
    (hk : k < frameSize) :
    (sp.map i f).pageByte (s1.mem.setWord (sp.table + 4 * i) (userEntry f)) j k
      = sp.pageByte s.mem j k := by
  have hsp : sp ∈ sp :: l := List.mem_cons_self ..
  have htab := h.aligned hsp sp.table_mem
  have hf := (htook.ok h.ok).frame htook.mem_frames
  have hfresh : ∀ x ∈ s.frames, x ≠ f := fun x hx heq =>
    (List.nodup_cons.1 htook.nodup).1 (heq ▸ hx)
  have hoff : Mem.SameOff sp.table frameSize s1.mem
      (s1.mem.setWord (sp.table + 4 * i) (userEntry f)) :=
    (Mem.sameOff_setWord _ _ _).mono (by omega) (by unfold frameSize; omega)
  have htf := hfresh _ (h.mem_space hsp sp.table_mem)
  unfold Space.pageByte
  rw [Space.map_pages]
  by_cases hji : j = i
  · -- the new page: the frame came zeroed
    rw [if_pos hji, hji, hnone]
    simp only
    rw [hoff _ (page_disjoint htab hf.1 htf.symm hk), htook.mem]
    exact if_pos ⟨by omega, by omega⟩
  · rw [if_neg hji]
    cases hpage : sp.pages j with
    | none => rfl
    | some g =>
      obtain ⟨hmapped, hframes⟩ := h.mem_page hsp hj hpage
      have hg := (h.ok.frame hframes).1
      have hgt := ((h.page_ne hsp hmapped).2 sp hsp).2
      simp only
      rw [hoff _ (page_disjoint htab hg hgt.symm hk), htook.mem]
      exact Mem.sameOff_fill _ _ _ _ _ (page_disjoint hf.1 hg (hfresh g hframes) hk)

/-- The stack loop of `paging_new_user` maps pages of the space as far as frames last. -/
theorem mapStackLoop_inv (n i : ℕ) (h : PagingInv kdir rest (sp :: l) s) (hi : i + n ≤ 1024)
    (hnone : ∀ j, i ≤ j → j < i + n → sp.pages j = none) :
    ∃ b s' sp', mapStackLoop sp.table n i s = (b, s') ∧ PagingInv kdir rest (sp' :: l) s' ∧
      sp'.dir = sp.dir ∧
      (∀ j < 1024, ∀ k < frameSize, sp'.pageByte s'.mem j k = sp.pageByte s.mem j k) ∧
      (b = true → ∀ j, (sp'.pages j).isSome
        = ((sp.pages j).isSome || decide (i ≤ j ∧ j < i + n))) := by
  induction n generalizing i s sp with
  | zero =>
    refine ⟨true, s, sp, rfl, h, rfl, fun _ _ _ _ => rfl, fun _ j => ?_⟩
    rw [decide_eq_false (by omega), Bool.or_false]
  | succ n ih =>
    rw [mapStackLoop]
    rcases frameAlloc_spec h.ok with heq | ⟨f, s1, heq, htook⟩
    · exact ⟨false, s, sp, by rw [heq]; rfl, h, rfl, fun _ _ _ _ => rfl,
        fun hb => absurd hb (by decide)⟩
    · have hf := (htook.ok h.ok).frame htook.mem_frames
      have hmap := (h.took htook).map_page (i := i) (by omega) (hnone i (Nat.le_refl _) (by omega))
      obtain ⟨b, s', sp', hloop, hinv, hdir, hbytes, hsome⟩ := ih (i + 1) hmap (by omega) (fun j h1 h2 => by
        rw [Space.map_pages, if_neg (by omega)]
        exact hnone j (by omega) (by omega))
      refine ⟨b, s', sp', ?_, hinv, hdir, fun j hj k hk => ?_, fun hb j => ?_⟩
      · rw [heq]
        simp only
        rw [if_neg (by omega)]
        exact hloop
      · rw [hbytes j hj k hk]
        exact h.pageByte_map htook (by omega) (hnone i (Nat.le_refl _) (by omega)) hj hk
      · rw [hsome hb j, Space.map_pages]
        split_ifs with hji
        · simp [hji]
        · congr 1
          exact decide_eq_decide.2 (by omega)

/-- `paging_new_user` fails without a trace, or makes a space with the stack pages mapped and
    nothing but zeros in it. -/
theorem pagingNewUser_inv (h : PagingInv kdir rest l s) :
    (∃ s', pagingNewUser kdir s = (0, s') ∧ PagingInv kdir rest l s') ∨
    ∃ sp s', pagingNewUser kdir s = (sp.dir, s') ∧ PagingInv kdir rest (sp :: l) s' ∧
      (∀ j < 1024, ∀ k < frameSize, sp.pageByte s'.mem j k = 0) ∧
      ∀ j < 1024, (sp.pages j).isSome = decide (1024 - userStackPages ≤ j) := by
  unfold pagingNewUser
  rcases frameAlloc_spec h.ok with heq | ⟨d, s1, heq, htook⟩
  · exact Or.inl ⟨s, by rw [heq]; rfl, h⟩
  have hd := (htook.ok h.ok).frame htook.mem_frames
  have hcopy := (h.took htook).set_rest (List.mem_cons_self ..)
    (Mem.sameOff_copy s1.mem d kdir frameSize)
  rw [heq]
  simp only
  rw [if_neg (by omega)]
  rcases frameAlloc_spec hcopy.ok with heq2 | ⟨t, s2, heq2, htook2⟩
  · exact Or.inl ⟨_, by rw [heq2]; rfl, hcopy.gave⟩
  have ht := (htook2.ok hcopy.ok).frame htook2.mem_frames
  have htd := hcopy.took htook2
  have hne : d ≠ t := by
    have hnd := (List.nodup_cons.1 htd.nodup).2
    exact fun heq => (List.nodup_cons.1 hnd).1 (heq ▸ List.mem_cons_self ..)
  have hoff : Mem.SameOff d frameSize s2.mem (s2.mem.setWord (d + 4 * userPde) (userEntry t)) :=
    (Mem.sameOff_setWord _ _ _).mono (by omega) (by
      have : 4 * userPde + 4 ≤ frameSize := by decide
      omega)
  have hset := htd.set_rest (List.mem_cons_of_mem _ (List.mem_cons_self ..)) hoff
  have hfill := Mem.sameOff_fill (s1.mem.copy d kdir frameSize) t 0 frameSize
  -- the new directory is a copy of the kernel's with one more entry, the new table is empty
  have hempty : PagingInv kdir rest (⟨d, t, fun _ => none⟩ :: l)
      { s2 with mem := s2.mem.setWord (d + 4 * userPde) (userEntry t) } := by
    refine PagingInv.adopt (hset.perm ?_ (List.Perm.refl l)) ⟨fun i hi hiu => ?_, ?_, fun i hi => ?_⟩
    · have hnil : (Space.mk d t (fun _ => none)).mapped = [] := by simp [Space.mapped]
      rw [Space.frames, hnil]
      exact List.Perm.swap ..
    · change Mem.word (Mem.setWord _ _ _) (d + 4 * i) = _
      rw [Mem.word_setWord_of_ne _ _ (by omega), htook2.mem, word_of_page_ne hfill ht.1 hd.1 hne hi,
        Mem.word_copy _ (by unfold frameSize; omega)]
      exact (h.took htook).kernel i hi
    · exact Mem.word_setWord _ _ (userEntry_lt ht.1 ht.2.2)
    · change Mem.word (Mem.setWord _ _ _) (t + 4 * i) = _
      rw [word_of_page_ne hoff hd.1 ht.1 hne.symm hi, htook2.mem,
        Mem.word_fill_zero _ (by omega) (by unfold frameSize; omega)]
      rfl
  rw [heq2]
  simp only
  rw [if_neg (by omega)]
  obtain ⟨b, s3, sp, hloop, hinv, hdir, hbytes, hsome⟩ := mapStackLoop_inv userStackPages
    (1024 - userStackPages) hempty (by decide) (fun _ _ _ => rfl)
  rw [hloop]
  cases b with
  | false =>
    refine Or.inl ⟨_, rfl, ?_⟩
    have hfree := freeUserPages_inv hinv
    rwa [hdir] at hfree
  | true =>
    refine Or.inr ⟨sp, s3, by rw [hdir]; rfl, hinv, hbytes, fun j hj => ?_⟩
    rw [hsome rfl j]
    simp only [Option.isSome_none, Bool.false_or]
    exact decide_eq_decide.2 (by unfold userStackPages; omega)

/-- `paging_user_page` answers 0 and does nothing (in the image window only when a page is missing
    and all frames are allocated), or the page has a frame now. The process finds the same bytes as
    before. -/
theorem pagingUserPage_inv (h : PagingInv kdir rest (sp :: l) s) (va : ℕ) :
    (pagingUserPage sp.dir va s = (0, s) ∧ (userBase ≤ va → va < userBase + userImageMax →
      s.frames.length = s.count ∧ sp.pages ((va - userBase) / frameSize) = none)) ∨
    ∃ f s', pagingUserPage sp.dir va s = (f, s') ∧ userBase ≤ va ∧ va < userBase + userImageMax ∧
      PagingInv kdir rest (sp.map ((va - userBase) / frameSize) f :: l) s' ∧ s'.count = s.count ∧
      ∀ j < 1024, ∀ k < frameSize,
        (sp.map ((va - userBase) / frameSize) f).pageByte s'.mem j k = sp.pageByte s.mem j k := by
  have hsp := h.spaces sp (List.mem_cons_self ..)
  have htab := h.aligned (List.mem_cons_self ..) sp.table_mem
  unfold pagingUserPage
  by_cases hrange : va < userBase ∨ userBase + userImageMax ≤ va
  · exact Or.inl ⟨if_pos hrange, fun h1 h2 => absurd hrange (by omega)⟩
  · rw [not_or, Nat.not_lt, Nat.not_le] at hrange
    have hidx : (va - userBase) / frameSize < 1024 := by
      have h2 := hrange.2
      unfold userImageMax userStackPages frameSize userBase at *
      omega
    rw [if_neg (by omega), hsp.user]
    simp only [frameOf_userEntry htab, hsp.pages _ hidx]
    generalize (va - userBase) / frameSize = idx at *
    cases hpage : sp.pages idx with
    | some f =>
      have hf := (h.ok.frame (h.mem_page (List.mem_cons_self ..) hidx hpage).2).1
      have hpres : present (userEntry f) = true := present_of_flags (userEntry_flags hf)
      have hsame : sp.map idx f = sp := by rw [Space.map, ← hpage, Function.update_eq_self]
      simp only [pageEntry, hpres, if_true, frameOf_userEntry hf]
      refine Or.inr ⟨f, s, rfl, hrange.1, hrange.2, ?_⟩
      rw [hsame]
      exact ⟨h, rfl, fun _ _ _ _ => rfl⟩
    | none =>
      have hpres : present (pageEntry none) = false := by decide
      simp only [hpres]
      rcases frameAlloc_cases h.ok with ⟨heq, hfull⟩ | ⟨f, s1, heq, htook⟩
      · exact Or.inl ⟨by rw [heq]; rfl, fun _ _ => ⟨hfull, trivial⟩⟩
      · have hf := (htook.ok h.ok).frame htook.mem_frames
        have hmap := (h.took htook).map_page hidx hpage
        refine Or.inr ⟨f, _, ?_, hrange.1, hrange.2, hmap, htook.count,
          fun j hj k hk => h.pageByte_map htook hidx hpage hj hk⟩
        rw [heq]
        simp only [Bool.false_eq_true, if_false]
        rw [if_neg (by omega), Mem.word_setWord _ _ (userEntry_lt hf.1 hf.2.2), frameOf_userEntry hf.1]

/-- The loop of `paging_init` stores the entries it visits. -/
theorem pagingInitLoop_word (n i : ℕ) (hn : i + n ≤ identityPdes) (m : Mem) (j : ℕ) :
    (pagingInitLoop kdir n i m).word (kdir + 4 * j)
      = if i ≤ j ∧ j < i + n then kernelEntry j else m.word (kdir + 4 * j) := by
  induction n generalizing i m with
  | zero => rw [pagingInitLoop, if_neg (by omega)]
  | succ n ih =>
    have hentry : i <<< 22 ||| pdePs ||| pteW ||| pteP = kernelEntry i := by
      rw [kernelEntry, if_pos (by omega)]
    rw [pagingInitLoop, ih (i + 1) (by omega), hentry]
    by_cases hji : j = i
    · subst hji
      rw [if_neg (by omega), if_pos (by omega), Mem.word_setWord _ _ (kernelEntry_lt j)]
    · rw [Mem.word_setWord_of_ne _ _ (by omega)]
      exact if_congr (by omega) rfl rfl

/-- After a `paging_init` that found a frame, the kernel's page directory is the one frame in
    use. -/
theorem pagingInit_inv (hok : s.Ok) (hnone : s.frames = []) {s' : Phys}
    (hinit : pagingInit s = (kdir, s')) (hne : kdir ≠ 0) : PagingInv kdir [] [] s' := by
  rw [pagingInit] at hinit
  rcases frameAlloc_spec hok with heq | ⟨f, s1, heq, htook⟩
  · rw [heq] at hinit
    exact absurd (Prod.mk.inj hinit).1.symm hne
  · rw [heq] at hinit
    obtain ⟨rfl, rfl⟩ := Prod.mk.inj hinit
    have hframes := htook.frames
    rw [hnone] at hframes
    refine ⟨(htook.ok hok).of_eq rfl rfl, hframes, fun i hi => ?_, fun sp hsp => absurd hsp (by simp)⟩
    change (pagingInitLoop f identityPdes 0 s1.mem).word (f + 4 * i) = _
    rw [pagingInitLoop_word _ _ (by omega)]
    split_ifs with hij
    · rfl
    · rw [htook.mem, Mem.word_fill_zero _ (by omega) (by unfold frameSize; omega), kernelEntry,
        if_neg (by omega)]

end Functions

end OctoOS
