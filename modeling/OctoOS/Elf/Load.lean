import OctoOS.Elf
import OctoOS.Paging.Isolation

set_option autoImplicit false

/-! # What the loader leaves in an address space

The loader always ends, and keeps every frame owned, whatever the image. When it accepts a segment,
the pages of the segment are mapped and the process finds the file bytes there; everything else it
finds as before. A byte of the user window is addressed by its page `j` and its place `k` in it. -/

namespace OctoOS

open Atomic

/-- The address of byte `k` of the `j`-th page of the user window. -/
def windowAddr (j k : ℕ) : ℕ := userBase + j * frameSize + k

/-- What the process finds at `v` once a segment is loaded, where it found `old` before. -/
def Phdr.loaded (image : ℕ → UInt8) (ph : Phdr) (v : ℕ) (old : UInt8) : UInt8 :=
  if ph.vaddr ≤ v ∧ v < ph.vaddr + ph.filesz then image (w32 (ph.offset + (v - ph.vaddr))) else old

/-- A segment that passes the checks of `elf_load`: it lies in the image window. -/
structure Phdr.InWindow (ph : Phdr) : Prop where
  filesz : ph.filesz ≤ ph.memsz
  low : userBase ≤ ph.vaddr
  high : ph.vaddr + ph.memsz ≤ userBase + userImageMax

/-- The address space `sp'` in `s'` is `sp` in `s` with more pages mapped. -/
structure Grown (kdir : ℕ) (rest : List ℕ) (l : List Space) (sp : Space) (s : Phys) (sp' : Space)
    (s' : Phys) : Prop where
  inv : PagingInv kdir rest (sp' :: l) s'
  count : s'.count = s.count
  dir : sp'.dir = sp.dir
  pages : ∀ j, (sp.pages j).isSome → (sp'.pages j).isSome

/-- There are frames for a directory, a table and all pages of one more address space. -/
def Roomy (rest : List ℕ) (l : List Space) (s : Phys) : Prop :=
  rest.length + (l.flatMap Space.frames).length + 1027 ≤ s.count

/-- Every page of the segment is mapped. -/
def Phdr.Mapped (ph : Phdr) (sp : Space) : Prop :=
  ∀ j k, k < frameSize → ph.vaddr ≤ windowAddr j k → windowAddr j k < ph.vaddr + ph.memsz →
    (sp.pages j).isSome

section Segment

variable {kdir : ℕ} {rest : List ℕ} {l : List Space} {sp : Space} {s : Phys} {image : ℕ → UInt8}
  {ph : Phdr} {i j k f : ℕ}

theorem PagingInv.grown (h : PagingInv kdir rest (sp :: l) s) : Grown kdir rest l sp s sp s :=
  ⟨h, rfl, rfl, fun _ hj => hj⟩

theorem Grown.trans {sp1 sp2 : Space} {s1 s2 : Phys} (h : Grown kdir rest l sp s sp1 s1)
    (h' : Grown kdir rest l sp1 s1 sp2 s2) : Grown kdir rest l sp s sp2 s2 :=
  ⟨h'.inv, h'.count.trans h.count, h'.dir.trans h.dir, fun j hj => h'.pages j (h.pages j hj)⟩

theorem Roomy.of_count {s' : Phys} (h : Roomy rest l s) (hc : s'.count = s.count) : Roomy rest l s' := by
  unfold Roomy at *
  rwa [hc]

/-- With a page unmapped and all frames allocated, others hold too many of them. -/
theorem PagingInv.not_roomy (h : PagingInv kdir rest (sp :: l) s) (hfull : s.frames.length = s.count)
    (hi : i < 1024) (hnone : sp.pages i = none) : ¬ Roomy rest l s := by
  have hlen := h.owned.length_eq
  have hmapped : sp.mapped.length < 1024 := by
    have hlt := List.length_filterMap_lt_length_iff_exists.2 ⟨i, List.mem_range.2 hi, hnone⟩
    rwa [List.length_range] at hlt
  rw [List.length_cons, List.length_append, List.flatMap_cons, List.length_append, Space.frames,
    List.length_cons, List.length_cons] at hlen
  unfold Roomy
  omega

theorem inWindow_of_badSegment {size : ℕ} (h : badSegment ph size = false)
    (hm : ph.memsz < 2 ^ 32) : ph.InWindow := by
  simp only [badSegment, Bool.or_eq_false_iff, decide_eq_false_iff_not, Nat.not_lt] at h
  obtain ⟨⟨⟨⟨h1, -⟩, h3⟩, h4⟩, h5⟩ := h
  have hsum : w32 (ph.vaddr + ph.memsz) = ph.vaddr + ph.memsz := by
    unfold w32 at *
    omega
  rw [hsum] at h5
  exact ⟨h1, h3, h5⟩

theorem page_of_windowAddr {va : ℕ} (hal : va % frameSize = 0) (hva : userBase ≤ va)
    (hk : k < frameSize) (hlo : va ≤ windowAddr j k) (hhi : windowAddr j k < va + frameSize) :
    j = (va - userBase) / frameSize := by
  have hub : userBase % frameSize = 0 := by decide
  unfold windowAddr frameSize at *
  omega

theorem Space.pageByte_some {m : Mem} (hpage : sp.pages j = some f) : sp.pageByte m j k = m (f + k) := by
  rw [Space.pageByte, hpage]

/-- A copy into the frame of a mapped page changes the bytes of that page it covers. -/
theorem PagingInv.pageByte_write (h : PagingInv kdir rest (sp :: l) s) (hi : i < 1024)
    (hpage : sp.pages i = some f) {off : ℕ} {data : List UInt8} (hlen : off + data.length ≤ frameSize)
    (hj : j < 1024) (hk : k < frameSize) :
    sp.pageByte (s.mem.write (f + off) data) j k
      = if j = i ∧ off ≤ k ∧ k < off + data.length then data.getD (k - off) 0
        else sp.pageByte s.mem j k := by
  have hsp : sp ∈ sp :: l := List.mem_cons_self ..
  have hf := (h.ok.frame (h.mem_page hsp hi hpage).2).1
  by_cases hji : j = i
  · subst hji
    rw [Space.pageByte_some hpage, Space.pageByte_some hpage, Mem.write]
    split_ifs with h1 h2 h2
    · congr 1
      omega
    · exact absurd ⟨rfl, by omega, by omega⟩ h2
    · exact absurd ⟨by omega, by omega⟩ h1
    · rfl
  · rw [if_neg (fun hc => hji hc.1)]
    cases hpj : sp.pages j with
    | none => rw [Space.pageByte, Space.pageByte, hpj]
    | some g =>
      -- another page of the space has another frame
      have hnd := h.nodup_frames hsp
      rw [Space.frames, List.nodup_cons, List.nodup_cons] at hnd
      have hgf : g ≠ f := fun heq =>
        hji (filterMap_index_unique hnd.2.2 hj hi hpj (heq ▸ hpage))
      have hg := (h.ok.frame (h.mem_page hsp hj hpj).2).1
      rw [Space.pageByte_some hpj, Space.pageByte_some hpj]
      refine Mem.sameOff_write _ _ _ _ (fun hc => page_disjoint hf hg hgf hk ?_)
      omega

theorem length_imageBytes (image : ℕ → UInt8) (off len : ℕ) :
    (imageBytes image off len).length = len := by
  rw [imageBytes, List.length_map, List.length_range]

theorem getD_imageBytes (image : ℕ → UInt8) (off : ℕ) {len k : ℕ} (hk : k < len) :
    (imageBytes image off len).getD k 0 = image (w32 (off + k)) := by
  rw [List.getD_eq_getElem?_getD, imageBytes, List.getElem?_map, List.getElem?_range hk]
  rfl

section

variable (hw : ph.InWindow)

include hw

/-- The copy for one page, with the wrap-arounds that cannot happen removed. -/
theorem loadPage_eq {va : ℕ} (hlt : va < ph.vaddr + ph.memsz) (f : ℕ) :
    loadPage ph va f =
      if max ph.vaddr va < min (va + frameSize) (ph.vaddr + ph.filesz) then do
        let data ← imgLoad (w32 (ph.offset + (max ph.vaddr va - ph.vaddr)))
          (min (va + frameSize) (ph.vaddr + ph.filesz) - max ph.vaddr va)
        frameStore (w32 (f + (max ph.vaddr va - va))) data
      else return () := by
  have hlim : userBase + userImageMax + frameSize < 2 ^ 32 := by decide
  have hhigh := hw.high
  have hfile := hw.filesz
  have hstart : (if ph.vaddr < va then va else ph.vaddr) = max ph.vaddr va := by
    rcases Nat.lt_or_ge ph.vaddr va with hc | hc
    · rw [if_pos hc, Nat.max_eq_right (by omega)]
    · rw [if_neg (by omega), Nat.max_eq_left hc]
  have hstop : (if va + frameSize < ph.vaddr + ph.filesz then va + frameSize else ph.vaddr + ph.filesz)
      = min (va + frameSize) (ph.vaddr + ph.filesz) := by
    rcases Nat.lt_or_ge (va + frameSize) (ph.vaddr + ph.filesz) with hc | hc
    · rw [if_pos hc, Nat.min_eq_left (by omega)]
    · rw [if_neg (by omega), Nat.min_eq_right hc]
  rw [loadPage]
  simp only [w32_eq (x := ph.vaddr + ph.filesz) (by omega), w32_eq (x := va + frameSize) (by omega),
    hstart, hstop]
  rw [sub32_eq (a := max ph.vaddr va) (b := ph.vaddr) (by omega) (by omega),
    sub32_eq (a := max ph.vaddr va) (b := va) (by omega) (by omega)]

/-- One page: the file bytes of the segment that fall into it. -/
theorem loadPage_ends {va : ℕ} (hal : va % frameSize = 0) (hva : userBase ≤ va)
    (hlt : va < ph.vaddr + ph.memsz) (hnext : ph.vaddr < va + frameSize)
    (h : PagingInv kdir rest (sp :: l) s)
    (hpage : sp.pages ((va - userBase) / frameSize) = some f) :
    (loadPage ph va f).Ends (elfHandler image sp.dir) s (fun _ s' =>
      PagingInv kdir rest (sp :: l) s' ∧ s'.count = s.count ∧
      ∀ j < 1024, ∀ k < frameSize, sp.pageByte s'.mem j k
        = if va ≤ windowAddr j k ∧ windowAddr j k < va + frameSize
          then ph.loaded image (windowAddr j k) (sp.pageByte s.mem j k)
          else sp.pageByte s.mem j k) := by
  have hlim : userBase + userImageMax + frameSize < 2 ^ 32 := by decide
  have hhigh := hw.high
  have hfile := hw.filesz
  have hidx : (va - userBase) / frameSize < 1024 ∧
      va = userBase + (va - userBase) / frameSize * frameSize := by
    have hub : userBase % frameSize = 0 := by decide
    have hmax : userImageMax ≤ 1024 * frameSize := by decide
    unfold frameSize at *
    omega
  generalize (va - userBase) / frameSize = i at *
  have hf := h.ok.frame (h.mem_page (List.mem_cons_self ..) hidx.1 hpage).2
  rw [loadPage_eq hw hlt]
  by_cases hcopy : max ph.vaddr va < min (va + frameSize) (ph.vaddr + ph.filesz)
  · rw [if_pos hcopy, w32_eq (x := f + _) (by omega)]
    generalize hlo : max ph.vaddr va = lo at *
    generalize hhi : min (va + frameSize) (ph.vaddr + ph.filesz) = hi at *
    have hdata := length_imageBytes image (w32 (ph.offset + (lo - ph.vaddr))) (hi - lo)
    refine Prog.Ends.step rfl
      (Prog.Ends.perform rfl ⟨?_, rfl, fun j hj k hk => ?_⟩)
    · refine h.set_page (List.mem_cons_self ..) (h.mem_page (List.mem_cons_self ..) hidx.1 hpage).1 ?_
      exact (Mem.sameOff_write _ _ _).mono (by omega) (by rw [hdata]; omega)
    · have hwrite := @PagingInv.pageByte_write _ _ _ _ _ _ _ _ _ h hidx.1 hpage (lo - va) _
        (by rw [hdata]; omega) hj hk
      rw [hdata] at hwrite
      refine hwrite.trans ?_
      -- the bytes written are the file bytes of the segment in this page
      have hin : (j = i ∧ lo - va ≤ k ∧ k < lo - va + (hi - lo)) ↔
          (va ≤ windowAddr j k ∧ windowAddr j k < va + frameSize) ∧
            ph.vaddr ≤ windowAddr j k ∧ windowAddr j k < ph.vaddr + ph.filesz := by
        unfold windowAddr frameSize at *
        omega
      unfold Phdr.loaded
      by_cases hc : j = i ∧ lo - va ≤ k ∧ k < lo - va + (hi - lo)
      · rw [if_pos hc, if_pos (hin.1 hc).1, if_pos (hin.1 hc).2, getD_imageBytes _ _ (by omega)]
        have hplace : lo - ph.vaddr + (k - (lo - va)) = windowAddr j k - ph.vaddr := by
          rw [windowAddr, hc.1]
          omega
        rw [w32_add, Nat.add_assoc, hplace]
      · rw [if_neg hc]
        split_ifs with h1 h2
        · exact absurd (hin.2 ⟨h1, h2⟩) hc
        · rfl
        · rfl
  · rw [if_neg hcopy]
    refine Prog.Ends.pure ⟨h, rfl, fun j _ k _ => ?_⟩
    split_ifs with hv
    · exact (if_neg (by omega)).symm
    · rfl

/-- The page for `va` in the loop of `load_segment`: no frame is left for it, or it is mapped. -/
theorem userPage_cases {va : ℕ} (hva : userBase ≤ va) (hlt : va < ph.vaddr + ph.memsz)
    (h : PagingInv kdir rest (sp :: l) s) :
    (pagingUserPage sp.dir va s = (0, s) ∧ ¬ Roomy rest l s) ∨
    ∃ f s1, pagingUserPage sp.dir va s = (f, s1) ∧ f ≠ 0 ∧
      (sp.map ((va - userBase) / frameSize) f).pages ((va - userBase) / frameSize) = some f ∧
      PagingInv kdir rest (sp.map ((va - userBase) / frameSize) f :: l) s1 ∧ s1.count = s.count ∧
      ∀ j < 1024, ∀ k < frameSize,
        (sp.map ((va - userBase) / frameSize) f).pageByte s1.mem j k = sp.pageByte s.mem j k := by
  have hhigh := hw.high
  have hidx : (va - userBase) / frameSize < 1024 := by
    have hmax : userImageMax ≤ 1024 * frameSize := by decide
    exact Nat.div_lt_of_lt_mul (by omega)
  rcases pagingUserPage_inv h va with ⟨heq, hfull⟩ | ⟨f, s1, heq, -, -, hinv, hcount, hbytes⟩
  · obtain ⟨hall, hnone⟩ := hfull hva (by omega)
    exact Or.inl ⟨heq, h.not_roomy hall hidx hnone⟩
  · have hpage : (sp.map ((va - userBase) / frameSize) f).pages ((va - userBase) / frameSize)
        = some f := by rw [Space.map_pages, if_pos rfl]
    have hpos := (hinv.ok.frame (hinv.mem_page (List.mem_cons_self ..) hidx hpage).2).2.1
    exact Or.inr ⟨f, s1, heq, by omega, hpage, hinv, hcount, hbytes⟩

/-- The loop of `load_segment` from the page at `va` on. -/
theorem loadSegmentLoop_ends (fuel va : ℕ) (hal : va % frameSize = 0) (hva : userBase ≤ va)
    (hnext : ph.vaddr < va + frameSize) (hfuel : ph.vaddr + ph.memsz ≤ va + fuel * frameSize)
    (h : PagingInv kdir rest (sp :: l) s) :
    (loadSegmentLoop ph (fuel + 1) va).Ends (elfHandler image sp.dir) s (fun b s' => ∃ sp' : Space,
      Grown kdir rest l sp s sp' s' ∧ (b = false → ¬ Roomy rest l s) ∧
      (b = true → (∀ j < 1024, ∀ k < frameSize, sp'.pageByte s'.mem j k
          = if va ≤ windowAddr j k then ph.loaded image (windowAddr j k) (sp.pageByte s.mem j k)
            else sp.pageByte s.mem j k) ∧
        ∀ j k, k < frameSize → va ≤ windowAddr j k → windowAddr j k < ph.vaddr + ph.memsz →
          (sp'.pages j).isSome)) := by
  have hlim : userBase + userImageMax + frameSize < 2 ^ 32 := by decide
  have hsum : w32 (ph.vaddr + ph.memsz) = ph.vaddr + ph.memsz := w32_eq (by have := hw.high; omega)
  have hfs : ph.vaddr + ph.filesz ≤ ph.vaddr + ph.memsz := by have := hw.filesz; omega
  -- behind the segment nothing of it is left to do
  have hdone : ∀ (va' : ℕ) (sp : Space) (s : Phys), ¬ va' < ph.vaddr + ph.memsz →
      PagingInv kdir rest (sp :: l) s → (pure true : Elf Bool).Ends (elfHandler image sp.dir) s
        (fun b s' => ∃ sp' : Space, Grown kdir rest l sp s sp' s' ∧ (b = false → ¬ Roomy rest l s) ∧
          (b = true → (∀ j < 1024, ∀ k < frameSize, sp'.pageByte s'.mem j k
              = if va' ≤ windowAddr j k then ph.loaded image (windowAddr j k) (sp.pageByte s.mem j k)
                else sp.pageByte s.mem j k) ∧
            ∀ j k, k < frameSize → va' ≤ windowAddr j k → windowAddr j k < ph.vaddr + ph.memsz →
              (sp'.pages j).isSome)) := by
    intro va' sp s hge h
    refine Prog.Ends.pure ⟨sp, h.grown, fun hb => absurd hb (by decide),
      fun _ => ⟨fun j _ k _ => ?_, fun j k _ h1 h2 => ?_⟩⟩
    · split_ifs with hv
      · exact (if_neg (by omega)).symm
      · rfl
    · omega
  induction fuel generalizing va sp s with
  | zero =>
    rw [loadSegmentLoop, hsum, if_neg (by omega)]
    exact hdone va sp s (by omega) h
  | succ fuel ih =>
    rw [loadSegmentLoop, hsum]
    by_cases hlt : va < ph.vaddr + ph.memsz
    · rw [if_pos hlt]
      rcases userPage_cases hw hva hlt h with ⟨heq, hno⟩ | ⟨f, s1, heq, hf, hpage, hinv, hcount, hbytes⟩
      · refine Prog.Ends.step (congrArg Except.ok heq) ?_
        exact Prog.Ends.pure ⟨sp, h.grown, fun _ => hno, fun hb => absurd hb (by decide)⟩
      · refine Prog.Ends.step (congrArg Except.ok heq) ?_
        rw [if_neg hf, w32_eq (x := va + frameSize) (by have := hw.high; omega)]
        refine (loadPage_ends hw hal hva hlt hnext hinv hpage).bind (fun _ s2 hs2 => ?_)
        obtain ⟨hinv2, hs2count, hcopied⟩ := hs2
        refine (ih (va + frameSize) (by rw [Nat.add_mod_right]; exact hal) (by omega) (by omega)
          (by rw [Nat.succ_mul] at hfuel; omega) hinv2).mono ?_
        rintro b s' ⟨sp', hgrown, hno, hres⟩
        have hcount' : s'.count = s.count := hgrown.count.trans (hs2count.trans hcount)
        refine ⟨sp', ⟨hgrown.inv, hcount', hgrown.dir, fun j hj => hgrown.pages j ?_⟩,
          fun hb hroomy => hno hb (hroomy.of_count (hs2count.trans hcount)),
          fun hb => ⟨fun j hj k hk => ?_, fun j k hk h1 h2 => ?_⟩⟩
        · rw [Space.map_pages]
          split_ifs
          · rfl
          · exact hj
        · rw [(hres hb).1 j hj k hk, hcopied j hj k hk, hbytes j hj k hk]
          split_ifs <;> first | rfl | omega
        · by_cases hv : va + frameSize ≤ windowAddr j k
          · exact (hres hb).2 j k hk hv h2
          · -- the page just mapped
            have hj : j = (va - userBase) / frameSize := page_of_windowAddr hal hva hk h1 (by omega)
            refine hgrown.pages j ?_
            rw [hj, hpage]
            rfl
    · rw [if_neg hlt]
      exact hdone va sp s hlt h

/-- The page of the first byte of a segment. -/
theorem Phdr.InWindow.page :
    userBase ≤ ph.vaddr / frameSize * frameSize ∧
      ph.vaddr < ph.vaddr / frameSize * frameSize + frameSize ∧
      ph.vaddr / frameSize * frameSize ≤ ph.vaddr ∧
      (ph.vaddr / frameSize * frameSize) % frameSize = 0 := by
  have hlow := hw.low
  have hub : userBase % frameSize = 0 := by decide
  unfold frameSize at *
  omega

/-- The rounds of the loop are enough for the pages of a segment. -/
theorem Phdr.InWindow.rounds :
    ph.vaddr + ph.memsz ≤ ph.vaddr / frameSize * frameSize + (pageLoopBound - 1) * frameSize := by
  have hhigh := hw.high
  have hbound : userBase + userImageMax ≤ (pageLoopBound - 1) * frameSize := by decide
  omega

/-- `load_segment` on a segment that passed the checks. -/
theorem loadSegment_ends (h : PagingInv kdir rest (sp :: l) s) :
    (loadSegment ph).Ends (elfHandler image sp.dir) s (fun b s' => ∃ sp' : Space,
      Grown kdir rest l sp s sp' s' ∧ (b = false → ¬ Roomy rest l s) ∧
      (b = true → ph.Mapped sp' ∧ ∀ j < 1024, ∀ k < frameSize,
        sp'.pageByte s'.mem j k = ph.loaded image (windowAddr j k) (sp.pageByte s.mem j k))) := by
  obtain ⟨hbase, hnext, hle, hal⟩ := hw.page
  refine (loadSegmentLoop_ends hw (pageLoopBound - 1) _ hal hbase hnext hw.rounds h).mono ?_
  rintro b s' ⟨sp', hgrown, hno, hres⟩
  refine ⟨sp', hgrown, hno, fun hb => ⟨fun j k hk h1 h2 => ?_, fun j hj k hk => ?_⟩⟩
  · exact (hres hb).2 j k hk (by omega) h2
  · rw [(hres hb).1 j hj k hk]
    split_ifs with hv
    · rfl
    · exact (if_neg (by omega)).symm

end

end Segment

/-! ## The whole image -/

/-- The file header of an image. -/
def imageEhdr (image : ℕ → UInt8) : Ehdr := readEhdr (imageBytes image 0 ehdrSize)

/-- The `i`-th program header of an image. -/
def imagePhdr (image : ℕ → UInt8) (i : ℕ) : Phdr :=
  readPhdr (imageBytes image (phdrOffset (imageEhdr image) i) phdrSize)

/-- The `n` program headers from `i` on. -/
def imagePhdrs (image : ℕ → UInt8) (i n : ℕ) : List Phdr := (List.range' i n).map (imagePhdr image)

/-- What the process finds at `v` once the `PT_LOAD` segments of `phs` are loaded in order. -/
def loadedAll (image : ℕ → UInt8) (phs : List Phdr) (v : ℕ) (old : UInt8) : UInt8 :=
  phs.foldl (fun b ph => if ph.type = ptLoad then ph.loaded image v b else b) old

theorem field_lt (data : List UInt8) (off n : ℕ) : field data off n < 256 ^ n := by
  induction n generalizing off with
  | zero => exact Nat.one_pos
  | succ n ih =>
    have h1 := (data.getD off 0).toNat_lt
    have h2 := ih (off + 1)
    rw [field, Nat.pow_succ]
    omega

theorem field_congr {data data' : List UInt8} {off off' n : ℕ}
    (h : ∀ k < n, data.getD (off + k) 0 = data'.getD (off' + k) 0) : field data off n = field data' off' n := by
  induction n generalizing off off' with
  | zero => rfl
  | succ n ih =>
    have hrest : field data (off + 1) n = field data' (off' + 1) n := ih (fun k hk => by
      rw [Nat.add_assoc, Nat.add_assoc, Nat.add_comm 1 k]
      exact h (k + 1) (by omega))
    rw [field, field, hrest]
    exact congrArg (fun b : UInt8 => b.toNat + 256 * _) (h 0 (by omega))

/-- A field of a header can be read without the rest of it. -/
theorem field_imageBytes (image : ℕ → UInt8) (off a : ℕ) {k n len : ℕ} (hk : k + n ≤ len)
    (ha : a + k + n ≤ phdrSize) : field (imageBytes image (w32 (off + a)) len) k n
      = field (imageBytes image off phdrSize) (a + k) n := by
  refine field_congr (fun i hi => ?_)
  rw [getD_imageBytes _ _ (by omega), getD_imageBytes _ _ (by omega), w32_add]
  congr 2
  omega

theorem imagePhdr_type (image : ℕ → UInt8) (i : ℕ) :
    field (imageBytes image (phdrOffset (imageEhdr image) i) 4) 0 4 = (imagePhdr image i).type := by
  have h := field_imageBytes image (phdrOffset (imageEhdr image) i) 0 (by decide : 0 + 4 ≤ 4) (by decide)
  have hlt : phdrOffset (imageEhdr image) i < 2 ^ 32 := Nat.mod_lt _ (by decide)
  rwa [Nat.add_zero, w32_eq hlt] at h

/-- The fields of a `PT_LOAD` header as `elf_load` reads them. -/
theorem imagePhdr_fields {image : ℕ → UInt8} {i : ℕ} (hload : (imagePhdr image i).type = ptLoad) :
    let place := imageBytes image (w32 (phdrOffset (imageEhdr image) i + 4)) 8
    let sizes := imageBytes image (w32 (phdrOffset (imageEhdr image) i + 16)) 8
    (⟨ptLoad, field place 0 4, field place 4 4, field sizes 0 4, field sizes 4 4⟩ : Phdr) = imagePhdr image i := by
  intro place sizes
  rw [field_imageBytes image _ 4 (by decide) (by decide), field_imageBytes image _ 4 (by decide) (by decide),
    field_imageBytes image _ 16 (by decide) (by decide), field_imageBytes image _ 16 (by decide) (by decide),
    ← hload]
  rfl

/-- The header of a `PT_LOAD` segment, if it passes the checks. -/
theorem checkPhdr_run {image : ℕ → UInt8} {i size d : ℕ} {s : Phys} (hload : (imagePhdr image i).type = ptLoad) :
    (checkPhdr size (phdrOffset (imageEhdr image) i)).run (elfHandler image d) s
      = .ok (if badSegment (imagePhdr image i) size then none else some (imagePhdr image i), s) := by
  have hfields := imagePhdr_fields hload
  rw [checkPhdr, Prog.run_bind]
  change Prog.run _ (if field (imageBytes image _ 8) 4 4 < field (imageBytes image _ 8) 0 4 then _ else _) s = _
  split_ifs with hsizes hbad hbad
  · rfl
  · have hsmall : (imagePhdr image i).memsz < (imagePhdr image i).filesz := by
      rw [← hfields]
      exact hsizes
    exact absurd (by rw [badSegment, decide_eq_true hsmall]; rfl) hbad
  · refine (Prog.run_bind_ok _ rfl _).trans ?_
    simp only [hfields, hbad, if_true]
    rfl
  · refine (Prog.run_bind_ok _ rfl _).trans ?_
    simp only [hfields, hbad]
    rfl

/-- The segments `phs` are loaded: `sp` in `s` became `sp'` in `s'`. -/
structure SegmentsLoaded (image : ℕ → UInt8) (phs : List Phdr) (sp : Space) (s : Phys) (sp' : Space)
    (s' : Phys) : Prop where
  bytes : ∀ j < 1024, ∀ k < frameSize,
    sp'.pageByte s'.mem j k = loadedAll image phs (windowAddr j k) (sp.pageByte s.mem j k)
  segments : ∀ ph ∈ phs, ph.type = ptLoad → ph.InWindow ∧ ph.Mapped sp'

section Image

variable {kdir : ℕ} {rest : List ℕ} {l : List Space} {sp : Space} {s : Phys} {image : ℕ → UInt8}
  {size : ℕ}

/-- The loop of `elf_load` over program headers. -/
theorem elfLoadLoop_ends (n i : ℕ) (h : PagingInv kdir rest (sp :: l) s) :
    (elfLoadLoop (imageEhdr image) size n i).Ends (elfHandler image sp.dir) s (fun b s' =>
      ∃ sp' : Space, Grown kdir rest l sp s sp' s' ∧
        (b = true → SegmentsLoaded image (imagePhdrs image i n) sp s sp' s')) := by
  induction n generalizing i sp s with
  | zero =>
    exact Prog.Ends.pure ⟨sp, h.grown, fun _ => ⟨fun _ _ _ _ => rfl,
      fun ph hph => absurd hph (by simp [imagePhdrs])⟩⟩
  | succ n ih =>
    have hcons : imagePhdrs image i (n + 1) = imagePhdr image i :: imagePhdrs image (i + 1) n := by
      rw [imagePhdrs, List.range'_succ, List.map_cons]
      rfl
    rw [elfLoadLoop, hcons]
    refine Prog.Ends.step rfl ?_
    rw [imagePhdr_type]
    by_cases hload : (imagePhdr image i).type = ptLoad
    · rw [if_neg (not_not.2 hload)]
      refine Prog.Ends.bind_ok (checkPhdr_run hload) ?_
      cases hbad : badSegment (imagePhdr image i) size with
      | true => exact Prog.Ends.pure ⟨sp, h.grown, fun hb => absurd hb (by decide)⟩
      | false =>
        have hw : (imagePhdr image i).InWindow := inWindow_of_badSegment hbad (field_lt _ _ _)
        refine (loadSegment_ends hw h).bind ?_
        rintro c s1 ⟨sp1, hgrown1, -, hres1⟩
        cases c with
        | false => exact Prog.Ends.pure ⟨sp1, hgrown1, fun hb => absurd hb (by decide)⟩
        | true =>
          obtain ⟨hmapped, hbytes⟩ := hres1 rfl
          have hrest := ih (i + 1) hgrown1.inv
          rw [hgrown1.dir] at hrest
          refine hrest.mono ?_
          rintro b s' ⟨sp', hgrown, hres⟩
          refine ⟨sp', hgrown1.trans hgrown, fun hb => ⟨fun j hj k hk => ?_, fun ph hph hty => ?_⟩⟩
          · rw [(hres hb).bytes j hj k hk, hbytes j hj k hk]
            simp only [loadedAll, List.foldl_cons, if_pos hload]
          · rcases List.mem_cons.1 hph with rfl | hph
            · exact ⟨hw, fun j k hk h1 h2 => hgrown.pages j (hmapped j k hk h1 h2)⟩
            · exact (hres hb).segments ph hph hty
    · rw [if_pos hload]
      refine (ih (i + 1) h).mono ?_
      rintro b s' ⟨sp', hgrown, hres⟩
      refine ⟨sp', hgrown, fun hb => ⟨fun j hj k hk => ?_, fun ph hph hty => ?_⟩⟩
      · rw [(hres hb).bytes j hj k hk]
        simp only [loadedAll, List.foldl_cons, if_neg hload]
      · rcases List.mem_cons.1 hph with rfl | hph
        · exact absurd hty hload
        · exact (hres hb).segments ph hph hty

/-- `elf_load` always ends, and what it leaves is an address space of the same page directory. When
    it answers 0, the segments of the image are loaded. -/
theorem elfLoad_ends (image : ℕ → UInt8) (size : ℕ) (h : PagingInv kdir rest (sp :: l) s) :
    (elfLoad size).Ends (elfHandler image sp.dir) s (fun r s' => ∃ sp' : Space,
      Grown kdir rest l sp s sp' s' ∧ ∀ e, r = some e →
        (e = (imageEhdr image).entry ∧ userBase ≤ e ∧ e < userBase + userImageMax) ∧
        SegmentsLoaded image (imagePhdrs image 0 (imageEhdr image).phnum) sp s sp' s') := by
  rw [elfLoad]
  by_cases hsize : size < ehdrSize
  · rw [if_pos hsize]
    exact Prog.Ends.pure ⟨sp, h.grown, fun e he => absurd he (by simp)⟩
  · rw [if_neg hsize]
    refine Prog.Ends.step rfl ?_
    change (elfLoadWith (imageEhdr image) size).Ends _ _ _
    unfold elfLoadWith
    by_cases hident : badIdent (imageEhdr image) = true
    · rw [if_pos hident]
      exact Prog.Ends.pure ⟨sp, h.grown, fun e he => absurd he (by simp)⟩
    rw [if_neg hident]
    by_cases htable : badTable (imageEhdr image) size = true
    · rw [if_pos htable]
      exact Prog.Ends.pure ⟨sp, h.grown, fun e he => absurd he (by simp)⟩
    rw [if_neg htable]
    refine (elfLoadLoop_ends _ 0 h).bind ?_
    rintro c s1 ⟨sp1, hgrown, hres⟩
    cases c with
    | false => exact Prog.Ends.pure ⟨sp1, hgrown, fun e he => absurd he (by simp)⟩
    | true =>
      rw [if_pos rfl]
      split_ifs with hentry
      · exact Prog.Ends.pure ⟨sp1, hgrown, fun e he => absurd he (by simp)⟩
      · refine Prog.Ends.pure ⟨sp1, hgrown, fun e he => ?_⟩
        cases he
        rw [not_or] at hentry
        exact ⟨⟨rfl, Nat.not_lt.1 hentry.1, Nat.not_le.1 hentry.2⟩, hres rfl⟩

end Image

end OctoOS
