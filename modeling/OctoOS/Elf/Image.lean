import OctoOS.Elf.Load
import OctoOS.Lib.Defined
import Mathlib.Data.Nat.Find

set_option autoImplicit false

/-! # The image in memory, and reads of the image

Two views of `elf_load`. What a process finds in its window after a load that answered 0: the bytes
of its segments and zeros. And which bytes of the image the loader reads: its two sums over header
fields are computed in 32 bits, so a header can pass the checks and lie outside the file. -/

namespace OctoOS

open Atomic

/-- The addresses of a segment. -/
def Phdr.Covers (ph : Phdr) (v : ℕ) : Prop := ph.vaddr ≤ v ∧ v < ph.vaddr + ph.memsz

/-- No address is in two `PT_LOAD` segments. -/
def SegmentsDisjoint (phs : List Phdr) : Prop :=
  phs.Pairwise (fun a b => a.type = ptLoad → b.type = ptLoad → ∀ v, ¬ (a.Covers v ∧ b.Covers v))

section Contents

variable {image : ℕ → UInt8} {phs : List Phdr} {ph : Phdr} {v : ℕ}

theorem Phdr.loaded_of_not_covers (hfile : ph.filesz ≤ ph.memsz) (hv : ¬ ph.Covers v) (old : UInt8) :
    ph.loaded image v old = old := by
  unfold Phdr.Covers at hv
  exact if_neg (by omega)

theorem loadedAll_of_not_covered (hfile : ∀ ph ∈ phs, ph.type = ptLoad → ph.filesz ≤ ph.memsz)
    (hv : ∀ ph ∈ phs, ph.type = ptLoad → ¬ ph.Covers v) (old : UInt8) :
    loadedAll image phs v old = old := by
  induction phs generalizing old with
  | nil => rfl
  | cons a phs ih =>
    have hrest := fun old => ih (fun ph hph => hfile ph (List.mem_cons_of_mem _ hph))
      (fun ph hph => hv ph (List.mem_cons_of_mem _ hph)) old
    rw [loadedAll, List.foldl_cons]
    split_ifs with hload
    · rw [Phdr.loaded_of_not_covers (hfile a (List.mem_cons_self ..) hload)
        (hv a (List.mem_cons_self ..) hload)]
      exact hrest old
    · exact hrest old

/-- With disjoint segments, the one that covers an address decides what is there. -/
theorem loadedAll_of_covered (hfile : ∀ ph ∈ phs, ph.type = ptLoad → ph.filesz ≤ ph.memsz)
    (hdis : SegmentsDisjoint phs) (hph : ph ∈ phs) (hload : ph.type = ptLoad) (hv : ph.Covers v)
    (old : UInt8) : loadedAll image phs v old = ph.loaded image v old := by
  induction phs generalizing old with
  | nil => cases hph
  | cons a phs ih =>
    obtain ⟨hhead, htail⟩ := List.pairwise_cons.1 hdis
    have hfile' := fun ph hph => hfile ph (List.mem_cons_of_mem _ hph)
    rw [loadedAll, List.foldl_cons]
    rcases List.mem_cons.1 hph with rfl | hmem
    · rw [if_pos hload]
      exact loadedAll_of_not_covered hfile' (fun b hb hbl hbv => hhead b hb hload hbl v ⟨hv, hbv⟩) _
    · have hsame : (if a.type = ptLoad then a.loaded image v old else old) = old := by
        split_ifs with ha
        · exact Phdr.loaded_of_not_covers (hfile a (List.mem_cons_self ..) ha)
            (fun hav => hhead ph hmem ha hload v ⟨hav, hv⟩) _
        · rfl
      rw [hsame]
      exact ih hfile' htail hmem old

end Contents

/-- A segment's file range lies inside the file. -/
def Phdr.InFile (ph : Phdr) (size : ℕ) : Prop := ph.offset + ph.filesz ≤ size

theorem windowAddr_eq {v : ℕ} (hlo : userBase ≤ v) :
    windowAddr ((v - userBase) / frameSize) (v % frameSize) = v := by
  have hub : userBase % frameSize = 0 := by decide
  unfold windowAddr frameSize at *
  omega

/-- A byte of a mapped page is where the processor finds it. -/
theorem PagingInv.mem_of_walk {kdir : ℕ} {rest : List ℕ} {l : List Space} {sp : Space} {s : Phys}
    (h : PagingInv kdir rest (sp :: l) s) {v f : ℕ} (hlo : userBase ≤ v) (hhi : v < userStackTop)
    (hpage : sp.pages ((v - userBase) / frameSize) = some f) :
    walk true s.mem sp.dir v = some (f + v % frameSize) ∧
      s.mem (f + v % frameSize) = sp.pageByte s.mem ((v - userBase) / frameSize) (v % frameSize) := by
  constructor
  · rw [h.walk_window (List.mem_cons_self ..) hlo hhi, hpage]
    rfl
  · rw [Space.pageByte_some hpage]

/-- After a load into a fresh address space that answered 0, the window of the process holds the
    segments of the image and zeros. -/
theorem elfLoad_contents {map : List E820Entry} {mem : Mem} {kdir : ℕ} {s0 s1 s2 s3 : Phys}
    {live : List ℕ} {d size e : ℕ} {image : ℕ → UInt8}
    (hinit : pagingInit (frameInit map mem) = (kdir, s0)) (hkdir : kdir ≠ 0)
    (hrun : PagingRun kdir s0 s1 live) (hnew : pagingNewUser kdir s1 = (d, s2)) (hd : d ≠ 0)
    (hsize : size < 2 ^ 32)
    (hfile : ∀ ph ∈ imagePhdrs image 0 (imageEhdr image).phnum, ph.type = ptLoad → ph.InFile size)
    (hdis : SegmentsDisjoint (imagePhdrs image 0 (imageEhdr image).phnum))
    (hload : (elfLoad size).run (elfHandler image d) s2 = .ok (some e, s3)) :
    (∀ ph ∈ imagePhdrs image 0 (imageEhdr image).phnum, ph.type = ptLoad → ∀ v, ph.Covers v →
      ∃ pa, walk true s3.mem d v = some pa ∧ s3.mem pa
        = if v < ph.vaddr + ph.filesz then image (ph.offset + (v - ph.vaddr)) else 0) ∧
    (∀ v < 2 ^ 32, ∀ pa, walk true s3.mem d v = some pa →
      (∀ ph ∈ imagePhdrs image 0 (imageEhdr image).phnum, ph.type = ptLoad → ¬ ph.Covers v) →
      s3.mem pa = 0) ∧
    e = (imageEhdr image).entry ∧ userBase ≤ e ∧ e < userBase + userImageMax := by
  obtain ⟨l, hinv, -⟩ := pagingRun_inv hinit hkdir hrun
  rcases pagingNewUser_inv hinv with ⟨s', heq, -⟩ | ⟨sp, s', heq, hsp, hzero, -⟩
  · exact absurd (Prod.mk.inj (hnew.symm.trans heq)).1 hd
  obtain ⟨rfl, rfl⟩ := Prod.mk.inj (hnew.symm.trans heq)
  obtain ⟨r, s'', hrun', sp', hgrown, hres⟩ := elfLoad_ends image size hsp
  obtain ⟨rfl, rfl⟩ := Prod.mk.inj (Except.ok.inj (hload.symm.trans hrun'))
  obtain ⟨hentry, hloaded⟩ := hres e rfl
  have hfsz : ∀ ph ∈ imagePhdrs image 0 (imageEhdr image).phnum, ph.type = ptLoad →
      ph.filesz ≤ ph.memsz := fun ph hph hty => (hloaded.segments ph hph hty).1.filesz
  have hmax : userBase + userImageMax ≤ userStackTop := by decide
  have hmod : ∀ v, v % frameSize < frameSize := fun v => Nat.mod_lt _ (by decide)
  have hdiv : ∀ v, v < userStackTop → (v - userBase) / frameSize < 1024 := fun v hv =>
    Nat.div_lt_of_lt_mul (by
      have : userStackTop = userBase + frameSize * 1024 := by decide
      omega)
  -- what the process finds is what loading the segments over zeros gives
  have hbyte : ∀ v, userBase ≤ v → v < userStackTop →
      sp'.pageByte s3.mem ((v - userBase) / frameSize) (v % frameSize)
        = loadedAll image (imagePhdrs image 0 (imageEhdr image).phnum) v 0 := fun v hlo hhi => by
    rw [hloaded.bytes _ (hdiv v hhi) _ (hmod v), hzero _ (hdiv v hhi) _ (hmod v), windowAddr_eq hlo]
  rw [← hgrown.dir]
  refine ⟨fun ph hph hty v hv => ?_, fun v hv pa hw hnot => ?_, hentry⟩
  · obtain ⟨hwin, hmapped⟩ := hloaded.segments ph hph hty
    have hlo : userBase ≤ v := Nat.le_trans hwin.low hv.1
    have hhi : v < userStackTop := by
      have h1 := hv.2
      have h2 := hwin.high
      omega
    have hsome := hmapped _ _ (hmod v) (by rw [windowAddr_eq hlo]; exact hv.1)
      (by rw [windowAddr_eq hlo]; exact hv.2)
    obtain ⟨f, hpage⟩ := Option.isSome_iff_exists.1 hsome
    obtain ⟨hwalk, hmem⟩ := hgrown.inv.mem_of_walk hlo hhi hpage
    refine ⟨_, hwalk, ?_⟩
    rw [hmem, hbyte v hlo hhi, loadedAll_of_covered hfsz hdis hph hty hv]
    unfold Phdr.loaded
    have hin := hfile ph hph hty
    unfold Phdr.InFile at hin
    split_ifs with h1 h2 h2
    · rw [w32_eq (by omega)]
    · exact absurd h1.2 h2
    · exact absurd ⟨hv.1, h2⟩ h1
    · rfl
  · obtain ⟨hlo, hhi, hpage, -⟩ := hgrown.inv.walk_some (List.mem_cons_self ..) hv hw
    obtain ⟨hwalk, hmem⟩ := hgrown.inv.mem_of_walk hlo hhi hpage
    rw [Option.some.inj (hw.symm.trans hwalk), hmem, hbyte v hlo hhi, loadedAll_of_not_covered hfsz hnot]

/-- A file header, one `PT_LOAD` header and two bytes of code at 0x40000000. -/
def tinyBytes : List UInt8 :=
  [0x7F, 0x45, 0x4C, 0x46, 1, 1, 1, 0, 0, 0, 0, 0, 0, 0, 0, 0,
    2, 0, 3, 0, 1, 0, 0, 0, 0, 0, 0, 0x40, 52, 0, 0, 0,
    0, 0, 0, 0, 0, 0, 0, 0, 52, 0, 32, 0, 1, 0, 0, 0, 0, 0, 0, 0,
    1, 0, 0, 0, 84, 0, 0, 0, 0, 0, 0, 0x40, 0, 0, 0, 0x40,
    2, 0, 0, 0, 16, 0, 0, 0, 5, 0, 0, 0, 0, 0x10, 0, 0, 0xEB, 0xFE]

def tinyImage : ℕ → UInt8 := fun k => tinyBytes.getD k 0

/-- Its two bytes and the zeros behind them. -/
theorem elfLoad_contents_tiny : ∃ s2 s3, pagingNewUser 0x900000 mediumPhys = (0x901000, s2) ∧
    (elfLoad 86).run (elfHandler tinyImage 0x901000) s2 = .ok (some 0x40000000, s3) ∧
    (∃ pa, walk true s3.mem 0x901000 0x40000001 = some pa ∧ s3.mem pa = 0xFE) ∧
    ∃ pa, walk true s3.mem 0x901000 0x4000000F = some pa ∧ s3.mem pa = 0 := by
  have hends : (elfLoad 86).Ends (elfHandler tinyImage 0x901000) (pagingNewUser 0x900000 mediumPhys).2
      (fun r _ => r = some 0x40000000) := by decide +kernel
  obtain ⟨r, s3, hload, rfl⟩ := hends
  have hphdrs : imagePhdrs tinyImage 0 (imageEhdr tinyImage).phnum
      = [⟨1, 84, 0x40000000, 2, 16⟩] := by decide +kernel
  have hin : (⟨1, 84, 0x40000000, 2, 16⟩ : Phdr) ∈
      imagePhdrs tinyImage 0 (imageEhdr tinyImage).phnum := by
    rw [hphdrs]
    exact List.mem_cons_self ..
  obtain ⟨hseg, -, -⟩ := elfLoad_contents mediumPhys_init (by decide) PagingRun.init
    mediumPhys_newUser (by decide)
    (by decide : 86 < 2 ^ 32) (by
      rw [hphdrs]
      intro ph hph _
      rw [List.mem_singleton.1 hph]
      unfold Phdr.InFile
      decide) (by
      rw [hphdrs]
      exact List.pairwise_singleton _ _) hload
  refine ⟨_, s3, mediumPhys_newUser, hload, ?_, ?_⟩
  · exact hseg _ hin rfl 0x40000001 ⟨by decide, by decide⟩
  · exact hseg _ hin rfl 0x4000000F ⟨by decide, by decide⟩

/-! ## Reads of the image -/

/-- A read outside the file. -/
def ElfOp.Outside (size : ℕ) : ElfOp → Prop
  | .imgLoad off len => size < off + len
  | _ => False

instance ElfOp.decidableOutside (size : ℕ) (o : ElfOp) : Decidable (o.Outside size) := by
  cases o <;> unfold ElfOp.Outside <;> infer_instance

/-- A part of the loader reads nothing outside the file. -/
structure ReadsInside {α : Type} (image : ℕ → UInt8) (size d : ℕ) (p : Elf α) (s : Phys) : Prop where
  clean : p.Clean (elfHandler image d) (fun o _ => ElfOp.Outside size o) s

instance {α : Type} (image : ℕ → UInt8) (size d : ℕ) (p : Elf α) (s : Phys) :
    Decidable (ReadsInside image size d p s) :=
  have hclean : Decidable (p.Clean (elfHandler image d) (fun o _ => ElfOp.Outside size o) s) :=
    @Prog.Clean.decidable _ _ _ _ _ (fun o _ => ElfOp.decidableOutside size o) p s
  @decidable_of_iff _ _ ⟨.mk, (·.clean)⟩ hclean

/-- The file header passes the checks of `elf_load`. -/
def HeaderAccepted (image : ℕ → UInt8) (size : ℕ) : Prop :=
  ehdrSize ≤ size ∧ badIdent (imageEhdr image) = false ∧ badTable (imageEhdr image) size = false

/-- The `i`-th program header is a `PT_LOAD` one that fails its checks. -/
def PhdrRejected (image : ℕ → UInt8) (size i : ℕ) : Prop :=
  (imagePhdr image i).type = ptLoad ∧ badSegment (imagePhdr image i) size = true
  deriving Decidable

/-- The two sums of `elf_load` over header fields do not wrap around: the end of the table, unless a header
    in front of it that is inside the file is rejected; and the end of the file range of each `PT_LOAD`
    header before the first one that is rejected. -/
def NoWrap (image : ℕ → UInt8) (size : ℕ) : Prop :=
  ((imageEhdr image).phoff + (imageEhdr image).phnum * (imageEhdr image).phentsize < 2 ^ 32 ∨
    ∃ n < (imageEhdr image).phnum, PhdrRejected image size n ∧
      (imageEhdr image).phoff + n * (imageEhdr image).phentsize + 24 ≤ size) ∧
  ∀ i < (imageEhdr image).phnum, (∀ j ≤ i, ¬ PhdrRejected image size j) →
    (imagePhdr image i).type = ptLoad → (imagePhdr image i).offset + (imagePhdr image i).filesz < 2 ^ 32

section Reads

variable {α β : Type} {image : ℕ → UInt8} {size d : ℕ} {ph : Phdr} {s : Phys} {p : Elf α}
  {l : List Space} {rest : List ℕ} {sp : Space} {f : α → Elf β} {kdir : ℕ}

theorem readsInside_pure (a : α) : ReadsInside image size d (pure a : Elf α) s := ⟨trivial⟩

theorem ReadsInside.bind (hp : ReadsInside image size d p s)
    (hf : ∀ a s', ReadsInside image size d (f a) s') : ReadsInside image size d (p >>= f) s :=
  ⟨Prog.Clean.bind hp.clean (fun a s' _ => (hf a s').clean)⟩

theorem ReadsInside.bind_ok {a : α} {s' : Phys} (hp : ReadsInside image size d p s)
    (hrun : p.run (elfHandler image d) s = .ok (a, s')) (hf : ReadsInside image size d (f a) s') :
    ReadsInside image size d (p >>= f) s :=
  ⟨Prog.Clean.bind hp.clean (fun b t hb => by
    obtain ⟨rfl, rfl⟩ := Prod.mk.inj (Except.ok.inj (hb.symm.trans hrun))
    exact hf.clean)⟩

theorem ReadsInside.of_bind (h : ReadsInside image size d (p >>= f) s) :
    ReadsInside image size d p s ∧ ∀ a s', p.run (elfHandler image d) s = .ok (a, s') →
      ReadsInside image size d (f a) s' := by
  obtain ⟨hp, hf⟩ := Prog.Clean.of_bind h.clean
  exact ⟨⟨hp⟩, fun a s' hrun => ⟨hf a s' hrun⟩⟩

theorem readsInside_imgLoad {off len : ℕ} {f : List UInt8 → Elf β} :
    ReadsInside image size d (imgLoad off len >>= f) s ↔
      off + len ≤ size ∧ ReadsInside image size d (f (imageBytes image off len)) s := by
  constructor
  · rintro ⟨hin, hf⟩
    exact ⟨Nat.not_lt.1 hin, ⟨hf _ _ rfl⟩⟩
  · rintro ⟨hin, hf⟩
    refine ⟨Prog.Clean.step (Nat.not_lt.2 hin) (fun r s' ho => ?_)⟩
    cases ho
    exact hf.clean

/-- The copies of a segment whose file range is inside the file are inside it. -/
theorem loadSegment_inside (hw : ph.InWindow) (hfile : ph.InFile size) (hsize : size < 2 ^ 32)
    (s : Phys) : ReadsInside image size d (loadSegment ph) s := by
  have hlim : userBase + userImageMax < 2 ^ 32 := by decide
  have hhigh := hw.high
  have hfsz := hw.filesz
  have hsum : w32 (ph.vaddr + ph.memsz) = ph.vaddr + ph.memsz := w32_eq (by omega)
  unfold Phdr.InFile at hfile
  unfold loadSegment
  generalize ph.vaddr / frameSize * frameSize = va
  generalize pageLoopBound = fuel
  refine ⟨Prog.All.clean (P := fun o : elfSig.Op => ¬ ElfOp.Outside size o) (fun _ _ ho => ho)
    (Prog.Only.all ?_) s⟩
  induction fuel generalizing va with
  | zero => rfl
  | succ fuel ih =>
    rw [loadSegmentLoop]
    split_ifs with hlt
    · refine Prog.Only.bind ⟨id, fun _ => trivial⟩ (fun frame => ?_)
      refine Prog.Only.ite (Prog.Only.pure _) (Prog.Only.bind ?_ (fun _ => ih _))
      rw [hsum] at hlt
      rw [loadPage_eq hw hlt]
      split_ifs with hcopy
      · refine Prog.Only.bind ⟨?_, fun _ => trivial⟩ (fun _ => ⟨id, fun _ => trivial⟩)
        rw [w32_eq (by omega)]
        change ¬ size < _ + _
        omega
      · exact Prog.Only.pure _
    · exact Prog.Only.pure _

/-- What is read for the `i`-th program header lies inside the file: its type, and for a `PT_LOAD` header
    the fields up to `p_memsz` and, if it passes the checks, its file range. -/
def PhdrInside (image : ℕ → UInt8) (size i : ℕ) : Prop :=
  phdrOffset (imageEhdr image) i + 4 ≤ size ∧ ((imagePhdr image i).type = ptLoad →
    phdrOffset (imageEhdr image) i + 24 ≤ size ∧
      (badSegment (imagePhdr image i) size = false → (imagePhdr image i).InFile size))

/-- The headers from `i` on, up to the first that is rejected, lie inside the file. -/
def InsideFrom (image : ℕ → UInt8) (size i n : ℕ) : Prop :=
  ∀ k, i ≤ k → k < i + n → (∀ j, i ≤ j → j < k → ¬ PhdrRejected image size j) → PhdrInside image size k

theorem insideFrom_succ (image : ℕ → UInt8) (size i n : ℕ) :
    InsideFrom image size i (n + 1) ↔ PhdrInside image size i ∧
      (¬ PhdrRejected image size i → InsideFrom image size (i + 1) n) := by
  constructor
  · intro h
    refine ⟨h i (Nat.le_refl _) (by omega) (fun j h1 h2 => by omega), fun hi k h1 h2 hj => ?_⟩
    refine h k (by omega) (by omega) (fun j h3 h4 => ?_)
    rcases Nat.eq_or_lt_of_le h3 with rfl | h3
    · exact hi
    · exact hj j h3 h4
  · rintro ⟨hi, hrest⟩ k h1 h2 hj
    rcases Nat.eq_or_lt_of_le h1 with rfl | h1
    · exact hi
    · exact hrest (hj i (Nat.le_refl _) h1) k h1 (by omega) (fun j h3 h4 => hj j (by omega) h4)

theorem checkPhdr_inside {i : ℕ} (hoff : phdrOffset (imageEhdr image) i + 24 ≤ size) (hsize : size < 2 ^ 32) :
    ReadsInside image size d (checkPhdr size (phdrOffset (imageEhdr image) i)) s := by
  rw [checkPhdr, readsInside_imgLoad, w32_eq (by omega)]
  refine ⟨hoff, ?_⟩
  split_ifs
  · exact readsInside_pure _
  · rw [readsInside_imgLoad, w32_eq (by omega)]
    refine ⟨by omega, ?_⟩
    dsimp only
    split_ifs
    · exact readsInside_pure _
    · exact readsInside_pure _

/-- When its headers lie inside the file, the loop of `elf_load` reads nothing outside it. -/
theorem elfLoadLoop_inside (hsize : size < 2 ^ 32) (n i : ℕ) (h : InsideFrom image size i n)
    (s : Phys) : ReadsInside image size d (elfLoadLoop (imageEhdr image) size n i) s := by
  induction n generalizing i s with
  | zero => exact readsInside_pure _
  | succ n ih =>
    obtain ⟨⟨htype, hrange⟩, hrest⟩ := (insideFrom_succ ..).1 h
    rw [elfLoadLoop]
    rw [readsInside_imgLoad, imagePhdr_type]
    refine ⟨htype, ?_⟩
    by_cases hload : (imagePhdr image i).type = ptLoad
    · obtain ⟨hoff, hfile⟩ := hrange hload
      rw [if_neg (not_not.2 hload)]
      refine ReadsInside.bind_ok (checkPhdr_inside hoff hsize) (checkPhdr_run hload) ?_
      cases hbad : badSegment (imagePhdr image i) size with
      | true => exact readsInside_pure _
      | false =>
        have hw : (imagePhdr image i).InWindow := inWindow_of_badSegment hbad (field_lt _ _ _)
        refine (loadSegment_inside hw (hfile hbad) hsize s).bind (fun c s1 => ?_)
        cases c with
        | false => exact readsInside_pure _
        | true => exact ih (i + 1) (hrest (fun hr => by rw [hr.2] at hbad; cases hbad)) s1
    · rw [if_pos hload]
      exact ih (i + 1) (hrest (fun hr => absurd hr.1 hload)) s

/-- With frames for all its pages, a segment whose copies are all inside the file has its file
    range there. -/
theorem loadSegmentLoop_inFile (hw : ph.InWindow) (hsize : size < 2 ^ 32) (fuel va : ℕ)
    (hal : va % frameSize = 0) (hva : userBase ≤ va) (hnext : ph.vaddr < va + frameSize)
    (hfuel : ph.vaddr + ph.memsz ≤ va + fuel * frameSize)
    (hoff : ph.offset + (max ph.vaddr va - ph.vaddr) < 2 ^ 32)
    (hlt : max ph.vaddr va < ph.vaddr + ph.filesz) (h : PagingInv kdir rest (sp :: l) s)
    (hroomy : Roomy rest l s)
    (hc : ReadsInside image size sp.dir (loadSegmentLoop ph (fuel + 1) va) s) : ph.InFile size := by
  have hlim : userBase + userImageMax + frameSize < 2 ^ 32 := by decide
  have hpos : 0 < frameSize := by decide
  have hhigh := hw.high
  have hfsz := hw.filesz
  have hsum : w32 (ph.vaddr + ph.memsz) = ph.vaddr + ph.memsz := w32_eq (by omega)
  induction fuel generalizing va sp s with
  | zero => omega
  | succ fuel ih =>
    have hva' : va < ph.vaddr + ph.memsz := by omega
    rw [loadSegmentLoop, hsum, if_pos hva'] at hc
    rcases userPage_cases hw hva hva' h with ⟨-, hno⟩ | ⟨f, s1, heq, hf, hpage, hinv, hcount, -⟩
    · exact absurd hroomy hno
    have hbody := hc.of_bind.2 f s1 (congrArg Except.ok heq)
    rw [if_neg hf, w32_eq (x := va + frameSize) (by omega)] at hbody
    obtain ⟨hcopy, hnextc⟩ := hbody.of_bind
    obtain ⟨u, s2, hrun, hinv2, hcount2, -⟩ :=
      @loadPage_ends _ _ _ _ _ image _ _ hw _ hal hva hva' hnext hinv hpage
    -- the copy of this page is a read of the image
    rw [loadPage_eq hw hva', if_pos (by omega), w32_eq hoff, readsInside_imgLoad] at hcopy
    have hread := hcopy.1
    unfold Phdr.InFile
    by_cases hlast : ph.vaddr + ph.filesz ≤ va + frameSize
    · omega
    · have hstart : max ph.vaddr va - ph.vaddr + (va + frameSize - max ph.vaddr va)
          = max ph.vaddr (va + frameSize) - ph.vaddr := by omega
      have hcut : min (va + frameSize) (ph.vaddr + ph.filesz) = va + frameSize := by omega
      rw [hcut, Nat.add_assoc, hstart] at hread
      exact ih (va + frameSize) (by rw [Nat.add_mod_right]; exact hal) (by omega) (by omega)
        (by rw [Nat.succ_mul] at hfuel; omega) (by omega) (by omega) hinv2
        (hroomy.of_count (hcount2.trans hcount)) (hnextc u s2 hrun)

/-- A segment that passed the checks and was read inside the file has its file range there. -/
theorem inFile_of_readsInside (hbad : badSegment ph size = false) (hw : ph.InWindow)
    (hoff : ph.offset < 2 ^ 32) (hsize : size < 2 ^ 32) (h : PagingInv kdir rest (sp :: l) s)
    (hroomy : Roomy rest l s) (hc : ReadsInside image size sp.dir (loadSegment ph) s) :
    ph.InFile size := by
  by_cases hempty : ph.filesz = 0
  · simp only [badSegment, hempty, Nat.add_zero, w32_eq hoff, Bool.or_eq_false_iff,
      decide_eq_false_iff_not] at hbad
    unfold Phdr.InFile
    omega
  · obtain ⟨hbase, hnext, hle, hal⟩ := hw.page
    exact loadSegmentLoop_inFile hw hsize (pageLoopBound - 1) _ hal hbase hnext hw.rounds (by omega)
      (by omega) h hroomy hc

/-- With frames for all pages, a loop that reads inside the file finds its headers there. -/
theorem insideFrom_of_readsInside (hsize : size ≤ 2 ^ 32 - 2 ^ 16) (n i : ℕ)
    (h : PagingInv kdir rest (sp :: l) s) (hroomy : Roomy rest l s)
    (hc : ReadsInside image size sp.dir (elfLoadLoop (imageEhdr image) size n i) s) :
    InsideFrom image size i n := by
  induction n generalizing i sp s with
  | zero => exact fun k h1 h2 => absurd h1 (by omega)
  | succ n ih =>
    rw [elfLoadLoop, readsInside_imgLoad, imagePhdr_type] at hc
    obtain ⟨htype, hc⟩ := hc
    rw [insideFrom_succ]
    by_cases hload : (imagePhdr image i).type = ptLoad
    · rw [if_neg (not_not.2 hload)] at hc
      obtain ⟨hcheck, hc⟩ := hc.of_bind
      have hc := hc _ _ (checkPhdr_run hload)
      rw [checkPhdr, readsInside_imgLoad, w32_eq (by omega)] at hcheck
      have hoff : phdrOffset (imageEhdr image) i + 24 ≤ size := hcheck.1
      by_cases hbad : badSegment (imagePhdr image i) size = true
      · exact ⟨⟨htype, fun _ => ⟨hoff, fun hgood => absurd hbad (by rw [hgood]; decide)⟩⟩,
          fun hpass => absurd ⟨hload, hbad⟩ hpass⟩
      · rw [if_neg hbad] at hc
        have hgood := Bool.eq_false_iff.2 hbad
        have hw : (imagePhdr image i).InWindow := inWindow_of_badSegment hgood (field_lt _ _ _)
        obtain ⟨hseg, hnext⟩ := hc.of_bind
        refine ⟨⟨htype, fun _ => ⟨hoff, fun _ => ?_⟩⟩, fun _ => ?_⟩
        · exact inFile_of_readsInside hgood hw (field_lt _ _ _) (by omega) h hroomy hseg
        · obtain ⟨b, s', hrun, sp', hgrown, hno, -⟩ := @loadSegment_ends _ _ _ _ _ image _ hw h
          have hb : b = true := (Bool.not_eq_false b).mp (fun hb => hno hb hroomy)
          have hrest := hnext b s' hrun
          rw [if_pos hb, ← hgrown.dir] at hrest
          exact ih (i + 1) hgrown.inv (hroomy.of_count hgrown.count) hrest
    · rw [if_pos hload] at hc
      exact ⟨⟨htype, fun hc => absurd hc hload⟩, fun _ => ih (i + 1) h hroomy hc⟩

/-! ## Headers inside the file, by their fields -/

theorem phdrOffset_eq {i : ℕ} (h : (imageEhdr image).phoff + i * (imageEhdr image).phentsize < 2 ^ 32) :
    phdrOffset (imageEhdr image) i = (imageEhdr image).phoff + i * (imageEhdr image).phentsize := by
  rw [phdrOffset, w32_eq (x := i * _) (by omega), w32_eq h]

/-- Without wrap-around the checks bound what they are for. -/
theorem NoWrap.insideFrom (hsize : size < 2 ^ 32) (hacc : HeaderAccepted image size)
    (h : NoWrap image size) : InsideFrom image size 0 (imageEhdr image).phnum := by
  obtain ⟨-, -, hok⟩ := hacc
  simp only [badTable, Bool.or_eq_false_iff, decide_eq_false_iff_not, Nat.not_lt] at hok
  have hent : 32 ≤ (imageEhdr image).phentsize := hok.1.1
  obtain ⟨htable, hsegs⟩ := h
  intro k _ hk hreached
  rw [Nat.zero_add] at hk
  have hoff : phdrOffset (imageEhdr image) k + 24 ≤ size := by
    rcases htable with hsum | ⟨n, hn, hrej, hin⟩
    · -- the table ends inside the file
      have hrow := Nat.mul_le_mul_right (imageEhdr image).phentsize (Nat.succ_le_of_lt hk)
      rw [Nat.succ_mul] at hrow
      rw [w32_eq (x := _ * _) (by omega), w32_eq hsum] at hok
      rw [phdrOffset_eq (by omega)]
      omega
    · -- the loader does not get past the rejected header
      have hkn : k ≤ n := Nat.le_of_not_lt (fun hlt => hreached n (Nat.zero_le _) hlt hrej)
      have hrow := Nat.mul_le_mul_right (imageEhdr image).phentsize hkn
      rw [phdrOffset_eq (by omega)]
      omega
  refine ⟨by omega, fun hload => ⟨hoff, fun hgood => ?_⟩⟩
  have hsum := hsegs k hk (fun j hj hr => by
    rcases Nat.eq_or_lt_of_le hj with rfl | hlt
    · rw [hr.2] at hgood
      cases hgood
    · exact hreached j (Nat.zero_le _) hlt hr) hload
  simp only [badSegment, Bool.or_eq_false_iff, decide_eq_false_iff_not, Nat.not_lt, w32_eq hsum] at hgood
  exact hgood.1.1.1.2

/-- Headers that begin inside the file, one entry apart, do not get around the end of the address space. -/
theorem table_no_wrap (hsize : size ≤ 2 ^ 32 - 2 ^ 16) (n : ℕ)
    (h : ∀ i < n, phdrOffset (imageEhdr image) i + 4 ≤ size) :
    (imageEhdr image).phoff + n * (imageEhdr image).phentsize < 2 ^ 32 := by
  have hent : (imageEhdr image).phentsize < 256 ^ 2 := field_lt _ _ _
  induction n with
  | zero =>
    have hoff : (imageEhdr image).phoff < 256 ^ 4 := field_lt _ _ _
    omega
  | succ n ih =>
    have hlast := h n (Nat.lt_succ_self n)
    rw [phdrOffset_eq (ih (fun i hi => h i (by omega)))] at hlast
    rw [Nat.succ_mul]
    omega

/-- Headers inside the file are there without wrap-around. -/
theorem noWrap_of_insideFrom (hsize : size ≤ 2 ^ 32 - 2 ^ 16)
    (h : InsideFrom image size 0 (imageEhdr image).phnum) : NoWrap image size := by
  constructor
  · by_cases hrej : ∃ n, n < (imageEhdr image).phnum ∧ PhdrRejected image size n
    · obtain ⟨hn, hrejected⟩ := Nat.find_spec hrej
      have hreached : ∀ j < Nat.find hrej, ¬ PhdrRejected image size j := fun j hj hr =>
        Nat.find_min hrej hj ⟨by omega, hr⟩
      generalize Nat.find hrej = n at hn hrejected hreached
      have hin : ∀ i ≤ n, PhdrInside image size i := fun i hi =>
        h i (Nat.zero_le _) (by omega) (fun j _ hj => hreached j (by omega))
      have hlast := ((hin n (Nat.le_refl n)).2 hrejected.1).1
      rw [phdrOffset_eq (table_no_wrap hsize n (fun i hi => (hin i (by omega)).1))] at hlast
      exact Or.inr ⟨n, hn, hrejected, hlast⟩
    · left
      exact table_no_wrap hsize _ (fun i hi =>
        (h i (Nat.zero_le _) (by omega) (fun j _ hj hr => hrej ⟨j, by omega, hr⟩)).1)
  · intro i hi hpass hload
    have hinside := h i (Nat.zero_le _) (by omega) (fun j _ hj => hpass j (by omega))
    have hfile := (hinside.2 hload).2 (by simpa [PhdrRejected, hload] using hpass i (Nat.le_refl i))
    unfold Phdr.InFile at hfile
    omega

/-- `elf_load` reads nothing outside the file when its sums over header fields do not wrap around; with
    frames for all pages, only then. -/
theorem elfLoad_reads_inside_iff (image : ℕ → UInt8) (size : ℕ) (hsize : size < 2 ^ 32) :
    ((HeaderAccepted image size → NoWrap image size) → ∀ d s, ReadsInside image size d (elfLoad size) s) ∧
    (size ≤ 2 ^ 32 - 2 ^ 16 → ∀ kdir rest l sp s, PagingInv kdir rest (sp :: l) s → Roomy rest l s →
      ReadsInside image size sp.dir (elfLoad size) s → HeaderAccepted image size → NoWrap image size) := by
  refine ⟨fun hnowrap d s => ?_, fun hgap kdir rest l sp s h hroomy hc hacc => ?_⟩
  · rw [elfLoad]
    by_cases hlen : size < ehdrSize
    · rw [if_pos hlen]
      exact readsInside_pure _
    rw [if_neg hlen, readsInside_imgLoad]
    refine ⟨by omega, ?_⟩
    change ReadsInside image size d (elfLoadWith (imageEhdr image) size) s
    rw [elfLoadWith]
    by_cases hident : badIdent (imageEhdr image) = true
    · rw [if_pos hident]
      exact readsInside_pure _
    by_cases hbad : badTable (imageEhdr image) size = true
    · rw [if_neg hident, if_pos hbad]
      exact readsInside_pure _
    rw [if_neg hident, if_neg hbad]
    have hacc : HeaderAccepted image size :=
      ⟨Nat.not_lt.1 hlen, Bool.eq_false_iff.2 hident, Bool.eq_false_iff.2 hbad⟩
    refine (elfLoadLoop_inside hsize _ 0 ((hnowrap hacc).insideFrom hsize hacc) s).bind (fun b s' => ?_)
    cases b with
    | false => exact readsInside_pure _
    | true =>
      rw [if_pos rfl]
      split_ifs
      · exact readsInside_pure _
      · exact readsInside_pure _
  · obtain ⟨hlen, hident, hbad⟩ := hacc
    rw [elfLoad, if_neg (Nat.not_lt.2 hlen), readsInside_imgLoad] at hc
    have hwith : ReadsInside image size sp.dir (elfLoadWith (imageEhdr image) size) s := hc.2
    rw [elfLoadWith, if_neg (by rw [hident]; decide), if_neg (by rw [hbad]; decide)] at hwith
    exact noWrap_of_insideFrom hgap (insideFrom_of_readsInside hgap _ 0 h hroomy hwith.of_bind.1)

/-- The header of `tinyImage` is read where it is. -/
theorem elfLoad_reads_inside_tiny : HeaderAccepted tinyImage 86 ∧ NoWrap tinyImage 86 ∧
    ReadsInside tinyImage 86 0x901000 (elfLoad 86) (pagingNewUser 0x900000 mediumPhys).2 := by
  have hnowrap : NoWrap tinyImage 86 :=
    ⟨Or.inl (by decide +kernel), fun i hi _ _ => by
      obtain rfl : i = 0 := Nat.lt_one_iff.1 hi
      decide +kernel⟩
  exact ⟨⟨by decide, by decide +kernel, by decide +kernel⟩, hnowrap,
    (elfLoad_reads_inside_iff tinyImage 86 (by decide)).1 (fun _ => hnowrap) _ _⟩

/-- The file header of `tinyImage` with `e_phoff = 0xFFFFFFE0`, and nothing behind it. -/
def wrapBytes : List UInt8 :=
  [0x7F, 0x45, 0x4C, 0x46, 1, 1, 1, 0, 0, 0, 0, 0, 0, 0, 0, 0,
    2, 0, 3, 0, 1, 0, 0, 0, 0, 0, 0, 0x40, 0xE0, 0xFF, 0xFF, 0xFF,
    0, 0, 0, 0, 0, 0, 0, 0, 52, 0, 32, 0, 1, 0, 0, 0, 0, 0, 0, 0]

def wrapImage : ℕ → UInt8 := fun k => wrapBytes.getD k 0

/-- The table ends at 2^32, which is 0: `elf_load` looks for it below the image, and answers 0. -/
theorem elfLoad_reads_below_image :
    ¬ ReadsInside wrapImage 52 0x901000 (elfLoad 52) (pagingNewUser 0x900000 mediumPhys).2 ∧
    (elfLoad 52).Ends (elfHandler wrapImage 0x901000) (pagingNewUser 0x900000 mediumPhys).2
      (fun r _ => r = some 0x40000000) := by
  constructor
  · decide +kernel
  · decide +kernel

end Reads

end OctoOS
