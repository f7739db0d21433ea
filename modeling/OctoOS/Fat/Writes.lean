import OctoOS.Fat.Alloc
import OctoOS.Lib.Safe

set_option autoImplicit false

/-! # Which sectors the driver writes

Three kinds of writes: `fat_set` writes sectors of the FAT copies; directory slots and zeroed
clusters are written from `sector_buf`, and file data from a heap block. Only `fat_set` edits
`sector_buf` with one-byte stores, so the monitor `editsFat` tells its writes from the others.
`Fs.Guarded` is partial correctness with `WriteOk` checked at every write; it holds on every disk
and with every pattern of device errors, for functions that are given cluster numbers of the data
area. An invariant `J` of the disk can be carried along. -/

namespace OctoOS

open Atomic

variable {α β : Type}

/-- A one-byte store into `sector_buf` came last. -/
def editsFat : fatSig.Op → Bool → Bool
  | .bufStore _ data, _ => data.length = 1
  | _, _ => false

/-- The operations that write to the disk. -/
def writesDisk : fatSig.Op → Bool
  | .ataWrite _ => true
  | .ataWriteFrom _ _ _ => true
  | _ => false

/-- A sector of the FAT copies. -/
def Fs.InFats (fs : Fs) (lba : ℕ) : Prop :=
  fs.fatLba ≤ lba ∧ lba < fs.fatLba + fs.numFats * fs.fatSectors
  deriving Decidable

/-- A sector of the root area or the data area. -/
def Fs.InAreas (fs : Fs) (ps lba : ℕ) : Prop := fs.rootLba ≤ lba ∧ lba < fs.partLba + ps

/-- `fat_set` writes to the FAT copies, everything else behind them and inside the partition. -/
def WriteOk (fs : Fs) (ps : ℕ) : fatSig.Op → Bool × FatState → Prop
  | .ataWrite lba, gs => if gs.1 then fs.InFats lba else fs.InAreas ps lba
  | .ataWriteFrom lba count _, _ => ∀ k < count, fs.InAreas ps (lba + k)
  | _, _ => True

/-- From every state in `P`, the writes of `p` are as they should be, and it is in `Q` if it
    ends. -/
def Fs.Guarded (fs : Fs) (ps : ℕ) (fails : Faults) (P : FatState → Prop) (p : Fat α)
    (Q : α → FatState → Prop) : Prop :=
  ∀ g st, P st →
    p.Safe ((fatHandler fails).monitor editsFat) (WriteOk fs ps) (fun a gs => Q a gs.2) (g, st)

/-- `p` keeps what `K` says about the disk. -/
def Fs.Guards (fs : Fs) (ps : ℕ) (fails : Faults) (K : Disk → Prop) (p : Fat α) : Prop :=
  fs.Guarded ps fails (fun st => K st.disk) p (fun _ st => K st.disk)

/-- The state shows the volume `v`, and its disk has `J`. -/
def Fs.Shows (fs : Fs) (v : Vol) (J : Disk → Prop) (st : FatState) : Prop := st.vol fs = v ∧ J st.disk

/-- `p` only reads, and its answer has `R`. -/
def Fs.Finds (fs : Fs) (ps : ℕ) (fails : Faults) (v : Vol) (J : Disk → Prop) (p : Fat α)
    (R : α → Prop) : Prop :=
  fs.Guarded ps fails (fs.Shows v J) p (fun a st => fs.Shows v J st ∧ R a)

/-- An invariant of the disk that `fat_set` and writes behind the FAT copies keep. -/
structure Fs.Keeps (fs : Fs) (ps : ℕ) (fails : Faults) (J : Disk → Prop) : Prop where
  fatSet : ∀ c x, fs.IsCluster c → ∀ st b st', J st.disk →
    (fatSet fs c x).run (fatHandler fails) st = .ok (b, st') → J st'.disk
  area : ∀ disk lba sector, J disk → fs.InAreas ps lba → J (Function.update disk lba sector)

/-! ## Rules -/

section Rules

variable {fs : Fs} {ps : ℕ} {fails : Faults} {P P' : FatState → Prop}
  {Q Q' : α → FatState → Prop} {v : Vol} {J : Disk → Prop} {p : Fat α} {R : α → Prop}

theorem Fs.Guarded.pure {a : α} (h : ∀ st, P st → Q a st) : fs.Guarded ps fails P (pure a) Q :=
  fun _ _ hP => Prog.Safe.pure (h _ hP)

theorem Fs.Guarded.bind {f : α → Fat β} {R : β → FatState → Prop} (hp : fs.Guarded ps fails P p Q)
    (hf : ∀ a, fs.Guarded ps fails (Q a) (f a) R) : fs.Guarded ps fails P (p >>= f) R :=
  fun g st hP => (hp g st hP).bind (fun a gs hQ => hf a gs.1 gs.2 hQ)

theorem Fs.Guarded.mono (hp : fs.Guarded ps fails P p Q) (hP : ∀ st, P' st → P st)
    (hQ : ∀ a st, Q a st → Q' a st) : fs.Guarded ps fails P' p Q' :=
  fun g st h => (hp g st (hP st h)).mono (fun a gs => hQ a gs.2)

theorem Fs.Guarded.pre (hp : fs.Guarded ps fails P p Q) (hP : ∀ st, P' st → P st) :
    fs.Guarded ps fails P' p Q := hp.mono hP (fun _ _ h => h)

theorem Fs.Guarded.stop {w : Stop} : fs.Guarded ps fails P (.stop w) Q := fun _ _ _ => Prog.Safe.stop

/-- A fact that does not mention the state may be taken out of the precondition. -/
theorem Fs.Guarded.of_pre {φ : Prop} (h : φ → fs.Guarded ps fails P p Q) :
    fs.Guarded ps fails (fun st => φ ∧ P st) p Q :=
  fun g st hP => h hP.1 g st hP.2

/-- A program that only looks at the disk. -/
theorem Fs.Guarded.of_looks (hp : p.Only FatOp.Looks)
    (h : ∀ st, P st → p.Ends (fatHandler fails) st (fun a st' => st.Looked st' → Q a st')) :
    fs.Guarded ps fails P p Q := by
  intro g st hP
  have hsafe : p.Safe ((fatHandler fails).monitor editsFat) (WriteOk fs ps) (fun _ _ => True) (g, st) :=
    Prog.Safe.of_all (fun o _ ho => by cases o <;> trivial) hp.all (g, st)
  refine (hsafe.and_run (R := fun a gs => Q a gs.2) (fun a gs hrun => ?_)).mono (fun _ _ h => h.2)
  have hrun := Prog.run_of_monitor hrun
  obtain ⟨b, st', hends, hQ⟩ := h st hP
  obtain ⟨rfl, rfl⟩ := Prod.mk.inj (Except.ok.inj (hends.symm.trans hrun))
  exact hQ (looked_of_run (hp.mono fun _ => FatOp.Looks.reads) hends)

/-- An operation that is not a write. -/
theorem Fs.Guarded.perform {o : fatSig.Op} {R : fatSig.Ans o → FatState → Prop}
    (hok : ∀ gs, WriteOk fs ps o gs)
    (hR : ∀ st r st', P st → fatHandler fails o st = .ok (r, st') → R r st') :
    fs.Guarded ps fails P (Atomic.perform o) R :=
  fun _ st hP => Prog.Safe.perform (hok _) (fun r _ ho => hR st r _ hP (Handler.monitor_ok ho).2)

theorem Fs.Finds.pure {a : α} (h : R a) : fs.Finds ps fails v J (pure a) R :=
  Fs.Guarded.pure (fun _ hst => ⟨hst, h⟩)

theorem Fs.Finds.bind {f : α → Fat β} {Q : β → FatState → Prop} (hp : fs.Finds ps fails v J p R)
    (hf : ∀ a, R a → fs.Guarded ps fails (fs.Shows v J) (f a) Q) :
    fs.Guarded ps fails (fs.Shows v J) (p >>= f) Q :=
  Fs.Guarded.bind hp (fun a g st h => hf a h.2 g st h.1)

/-- A search, and what follows when it finds nothing or something. -/
theorem Fs.Finds.search {p : Fat (Option α)} {f : Option α → Fat β} {Q : β → FatState → Prop}
    (hp : fs.Finds ps fails v J p (fun r => ∀ a ∈ r, R a))
    (hnone : fs.Guarded ps fails (fs.Shows v J) (f none) Q)
    (hsome : ∀ a, R a → fs.Guarded ps fails (fs.Shows v J) (f (some a)) Q) :
    fs.Guarded ps fails (fs.Shows v J) (p >>= f) Q := by
  refine hp.bind (fun r hr => ?_)
  cases r with
  | none => exact hnone
  | some a => exact hsome a (hr a rfl)

end Rules

/-! ## What the operations do -/

section Operations

variable {fs : Fs} {ps : ℕ} {fails : Faults} {st st' : FatState} {o : fatSig.Op}

theorem ataRead_cases {lba : ℕ} {b : Bool} (h : fatHandler fails (.ataRead lba) st = .ok (b, st')) :
    (b = false ∧ st' = { st with ataCount := st.ataCount + 1 }) ∨
    (b = true ∧ st' = { st with
      ataCount := st.ataCount + 1, sectorBuf := transfer st.sectorBuf (st.disk lba) }) := by
  simp only [fatHandler] at h
  split_ifs at h
  · cases h
    exact Or.inl ⟨rfl, rfl⟩
  · cases h
    exact Or.inr ⟨rfl, rfl⟩

theorem ataWrite_cases {lba : ℕ} {b : Bool} (h : fatHandler fails (.ataWrite lba) st = .ok (b, st')) :
    (b = false ∧ st' = { st with ataCount := st.ataCount + 1 }) ∨
    (b = true ∧ st' = { st with
      ataCount := st.ataCount + 1
      disk := Function.update st.disk lba (transfer (st.disk lba) st.sectorBuf) }) := by
  simp only [fatHandler] at h
  split_ifs at h
  · cases h
    exact Or.inl ⟨rfl, rfl⟩
  · cases h
    exact Or.inr ⟨rfl, rfl⟩

/-- Every other operation leaves the disk alone. -/
theorem fatHandler_disk {r : fatSig.Ans o} (hw : writesDisk o = false)
    (h : fatHandler fails o st = .ok (r, st')) : st'.disk = st.disk := by
  cases o with
  | ataWrite _ | ataWriteFrom _ _ _ => exact absurd hw Bool.noConfusion
  | ataRead lba =>
    rcases ataRead_cases h with ⟨-, rfl⟩ | ⟨-, rfl⟩ <;> rfl
  | ataReadTo _ _ _ | heapStore _ _ _ =>
    simp only [fatHandler] at h
    split_ifs at h
    cases h
    rfl
  | kmalloc _ | kfree _ =>
    simp only [fatHandler] at h
    split at h
    · cases h
      rfl
    · cases h
  | _ =>
    cases h
    rfl

/-- The other operations keep what is said about the disk. -/
theorem Fs.Guards.perform (hw : writesDisk o = false) (K : Disk → Prop) :
    fs.Guards ps fails K (Atomic.perform o) := by
  refine Fs.Guarded.perform (fun gs => ?_) (fun st r st' h ho => ?_)
  · cases o with
    | ataWrite _ | ataWriteFrom _ _ _ => exact absurd hw Bool.noConfusion
    | _ => trivial
  · rw [fatHandler_disk hw ho]
    exact h

/-- An operation before a result. -/
theorem Fs.Guards.perform_pure (hw : writesDisk o = false) (K : Disk → Prop) (a : α) :
    fs.Guards ps fails K (Atomic.perform o >>= fun _ => pure a) :=
  (Fs.Guards.perform hw K).bind (fun _ => Fs.Guarded.pure (fun _ h => h))

end Operations

/-! ## FAT entries -/

/-- The FAT `F'` is `F`, but that the entry of `c` may have become `x`. -/
def FatChange (c x : UInt16) (F F' : UInt16 → UInt16) : Prop :=
  ∀ c', F' c' = F c' ∨ (c' = c ∧ F' c' = x)

/-- The clusters in `G` are clusters of the data area, and their links stay in `G`. -/
def Fs.LinksIn (fs : Fs) (G : UInt16 → Prop) (F : UInt16 → UInt16) : Prop :=
  ∀ c, G c → fs.IsCluster c ∧ (2 ≤ F c → ¬ isEoc (F c) → G (F c))

/-- The disk has `J`, and the links from `G` stay in `G`. -/
def Fs.Closed (fs : Fs) (J : Disk → Prop) (G : UInt16 → Prop) (disk : Disk) : Prop :=
  J disk ∧ fs.LinksIn G (fs.fatOf disk)

section Entries

variable {fs : Fs} {ps : ℕ} {fails : Faults} {J : Disk → Prop} {G : UInt16 → Prop}
  {F F' F'' : UInt16 → UInt16} {c x : UInt16}

theorem FatChange.refl (c x : UInt16) (F : UInt16 → UInt16) : FatChange c x F F := fun _ => Or.inl rfl

theorem FatChange.trans (h : FatChange c x F F') (h' : FatChange c x F' F'') : FatChange c x F F'' := by
  intro c'
  rcases h' c' with h1 | h1
  · rw [h1]
    exact h c'
  · exact Or.inr h1

theorem fatChange_update (c x : UInt16) (F : UInt16 → UInt16) :
    FatChange c x F (Function.update F c x) := by
  intro c'
  rw [Function.update_apply]
  split_ifs with h
  · exact Or.inr ⟨h, rfl⟩
  · exact Or.inl rfl

/-- A new entry that is no link, or a link into `G`, keeps the links in `G`. -/
theorem Fs.LinksIn.change (h : fs.LinksIn G F) (hch : FatChange c x F F')
    (hx : 2 ≤ x → ¬ isEoc x → G x) : fs.LinksIn G F' := by
  intro c' hc'
  refine ⟨(h c' hc').1, ?_⟩
  rcases hch c' with h1 | ⟨-, h1⟩
  · rw [h1]
    exact (h c' hc').2
  · rw [h1]
    exact hx

/-- A write of the edited sector to one FAT copy. -/
theorem Fs.fatOf_copy (hs : fs.Sane ps) (hc : c.toNat ≤ fs.maxCluster) {f : ℕ} (hf : f < fs.numFats)
    (disk : Disk) : fs.fatOf (Function.update disk (fs.copyLba c f)
        (fatEdit c x (disk (fs.copyLba c f))))
      = if f = 0 then Function.update (fs.fatOf disk) c x else fs.fatOf disk := by
  funext c'
  by_cases hm : c'.toNat ≤ fs.maxCluster
  · have hcopy : fs.fatLba + c'.toNat * 2 / sectorSize = fs.copyLba c' 0 := by
      rw [Fs.copyLba, Nat.zero_mul, Nat.add_zero]
    have hval : ∀ d, fs.fatOf d c' = rd16 (d (fs.copyLba c' 0)) (c'.toNat * 2 % sectorSize) := fun d => by
      rw [Fs.fatOf, if_pos hm, hcopy]
    rw [hval]
    by_cases hsame : fs.copyLba c' 0 = fs.copyLba c f
    · obtain ⟨rfl, hsec⟩ := Fs.copyLba_inj hs hm hc hsame
      rw [if_pos rfl, hsame, Function.update_self, rd16_fatEdit c c' x _ hsec.symm,
        Function.update_apply, hval, hsame]
    · rw [Function.update_of_ne hsame]
      split_ifs with h0
      · rw [Function.update_of_ne (fun heq => hsame (by rw [h0, heq])), hval]
      · exact (hval disk).symm
  · have hne : c' ≠ c := fun heq => hm (by rw [heq]; exact hc)
    have hval : ∀ d, fs.fatOf d c' = 0 := fun d => by rw [Fs.fatOf, if_neg hm]
    split_ifs
    · rw [hval, Function.update_of_ne hne, hval]
    · rw [hval, hval]

theorem Fs.copyLba_inFats (hs : fs.Sane ps) (hc : c.toNat ≤ fs.maxCluster) {f : ℕ}
    (hf : f < fs.numFats) : fs.InFats (fs.copyLba c f) := by
  have h2 := hs.maxFat
  have h3 : (f + 1) * fs.fatSectors ≤ fs.numFats * fs.fatSectors := Nat.mul_le_mul_right _ hf
  rw [Nat.add_mul, Nat.one_mul] at h3
  unfold Fs.InFats Fs.copyLba sectorSize
  omega

/-- The loop of `fat_set` writes to the FAT copies and changes one entry at most. -/
theorem fatSetLoop_guarded (hs : fs.Sane ps) (hc : c.toNat ≤ fs.maxCluster) (x : UInt16)
    (F : UInt16 → UInt16) (n f : ℕ) (hnf : f + n = fs.numFats) :
    fs.Guarded ps fails
      (fun st => FatChange c x F (fs.fatOf st.disk) ∧ (0 < f → fs.fatOf st.disk c = x))
      (fatSetLoop fs c x n f)
      (fun b st => FatChange c x F (fs.fatOf st.disk) ∧ (b = true → fs.fatOf st.disk c = x)) := by
  induction n generalizing f with
  | zero => exact Fs.Guarded.pure (fun st h => ⟨h.1, fun _ => h.2 (by have := hs.numFats; omega)⟩)
  | succ n ih =>
    have hf : f < fs.numFats := by omega
    have hlba : w32 (fs.fatLba + f * fs.fatSectors + c.toNat * 2 / sectorSize) = fs.copyLba c f :=
      Fs.copyLba_w32 hs hc hf
    rw [fatSetLoop, hlba]
    intro g st h
    refine Prog.Safe.step trivial (fun b gs1 ho1 => ?_)
    obtain ⟨-, h1⟩ := Handler.monitor_ok ho1
    rcases ataRead_cases h1 with ⟨rfl, hst1⟩ | ⟨rfl, hst1⟩
    · refine Prog.Safe.pure ?_
      rw [hst1]
      exact ⟨h.1, fun hb => absurd hb (by decide)⟩
    · -- the two stores edit the sector in the buffer
      refine Prog.Safe.step trivial (fun _ gs2 ho2 => ?_)
      obtain ⟨-, h2⟩ := Handler.monitor_ok ho2
      refine Prog.Safe.step trivial (fun _ gs3 ho3 => ?_)
      obtain ⟨hg3, h3⟩ := Handler.monitor_ok ho3
      have hst2 := (Prod.mk.inj (Except.ok.inj h2)).2
      have hst3 := (Prod.mk.inj (Except.ok.inj h3)).2
      have hdisk : gs3.2.disk = st.disk := by rw [← hst3, ← hst2, hst1]
      have hbuf : gs3.2.sectorBuf = fatEdit c x (transfer st.sectorBuf (st.disk (fs.copyLba c f))) := by
        rw [← hst3, ← hst2, hst1]
        rfl
      refine Prog.Safe.step ?_ (fun b gs4 ho4 => ?_)
      · change if gs3.1 = true then fs.InFats (fs.copyLba c f) else _
        rw [hg3]
        exact Fs.copyLba_inFats hs hc hf
      · obtain ⟨-, h4⟩ := Handler.monitor_ok ho4
        rcases ataWrite_cases h4 with ⟨rfl, hst4⟩ | ⟨rfl, hst4⟩
        · refine Prog.Safe.pure ?_
          rw [hst4, hdisk]
          exact ⟨h.1, fun hb => absurd hb (by decide)⟩
        · have hwritten : fs.fatOf gs4.2.disk
              = if f = 0 then Function.update (fs.fatOf st.disk) c x else fs.fatOf st.disk := by
            rw [hst4, hdisk, hbuf, transfer_fatEdit]
            exact Fs.fatOf_copy hs hc hf st.disk
          refine ih (f + 1) (by omega) gs4.1 gs4.2 ?_
          change FatChange c x F (fs.fatOf gs4.2.disk) ∧ (0 < f + 1 → fs.fatOf gs4.2.disk c = x)
          rw [hwritten]
          split_ifs with h0
          · exact ⟨h.1.trans (fatChange_update c x _), fun _ => Function.update_self ..⟩
          · exact ⟨h.1, fun _ => h.2 (by omega)⟩

/-- A new entry that is no link, or one into `G`. -/
theorem fatSet_links (hs : fs.Sane ps) (hJ : fs.Keeps ps fails J) (hc : fs.IsCluster c)
    (hx : 2 ≤ x → ¬ isEoc x → G x) :
    fs.Guarded ps fails (fun st => fs.Closed J G st.disk) (fatSet fs c x)
      (fun b st => fs.Closed J G st.disk ∧ (b = true → fs.fatOf st.disk c = x)) := by
  intro g st h
  have hloop := @fatSetLoop_guarded _ _ fails _ hs hc.2 x (fs.fatOf st.disk) fs.numFats 0
    (Nat.zero_add _) g st ⟨FatChange.refl _ _ _, fun h0 => absurd h0 (Nat.lt_irrefl 0)⟩
  refine (hloop.and_run (R := fun _ gs => J gs.2.disk)
    (fun b gs hrun => hJ.fatSet c x hc st b gs.2 h.1 (Prog.run_of_monitor hrun))).mono ?_
  rintro b gs ⟨⟨hch, hb⟩, hJ'⟩
  exact ⟨⟨hJ', h.2.change hch hx⟩, hb⟩

/-- `fat_get` of a cluster of the data area answers with its entry, or with an end mark. -/
theorem fatGet_guarded (hs : fs.Sane ps) (hc : c.toNat ≤ fs.maxCluster) (P : FatState → Prop)
    (hP : ∀ st st', P st → st'.vol fs = st.vol fs → st'.disk = st.disk → P st') :
    fs.Guarded ps fails P (fatGet fs c)
      (fun r st => P st ∧ (r = clusterEoc ∨ r = fs.fatOf st.disk c)) := by
  refine Fs.Guarded.of_looks (fatGet_looks c) (fun st h => (fatGet_readsFat c st).mono ?_)
  rintro r _ ⟨-, hr, -⟩ ⟨n, buf, rfl⟩
  rw [linkOn_eq_fatOf hs hc] at hr
  exact ⟨hP st _ h rfl rfl, hr⟩

/-- `chain_free` from a cluster in `G`. -/
theorem chainFree_guarded (hs : fs.Sane ps) (hJ : fs.Keeps ps fails J)
    (hc : 2 ≤ c → ¬ isEoc c → G c) :
    fs.Guarded ps fails (fun st => fs.Closed J G st.disk) (chainFree fs c)
      (fun _ st => J st.disk) := by
  unfold chainFree
  generalize clusterLoopBound = fuel
  induction fuel generalizing c with
  | zero => exact Fs.Guarded.stop
  | succ fuel ih =>
    rw [chainFreeLoop]
    by_cases hlink : 2 ≤ c ∧ ¬ isEoc c
    · rw [if_pos hlink]
      have hG := hc hlink.1 hlink.2
      intro g st h
      have hcl := (h.2 c hG).1
      refine (fatGet_guarded hs hcl.2 (fun st => fs.Closed J G st.disk)
        (fun _ _ hP _ hd => by rw [hd]; exact hP) g st h).bind ?_
      rintro next gs1 ⟨h1, hnext⟩
      have hnextG : 2 ≤ next → ¬ isEoc next → G next := by
        rcases hnext with rfl | rfl
        · exact fun _ hne => absurd (by decide : isEoc clusterEoc) hne
        · exact (h1.2 c hG).2
      refine (fatSet_links hs hJ hcl (x := clusterFree)
        (fun h2 => absurd h2 (by decide)) gs1.1 gs1.2 h1).bind ?_
      rintro b gs2 ⟨h3, -⟩
      exact ih hnextG gs2.1 gs2.2 h3
    · rw [if_neg hlink]
      exact Fs.Guarded.pure (fun _ h => h.1)

/-- `cluster_alloc` answers with 0 or with a cluster that it marked as the end of a chain. -/
theorem clusterAlloc_guarded (hs : fs.Sane ps) (hJ : fs.Keeps ps fails J) :
    fs.Guarded ps fails (fun st => fs.Closed J G st.disk) (clusterAlloc fs)
      (fun r st => fs.Closed J G st.disk ∧
        (r = 0 ∨ (fs.IsCluster r ∧ fs.fatOf st.disk r = clusterEoc))) := by
  have hmax := hs.maxReserved
  have hloop : ∀ fuel (c : UInt16), 2 ≤ c.toNat →
      fs.Guarded ps fails (fun st => fs.Closed J G st.disk)
        (clusterAllocLoop fs fuel c)
        (fun r st => fs.Closed J G st.disk ∧
          (r = 0 ∨ (fs.IsCluster r ∧ fs.fatOf st.disk r = clusterEoc))) := by
    intro fuel
    induction fuel with
    | zero => exact fun _ _ => Fs.Guarded.stop
    | succ fuel ih =>
      intro c h2
      rw [clusterAllocLoop]
      by_cases hle : c.toNat ≤ fs.maxCluster
      · rw [if_pos hle]
        refine (fatGet_guarded hs hle _ (fun _ _ hP _ hd => by rw [hd]; exact hP)).bind (fun r => ?_)
        by_cases hfree : r = clusterFree
        · rw [if_pos hfree]
          refine Fs.Guarded.bind (Fs.Guarded.pre (fatSet_links hs hJ ⟨h2, hle⟩ (x := clusterEoc)
            (fun _ hne => absurd (by decide) hne)) (fun _ h => h.1)) (fun b => ?_)
          cases b with
          | true => exact Fs.Guarded.pure (fun st h => ⟨h.1, Or.inr ⟨⟨h2, hle⟩, h.2 rfl⟩⟩)
          | false => exact Fs.Guarded.pure (fun st h => ⟨h.1, Or.inl rfl⟩)
        · rw [if_neg hfree]
          have hnext : (c + 1).toNat = c.toNat + 1 := by
            rw [UInt16.toNat_add]
            exact Nat.mod_eq_of_lt (by change c.toNat + 1 < 65536; omega)
          exact Fs.Guarded.pre (ih (c + 1) (by omega)) (fun _ h => h.1)
      · rw [if_neg hle]
        exact Fs.Guarded.pure (fun st h => ⟨h, Or.inl rfl⟩)
  exact hloop clusterLoopBound 2 (by decide)

end Entries

/-! ## Sectors behind the FAT copies -/

section Areas

variable {fs : Fs} {ps : ℕ} {fails : Faults} {J : Disk → Prop} {G : UInt16 → Prop} {c : UInt16}

/-- Writes behind the FAT copies leave the FAT alone. -/
theorem Fs.fatOf_update_area (hs : fs.Sane ps) {lba : ℕ} (hlba : fs.InAreas ps lba) (disk : Disk)
    (sector : Sector) : fs.fatOf (Function.update disk lba sector) = fs.fatOf disk :=
  Fs.fatOf_congr hs (fun l hl => Function.update_of_ne (by have := hlba.1; omega) _ _)

/-- A write of `sector_buf` that is not one of `fat_set`. -/
theorem ataWrite_area (hJ : fs.Keeps ps fails J) {lba : ℕ} (hlba : fs.InAreas ps lba) {st : FatState}
    (h : J st.disk) : (ataWrite lba).Safe ((fatHandler fails).monitor editsFat) (WriteOk fs ps)
      (fun _ gs => gs.1 = false ∧ J gs.2.disk) (false, st) := by
  refine Prog.Safe.op hlba (fun b gs ho => Prog.Safe.ret ?_)
  obtain ⟨hg, hst⟩ := Handler.monitor_ok ho
  refine ⟨hg, ?_⟩
  rcases ataWrite_cases hst with ⟨-, hst⟩ | ⟨-, hst⟩
  · rw [hst]
    exact h
  · rw [hst]
    exact hJ.area _ _ _ h hlba

/-- A store of more than one byte into `sector_buf`. -/
theorem bufStore_many {Q : Unit → Bool × FatState → Prop} {off : ℕ} {data : Bytes}
    (hlen : data.length ≠ 1) {g : Bool} {st : FatState}
    (hQ : ∀ b, Q () (false, { st with sectorBuf := b })) :
    (bufStore off data).Safe ((fatHandler fails).monitor editsFat) (WriteOk fs ps) Q (g, st) := by
  refine Prog.Safe.op trivial (fun _ gs ho => Prog.Safe.ret ?_)
  obtain ⟨hg, hst⟩ := Handler.monitor_ok ho
  have hst := (Prod.mk.inj (Except.ok.inj hst)).2
  have hgs : gs = (false, { st with sectorBuf := storeBytes st.sectorBuf off data }) := by
    refine Prod.ext ?_ hst.symm
    rw [hg]
    exact decide_eq_false hlen
  rw [hgs]
  exact hQ _

/-- `loc_update` of a location behind the FAT copies. -/
theorem locUpdate_guarded (hJ : fs.Keeps ps fails J) {loc : Loc} (hloc : fs.InAreas ps loc.lba)
    (d : Dirent) : fs.Guards ps fails J (locUpdate loc d) := by
  intro g st h
  unfold locUpdate
  refine Prog.Safe.step trivial (fun b gs1 ho1 => ?_)
  have hd := fatHandler_disk rfl (Handler.monitor_ok ho1).2
  cases b with
  | false =>
    refine Prog.Safe.pure ?_
    change J gs1.2.disk
    rw [hd]
    exact h
  | true =>
    refine Prog.Safe.bind (Q := fun _ gs => gs.1 = false ∧ J gs.2.disk)
      (bufStore_many (by simp) (fun _ => ⟨rfl, by change J gs1.2.disk; rw [hd]; exact h⟩)) ?_
    rintro - ⟨g2, st2⟩ ⟨rfl, hJ2⟩
    exact (ataWrite_area hJ hloc hJ2).mono (fun _ gs h => h.2)

/-- The first sector of a cluster and those behind it. -/
theorem Fs.cluster_inAreas (hs : fs.Sane ps) (hc : fs.IsCluster c) {k : ℕ}
    (hk : k < fs.sectorsPerCluster) : fs.InAreas ps (clusterLba fs c + k) := by
  have hb := Fs.area_bounds hs hc.isArea (k := k) (by
    rw [Fs.areaSectors, if_neg hc.ne_zero]
    exact hk)
  rw [clusterLba_eq hs hc]
  exact hb

/-- Transfers of whole clusters keep what single writes keep. -/
theorem writeSectors_keeps {K : Disk → Prop}
    (hK : ∀ disk lba sector, K disk → fs.InAreas ps lba → K (Function.update disk lba sector))
    (count n lba : ℕ) (data : Bytes) (disk : Disk) (hin : ∀ k < count, fs.InAreas ps (lba + k))
    (h : K disk) : K (writeSectors fails count n lba data disk).2.2 := by
  induction count generalizing n lba data disk with
  | zero => exact h
  | succ count ih =>
    rw [writeSectors]
    split_ifs
    · exact h
    · refine ih _ _ _ _ (fun k hk => ?_) (hK _ _ _ h (hin 0 (Nat.succ_pos _)))
      rw [Nat.add_assoc, Nat.add_comm 1]
      exact hin (k + 1) (by omega)

section

variable (hs : fs.Sane ps) (hJ : fs.Keeps ps fails J)

include hs hJ

theorem ataWriteFrom_guarded (hc : fs.IsCluster c) (data : Bytes) :
    fs.Guards ps fails (fs.Closed J G)
      (ataWriteFrom (clusterLba fs c) fs.sectorsPerCluster data) := by
  intro g st h
  refine Prog.Safe.op (fun k hk => Fs.cluster_inAreas hs hc hk) (fun b gs ho => Prog.Safe.ret ?_)
  have hst := (Prod.mk.inj (Except.ok.inj (Handler.monitor_ok ho).2)).2
  rw [← hst]
  refine writeSectors_keeps (K := fs.Closed J G)
    (fun disk lba sector hK hin => ⟨hJ.area _ _ _ hK.1 hin, ?_⟩) _ _ _ _ _
    (fun k hk => Fs.cluster_inAreas hs hc hk) h
  rw [Fs.fatOf_update_area hs hin]
  exact hK.2

/-- `cluster_zero`. -/
theorem clusterZero_guarded (hc : fs.IsCluster c) : fs.Guards ps fails J (clusterZero fs c) := by
  have hloop : ∀ n s st, s + n ≤ fs.sectorsPerCluster → J st.disk →
      (clusterZeroLoop fs c n s).Safe ((fatHandler fails).monitor editsFat) (WriteOk fs ps)
        (fun _ gs => J gs.2.disk) (false, st) := by
    intro n
    induction n with
    | zero => exact fun s st _ h => Prog.Safe.pure h
    | succ n ih =>
      intro s st hle h
      rw [clusterZeroLoop, Fs.clusterLba_add hs hc (by omega), ← clusterLba_eq hs hc]
      refine (ataWrite_area hJ (Fs.cluster_inAreas hs hc (by omega)) h).bind ?_
      rintro b ⟨g', st'⟩ ⟨rfl, h'⟩
      cases b with
      | false => exact Prog.Safe.pure h'
      | true => exact ih (s + 1) st' (by omega) h'
  intro g st h
  unfold clusterZero
  refine Prog.Safe.bind (Q := fun _ gs => gs.1 = false ∧ J gs.2.disk)
    (bufStore_many (by rw [List.length_replicate]; decide) (fun _ => ⟨rfl, h⟩)) ?_
  rintro - ⟨g', st'⟩ ⟨rfl, h'⟩
  exact hloop fs.sectorsPerCluster 0 st' (Nat.le_of_eq (Nat.zero_add _)) h'

/-- The end of `fat_mkdir`. -/
theorem makeDir_guarded (hc : fs.IsCluster c) {loc : Loc} (hloc : fs.InAreas ps loc.lba)
    (parent : Dirent) (name : Name83) : fs.Guards ps fails J (makeDir fs parent name loc c) := by
  have hstore : ∀ g st off (data : Bytes), data.length ≠ 1 → J st.disk →
      (bufStore off data).Safe ((fatHandler fails).monitor editsFat) (WriteOk fs ps)
        (fun _ gs => gs.1 = false ∧ J gs.2.disk) (g, st) :=
    fun g st off data hlen h => bufStore_many hlen (fun _ => ⟨rfl, h⟩)
  intro g st h
  unfold makeDir
  refine Prog.Safe.bind (hstore g st 0 _ (by rw [List.length_replicate]; decide) h) ?_
  rintro - ⟨g1, st1⟩ ⟨-, h1⟩
  refine Prog.Safe.bind (hstore g1 st1 0 _ (by rw [Dirent.bytes_length]; decide) h1) ?_
  rintro - ⟨g2, st2⟩ ⟨-, h2⟩
  refine Prog.Safe.bind (hstore g2 st2 32 _ (by rw [Dirent.bytes_length]; decide) h2) ?_
  rintro - ⟨g3, st3⟩ ⟨rfl, h3⟩
  have hin : fs.InAreas ps (clusterLba fs c) := by
    have := Fs.cluster_inAreas hs hc hs.spcPos
    rwa [Nat.add_zero] at this
  refine (ataWrite_area hJ hin h3).bind ?_
  rintro b ⟨g4, st4⟩ ⟨-, h4⟩
  cases b with
  | false => exact Prog.Safe.pure h4
  | true => exact (locUpdate_guarded hJ hloc _ g4 st4 h4).bind (fun _ gs h => Prog.Safe.pure h)

/-- The exit `fail` of `chain_write`. -/
theorem chainWriteFail_guarded (buf : ℕ) {first : UInt16} (hfirst : first ≠ 0 → G first) :
    fs.Guarded ps fails (fun st => fs.Closed J G st.disk)
      (chainWriteFail fs buf first) (fun _ st => J st.disk) := by
  have hend : fs.Guards ps fails J (do kfree buf; return (0 : UInt16)) :=
    Fs.Guards.perform_pure rfl J _
  unfold chainWriteFail
  by_cases h0 : first ≠ 0
  · rw [if_pos h0]
    exact (chainFree_guarded hs hJ (fun _ _ => hfirst h0)).bind (fun _ => hend)
  · rw [if_neg h0]
    exact Fs.Guarded.pre hend (fun _ h => h.1)

/-- `chain_write`, for any data, with the chain built so far in `G`. -/
theorem chainWriteLoop_guarded (buf fuel : ℕ) (data : Bytes) {first prev : UInt16}
    (hfirst : first ≠ 0 → G first) (hprev : prev ≠ 0 → G prev) :
    fs.Guarded ps fails (fun st => fs.Closed J G st.disk)
      (chainWriteLoop fs buf fuel data first prev) (fun _ st => J st.disk) := by
  induction fuel generalizing data first prev G with
  | zero => exact Fs.Guarded.stop
  | succ fuel ih =>
    rw [chainWriteLoop]
    by_cases hdata : data = []
    · rw [if_pos hdata]
      exact Fs.Guarded.pre (Fs.Guards.perform_pure rfl J first) (fun _ h => h.1)
    rw [if_neg hdata]
    refine (clusterAlloc_guarded hs hJ).bind (fun c => ?_)
    by_cases hc0 : c = 0
    · rw [if_pos hc0]
      exact (chainWriteFail_guarded hs hJ buf hfirst).pre (fun _ h => h.1)
    rw [if_neg hc0]
    -- the new cluster joins the chain
    let G' : UInt16 → Prop := fun y => G y ∨ y = c
    have hjoin : ∀ st : FatState, fs.Closed J G st.disk ∧
        (c = 0 ∨ (fs.IsCluster c ∧ fs.fatOf st.disk c = clusterEoc)) →
        fs.IsCluster c ∧ fs.Closed J G' st.disk := by
      rintro st ⟨⟨hJ', hlinks⟩, hc⟩
      obtain ⟨hcl, heoc⟩ := hc.resolve_left hc0
      refine ⟨hcl, hJ', fun y hy => ?_⟩
      rcases hy with hy | rfl
      · exact ⟨(hlinks y hy).1, fun h2 he => Or.inl ((hlinks y hy).2 h2 he)⟩
      · refine ⟨hcl, fun _ he => absurd ?_ he⟩
        rw [heoc]
        decide
    have hfirst' : (if first = 0 then c else first) ≠ 0 → G' (if first = 0 then c else first) := by
      intro _
      split_ifs with hf
      · exact Or.inr rfl
      · exact Or.inl (hfirst hf)
    refine Fs.Guarded.pre (Fs.Guarded.of_pre (P := fun st => fs.Closed J G' st.disk) (fun hcl => ?_))
      hjoin
    have hlink : fs.Guards ps fails (fs.Closed J G')
        (if prev ≠ 0 then fatSet fs prev c else pure true : Fat Bool) := by
      by_cases hp : prev ≠ 0
      · rw [if_pos hp]
        intro g st h
        exact (fatSet_links hs hJ (h.2 prev (Or.inl (hprev hp))).1 (fun _ _ => Or.inr rfl) g st h).mono
          (fun _ _ h => h.1)
      · rw [if_neg hp]
        exact Fs.Guarded.pure (fun _ h => h)
    refine hlink.bind (fun linked => ?_)
    cases linked with
    | false => exact chainWriteFail_guarded hs hJ buf hfirst'
    | true =>
      refine (Fs.Guards.perform rfl _).bind (fun _ => ?_)
      refine (ataWriteFrom_guarded hs hJ hcl _).bind (fun b => ?_)
      cases b with
      | false => exact chainWriteFail_guarded hs hJ buf hfirst'
      | true => exact ih (data.drop _) hfirst' (fun _ => Or.inr rfl)

theorem chainWrite_guarded (data : Bytes) : fs.Guards ps fails J (chainWrite fs data) := by
  unfold chainWrite
  by_cases hdata : data = []
  · rw [if_pos hdata]
    exact Fs.Guarded.pure (fun _ h => h)
  rw [if_neg hdata]
  refine (Fs.Guards.perform rfl J).bind (fun (buf : ℕ) => ?_)
  by_cases h0 : buf = 0
  · rw [if_pos h0]
    exact Fs.Guarded.pure (fun _ h => h)
  · rw [if_neg h0]
    exact (chainWriteLoop_guarded (G := fun _ => False) hs hJ buf writeLoopBound data
      (fun h => absurd rfl h) (fun h => absurd rfl h)).pre (fun _ h => ⟨h, fun _ hc => hc.elim⟩)

/-- The end of `fat_write_file`. -/
theorem writeEntry_guarded (data : Bytes) (d : Dirent) {loc : Loc} (hloc : fs.InAreas ps loc.lba) : fs.Guards ps fails J (writeEntry fs data d loc) := by
  unfold writeEntry
  refine (chainWrite_guarded hs hJ data).bind (fun first => ?_)
  by_cases hfail : data ≠ [] ∧ first = 0
  · rw [if_pos hfail]
    exact Fs.Guards.perform_pure rfl J _
  · rw [if_neg hfail]
    exact (locUpdate_guarded hJ hloc _).bind (fun _ => Fs.Guarded.pure (fun _ h => h))

end

end Areas

end OctoOS
