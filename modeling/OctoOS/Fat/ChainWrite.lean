import OctoOS.Fat.ChainFree
import OctoOS.Fat.Contained
import OctoOS.Fat.Read
import OctoOS.Fat.Success

set_option autoImplicit false

/-! # `chain_write` is all or nothing

What `chain_write` does to the bytes of the FAT copies. Equal copies stay equal, and bytes that are
no entry of a cluster of the data area are never written; so the copies are, byte for byte, what the
FAT of the volume says, and the results of `Alloc.lean` carry over to the disk. -/

namespace OctoOS

open Atomic Tiling Linked

/-- In the FAT copies `d'` is `d`, byte for byte, except in the entries of the clusters `F`. -/
def Fs.SameFat (fs : Fs) (F : UInt16 → Prop) (d d' : Disk) : Prop :=
  ∀ f < fs.numFats, ∀ k < fs.fatSectors, ∀ i < sectorSize,
    ¬ EntryBytes fs F (fs.fatLba + f * fs.fatSectors + k) i →
      d' (fs.fatLba + f * fs.fatSectors + k) i = d (fs.fatLba + f * fs.fatSectors + k) i

/-- A callback of `file_stream` that keeps what it is given. -/
def collect (got data : Bytes) : Fat Bytes := return got ++ data

section Bytes

variable {fs : Fs} {ps : ℕ} {d d' : Disk}

/-- `fat_set` writes the entry of its cluster, everything else behind the FAT copies. -/
theorem Fs.keeps_sameFat (hs : fs.Sane ps) (d : Disk) :
    fs.Keeps ps noFaults (fs.SameFat fs.IsCluster d) where
  fatSet c x hc st b st' hsame hrun := by
    obtain ⟨hin, hout⟩ := fatSet_disk hs hc.2 hrun
    intro f hf k hk i hi hnot
    have hkeep : st'.disk (fs.fatLba + f * fs.fatSectors + k) i
        = st.disk (fs.fatLba + f * fs.fatSectors + k) i := by
      by_cases hcopy : ∃ j < fs.numFats, fs.fatLba + f * fs.fatSectors + k = fs.copyLba c j
      · obtain ⟨j, hj, hlba⟩ := hcopy
        have hbyte : ¬ (i = c.toNat * 2 % sectorSize ∨ i = c.toNat * 2 % sectorSize + 1) :=
          fun hoff => hnot ⟨j, hj, c, hc, by rw [Fs.copyLba_w32 hs hc.2 hj, hlba], hoff⟩
        rw [not_or] at hbyte
        rw [hlba, hin j hj, fatEdit_of_ne _ _ _ hbyte.1 hbyte.2]
      · rw [hout _ (fun j hj heq => hcopy ⟨j, hj, heq⟩)]
    rw [hkeep]
    exact hsame f hf k hk i hi hnot
  area disk lba sector hsame hlba := by
    intro f hf k hk i hi hnot
    have hne : fs.fatLba + f * fs.fatSectors + k ≠ lba := by
      have h1 := hs.fatsLe
      have h2 := hlba.1
      have h3 : (f + 1) * fs.fatSectors ≤ fs.numFats * fs.fatSectors := Nat.mul_le_mul_right _ hf
      rw [Nat.add_mul, Nat.one_mul] at h3
      omega
    rw [Function.update_of_ne hne]
    exact hsame f hf k hk i hi hnot

theorem rd16_inj {s t : Sector} {i : ℕ} (h : rd16 s i = rd16 t i) :
    s i = t i ∧ s (i + 1) = t (i + 1) := by
  have hs0 := (s i).toNat_lt
  have hs1 := (s (i + 1)).toNat_lt
  have ht0 := (t i).toNat_lt
  have ht1 := (t (i + 1)).toNat_lt
  have heq := congrArg UInt16.toNat h
  simp only [rd16, UInt16.toNat_ofNat'] at heq
  exact ⟨UInt8.toNat_inj.1 (by omega), UInt8.toNat_inj.1 (by omega)⟩

/-- Copies that are equal before and after differ in the entries only that differ in the first. -/
theorem Fs.SameFat.of_entries (hs : fs.Sane ps) (h : fs.SameFat fs.IsCluster d d')
    (hsync : fs.InSync d) (hsync' : fs.InSync d') {F : UInt16 → Prop}
    (hfat : ∀ c, fs.IsCluster c → ¬ F c → fs.fatOf d' c = fs.fatOf d c) : fs.SameFat F d d' := by
  intro f hf k hk i hi hnot
  by_cases hE : EntryBytes fs fs.IsCluster (fs.fatLba + f * fs.fatSectors + k) i
  · obtain ⟨f', hf', c, hc, hlba, hoff⟩ := hE
    have hF : ¬ F c := fun hF => hnot ⟨f', hf', c, hF, hlba, hoff⟩
    rw [Fs.copyLba_w32 hs hc.2 hf'] at hlba
    have hmax := hs.maxFat
    have hcm := hc.2
    obtain ⟨-, hsec⟩ : f = f' ∧ k = c.toNat * 2 / sectorSize := by
      apply mul_add_inj (n := fs.fatSectors) _ hk
      · unfold sectorSize
        omega
      · unfold Fs.copyLba at hlba
        omega
    have hentry := hfat c hc hF
    rw [Fs.fatOf, Fs.fatOf, if_pos hc.2, if_pos hc.2, ← hsec] at hentry
    obtain ⟨h0, h1⟩ := rd16_inj hentry
    rw [hsync f hf k hk i hi, hsync' f hf k hk i hi]
    rcases hoff with rfl | rfl
    · exact h0
    · exact h1
  · exact h f hf k hk i hi hE

end Bytes

section Stream

variable {fs : Fs} {ps : ℕ} {v v' : Vol} {data : Bytes} {cs : List UInt16}

/-- What was written to a chain is what `file_stream` delivers. -/
theorem Vol.Wrote.stream (hs : fs.Sane ps) (hw : v.Wrote fs v' data cs) (hne : cs ≠ [])
    {l : List Blk} (hl : v'.heap = some l) (hok : BlockList l)
    (hbuf : (kmallocBlocks fs.clusterBytes l).1 ≠ 0) {e : Dirent} (hc : e.clusterLo = cs.headD 0)
    (hsize : e.size.toNat = data.length) :
    fs.Yields (fileStream fs e collect []) v' (some data) v' := by
  have hlinks := hw.links hne
  have hchain := Vol.chain_eq_of_links hs hlinks
  have hhead : fs.IsCluster (cs.headD 0) := hlinks.ok_of_mem (hlinks.mem_self hne)
  have hcover : data.length ≤ cs.length * fs.clusterBytes :=
    (Fs.clustersFor_le_iff hs).1 (le_of_eq hw.length.symm)
  have hy : fs.Yields (fileStream fs e collect []) v' (some
      ((v'.pieces fs e.size.toNat (v'.chain fs e.clusterLo)).foldl (fun got data => got ++ data) []))
      v' := by
    apply fileStream_yields (P := fun _ _ => True) hs hl hok hbuf
    · exact fun got n chunk _ _ => ⟨Fs.Yields.pure _, trivial⟩
    · trivial
    · intro _
      rw [hc]
      exact ⟨hhead, by rw [hchain]; exact hlinks⟩
    · rw [hc, hchain, hsize]
      exact hcover
  rw [hc, hchain, hsize, foldl_append_pieces, List.nil_append, hw.data] at hy
  exact hy

end Stream

/-- `data` was stored in a chain from `c` on. -/
structure Stored (fs : Fs) (data : Bytes) (st st' : FatState) (c : UInt16) (cs : List UInt16) :
    Prop where
  length : cs.length = fs.clustersFor data.length
  nodup : cs.Nodup
  free : ∀ x ∈ cs, fs.IsCluster x ∧ fs.fatOf st.disk x = clusterFree
  links : Links (fs.fatOf st'.disk) fs.IsCluster (fun x => x = clusterEoc) c cs
  others : fs.SameFat (fun x => x ∈ cs) st.disk st'.disk
  /-- `file_stream` from `c` with the size of the data, on a device that does not fail. -/
  stream : ∀ (e : Dirent) (fault : Faults), e.clusterLo = c → e.size.toNat = data.length →
    NoAtaError fault (fileStream fs e collect []) st' →
    ∃ st'', (fileStream fs e collect []).run (ataHandler fault) st'
      = .ok (some data, st'')

section Write

variable {fs : Fs} {ps : ℕ} {st st' : FatState} {data : Bytes} {cs : List UInt16}

/-- The entry that ends the new chain is `CLUSTER_EOC`: the clusters were free, so an end mark there
    is the one `cluster_alloc` has written. -/
theorem Vol.Wrote.links_eoc (hs : fs.Sane ps) {v v' : Vol} (hw : v.Wrote fs v' data cs)
    (hm : v.Marked fs v') (hne : cs ≠ []) :
    Links v'.fat fs.IsCluster (fun x => x = clusterEoc) (cs.headD 0) cs := by
  obtain ⟨e, he, hpath⟩ := hw.links hne
  refine ⟨e, ?_, hpath⟩
  obtain ⟨x, hx, rfl⟩ := hpath.exists_last hne
  rcases hm x with hsame | heoc | hcl
  · rw [hsame, (hw.fresh x hx).2] at he
    cases he
  · exact heoc
  · exact absurd he (hs.not_isEoc _ hcl)

/-- What a run of `chain_write` leaves of the FAT copies, besides the entries of clusters. -/
theorem chainWrite_sameFat (hs : fs.Sane ps) (hsync : fs.InSync st.disk) {fault : Faults}
    (hclean : NoAtaError fault (chainWrite fs data) st) {c : UInt16}
    (hrun : (chainWrite fs data).run (ataHandler fault) st = .ok (c, st')) :
    fs.InSync st'.disk ∧ fs.SameFat fs.IsCluster st.disk st'.disk := by
  rw [Prog.run_eq_of_clean fatHandler_eq_of_not_ataError _ _ hclean] at hrun
  obtain ⟨g, hrun'⟩ := @Prog.run_monitor _ _ _ _ editsFat _ _ _ _ _ hrun false
  constructor
  · exact (chainWrite_guarded hs (Fs.keeps_inSync hs) data false st hsync).post hrun'
  · exact (chainWrite_guarded hs (Fs.keeps_sameFat hs st.disk) data false st
      (fun _ _ _ _ _ _ _ => rfl)).post hrun'

/-- **`chain_write` is all or nothing.** It stores the data in a chain of clusters that were free and
    leaves every other entry alone, or it returns 0 with the FAT as it was; with a transfer buffer the
    latter happens exactly when there are not enough free clusters. -/
theorem chainWrite_allOrNothing (hs : fs.Sane ps) (hne : data ≠ []) (hlen : data.length < 2 ^ 32)
    {fault : Faults} {l : List Blk} (hheap : st.heap.blocks = some l)
    (hsync : fs.InSync st.disk) (hclean : NoAtaError fault (chainWrite fs data) st) :
    ∃ c st', (chainWrite fs data).run (ataHandler fault) st = .ok (c, st') ∧
      fs.InSync st'.disk ∧
      ((2 ≤ c ∧ ∃ cs, Stored fs data st st' c cs) ∨
        (c = 0 ∧ fs.SameFat (fun _ => False) st.disk st'.disk)) ∧
      ((kmallocBlocks fs.clusterBytes l).1 ≠ 0 →
        (c = 0 ↔ ((st.vol fs).freeSet fs).card < fs.clustersFor data.length)) := by
  have hl : (st.vol fs).heap = some l := hheap
  have hok := Heap.blockList_of_blocks hheap
  rcases chainWrite_yields hs hl hok hlen with ⟨hfits, cs, v', hy, hw, hm⟩ | ⟨hno, v', hy, hsame⟩
  · obtain ⟨⟨l', hl', hbuf⟩, hcard⟩ := hfits.resolve_left hne
    obtain rfl := Option.some.inj (hl'.symm.trans hl)
    obtain ⟨st', hrun, rfl⟩ := hy.run_ok hclean
    obtain ⟨hsync', hbytes⟩ := chainWrite_sameFat hs hsync hclean hrun
    have hcs : cs ≠ [] := by
      rintro rfl
      have hzero := (Fs.clustersFor_le_iff hs).1 (le_of_eq hw.length.symm)
      rw [List.length_nil, Nat.zero_mul] at hzero
      exact hne (List.eq_nil_of_length_eq_zero (Nat.le_zero.1 hzero))
    have hlinks := hw.links hcs
    have hhead : fs.IsCluster (cs.headD 0) := hlinks.ok_of_mem (hlinks.mem_self hcs)
    refine ⟨cs.headD 0, st', hrun, hsync', Or.inl ⟨UInt16.two_le_iff.2 hhead.1, cs, ?_⟩, fun _ => ?_⟩
    · refine ⟨hw.length, hlinks.nodup hs.not_isEoc, hw.fresh, hw.links_eoc hs hm hcs, ?_, ?_⟩
      · exact hbytes.of_entries hs hsync hsync' (fun c _ hc => hw.fat c hc)
      · intro e fault' hc hsize hclean'
        obtain ⟨st'', hrun', -⟩ := (hw.stream hs hcs (hw.heap.trans hl) hok hbuf hc hsize).run_ok hclean'
        exact ⟨st'', hrun'⟩
    · constructor
      · exact fun h0 => absurd h0 hhead.ne_zero
      · exact fun hlt => absurd hcard (Nat.not_le_of_lt hlt)
  · obtain ⟨st', hrun, hv'⟩ := hy.run_ok hclean
    obtain ⟨hsync', hbytes⟩ := chainWrite_sameFat hs hsync hclean hrun
    refine ⟨0, st', hrun, hsync', Or.inr ⟨rfl, ?_⟩, fun hbuf => ⟨fun _ => ?_, fun _ => rfl⟩⟩
    · apply hbytes.of_entries hs hsync hsync'
      intro c _ _
      have hfat := congrFun hsame.fat c
      rw [← hv'] at hfat
      exact hfat
    · by_contra hle
      exact hno (Or.inr ⟨⟨l, hl, hbuf⟩, Nat.le_of_not_lt hle⟩)

end Write

/-- `ABC` goes to cluster 2 of an empty volume. -/
theorem chainWrite_allOrNothing_abc : ∃ st' cs,
    (chainWrite smallFs (str "ABC")).run (ataHandler noFaults) emptyState
      = .ok (2, st') ∧ Stored smallFs (str "ABC") emptyState st' 2 cs := by
  have hends : (chainWrite smallFs (str "ABC")).Ends (ataHandler noFaults)
      emptyState (fun r _ => r = 2) := by decide +kernel
  obtain ⟨c, st', hrun, -, hres, -⟩ := chainWrite_allOrNothing smallFs_sane
    (by decide : str "ABC" ≠ []) (by decide) emptyState_blocks (smallState_inSync [] [] [])
    (by decide +kernel : NoAtaError noFaults (chainWrite smallFs (str "ABC")) emptyState)
  obtain ⟨r, st1, hrun', rfl⟩ := hends
  obtain ⟨rfl, -⟩ := Prod.mk.inj (Except.ok.inj (hrun.symm.trans hrun'))
  rcases hres with ⟨-, cs, hstored⟩ | ⟨h0, -⟩
  · exact ⟨st', cs, hrun, hstored⟩
  · cases h0

end OctoOS
