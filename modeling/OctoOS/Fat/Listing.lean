import OctoOS.Fat.Created
import OctoOS.Fat.Cwd

set_option autoImplicit false

/-! # What `ls` prints can be opened

`fat_ls` prints the entries of a directory by `format_name`, which stops at the first blank of the
base and of the extension. On a volume filled by `fat_mkdir` and `fat_write_file` every name in use
came out of `to_83`. As long as the blanks in these names are padding, the listed names are distinct,
and each leads to its entry when it is put behind the path of the directory. -/

namespace OctoOS

open Atomic NameTree

/-- A freshly formatted volume: no cluster is used and nothing is listed in the root. -/
structure Vol.Fresh (fs : Fs) (v : Vol) : Prop where
  clusters : ∀ c, fs.IsCluster c → v.fat c = clusterFree ∨ v.fat c = Vol.clusterBad
  unused : ∀ s ∈ v.dirSlots fs 0, entryInUse (v.entry s) = false
  ended : v.Ended (v.dirSlots fs 0)

/-- Successful calls of `fat_write_file` and `fat_mkdir` with paths of printable bytes, one after
    another without a device error, with `fat_cd` in between. `ok` holds of every created name. -/
inductive MakeRun (fs : Fs) (ok : Name83 → Prop) (st₀ : FatState) : FatState → Prop where
  | init : MakeRun fs ok st₀ st₀
  | make {st st' : FatState} {fault : Faults} (call : FatCall) : MakeRun fs ok st₀ st →
      call.Creates → (∀ b ∈ call.path, Printable b) → call.data.length < 2 ^ 32 →
      (∀ d name, (st.vol fs).parent fs call.path = some (d, name) → ok name) →
      NoAtaError fault (call.prog fs) st →
      (call.prog fs).run (ataHandler fault) st = .ok (0, st') → MakeRun fs ok st₀ st'
  | cd {st st' : FatState} {fault : Faults} {r : Int} (path : Bytes) : MakeRun fs ok st₀ st →
      (∀ b ∈ path, Printable b) → NoAtaError fault (fatCd fs path) st →
      (fatCd fs path).run (ataHandler fault) st = .ok (r, st') → MakeRun fs ok st₀ st'

/-- The name that is listed for a slot. -/
def Vol.listed (v : Vol) (s : Slot) : Bytes := formatName (v.entry s).name

/-- The path of an entry of the directory at `dir`. The root's own path ends with the slash. -/
def entryPath (dir name : Bytes) : Bytes :=
  if dir = [slash] then slash :: name else dir ++ slash :: name

/-- The listing of the directory at cluster `p` with the path `dir`: the names are distinct, and
    each leads to the entry it is listed for. -/
structure Vol.Listing (fs : Fs) (v : Vol) (p : UInt16) (dir : Bytes) : Prop where
  distinct : ((v.usedSlots fs p).map v.listed).Nodup
  opens : ∀ s ∈ v.usedSlots fs p, ∃ n,
    v.resolvePath fs false (entryPath dir (v.listed s)) = some (v.entry s, some s, n)

/-- A tidy name that a path can spell. -/
def Spelled (name : Name83) : Prop := Tidy name ∧ ∃ comp, slash ∉ comp ∧ to83 comp = some name

section Listing

variable {fs : Fs} {ps : ℕ} {v v' : Vol} {call : FatCall} {name : Name83} {p : UInt16}

theorem spelled_of_isDotName (h : IsDotName name) : Spelled name := by
  rcases h with rfl | rfl
  · exact ⟨by decide, [dot], by decide, by decide⟩
  · exact ⟨by decide, [dot, dot], by decide, by decide⟩

/-- The name a call creates is spelled by the last component of its path. -/
theorem Vol.parent_spelled {path : Bytes} {d : Dirent} (hp : v.parent fs path = some (d, name))
    (ht : Tidy name) : Spelled name := by
  obtain ⟨front, last, hnames, hlast, -⟩ := Vol.parent_walk hp
  have hmem : last ∈ components (pathStart v.cwd path).2 := by
    unfold Vol.names at hnames
    rw [hnames]
    simp
  exact ⟨ht, last, slash_not_mem_components hmem, hlast⟩

/-! ## Runs -/

theorem Vol.Fresh.live_eq (h : v.Fresh fs) (hp : v.Live fs p) : p = 0 := by
  induction hp with
  | root => rfl
  | @sub q s _ hsq hsub ih =>
    subst ih
    exact absurd hsub.1 (by simp [h.unused s hsq])

theorem Vol.Fresh.not_inUse (h : v.Fresh fs) {s : Slot} (ht : v.InTree fs s) :
    entryInUse (v.entry s) = false := by
  obtain ⟨p, hp, hsp⟩ := ht
  obtain rfl := h.live_eq hp
  exact h.unused s hsp

theorem Vol.Fresh.wellFormed (h : v.Fresh fs) : v.WellFormed fs := by
  have hno : ∀ {s}, v.InTree fs s → entryInUse (v.entry s) ≠ true := fun ht => by
    simp [h.not_inUse ht]
  refine ⟨⟨?_, ?_, ?_, ?_, ?_, ?_, ?_, ?_⟩, fun c hc _ => h.clusters c hc⟩
  · exact fun s ho => absurd ho.2.1 (hno ho.1)
  · exact fun s _ ho => absurd ho.2.1 (hno ho.1)
  · exact fun s ht hin => absurd hin (hno ht)
  · exact fun s ho => absurd ho.2.1 (hno ho.1)
  · exact fun p hp s hs _ _ _ hh => absurd hh.1 (hno ⟨p, hp, hs⟩)
  · intro p hp
    rw [h.live_eq hp]
    exact h.ended
  · exact fun s hs hin => absurd hin (hno ⟨0, Vol.Live.root, hs⟩)
  · exact fun p hp s hs hsub => absurd hsub.1 (hno ⟨p, hp, hs⟩)

/-- A call that succeeds takes nothing away. -/
theorem FatCall.Outcome.not_harms (hcall : call.Creates) (ho : call.Outcome fs v 0 v') :
    ¬ call.Harms fs v := by
  cases call with
  | writeFile path data =>
    rintro ⟨d, name, s, hp, hf, -, -, hne, hfits⟩
    cases ho with
    | overwritten hp' hf' _ hroom _ =>
      cases hp.symm.trans hp'
      cases hf.symm.trans hf'
      exact hroom.elim hne hfits
    | created hp' hnone _ _ _ =>
      cases hp.symm.trans hp'
      rw [hf] at hnone
      cases hnone
  | rm path => exact absurd hcall id
  | mkdir path => exact id

/-- A successful call with a tidy name keeps the names tidy. -/
theorem FatCall.Outcome.spelled (hs : fs.Sane ps) (hi : v.CwdInv fs) (hn : v.AllNames fs Spelled)
    (hcall : call.Creates) (hpath : ∀ b ∈ call.path, Printable b) (hlen : call.data.length < 2 ^ 32)
    (htidy : ∀ d name, v.parent fs call.path = some (d, name) → Tidy name)
    (ho : call.Outcome fs v 0 v') : v'.AllNames fs Spelled := by
  have h := hi.consistent
  obtain ⟨d, name, s, hp, ht, hname⟩ := ho.storeSlot hcall
  have hmarks := (Vol.parent_name nameByte_printable hpath hp).ne_marks
  obtain ⟨v1, t, hv, hins⟩ := ho.inserted hs h hi.cwd.live hcall hlen hp ht hmarks
  refine hins.allNames hs (hv.consistent hs h) (hv.allNames hs h hn)
    (fun _ => spelled_of_isDotName) ?_
  rw [hname]
  exact Vol.parent_spelled hp (htidy d name hp)

theorem Printable.ne_zero {path : Bytes} (hpath : ∀ b ∈ path, Printable b) : ∀ b ∈ path, b ≠ 0 :=
  fun b hb => (hpath b hb).ne_marks.1

/-- Names are no part of what `fat_cd` changes. -/
theorem fatCd_allNames (hs : fs.Sane ps) {st st' : FatState} {path : Bytes} {r : Int}
    {P : Name83 → Prop} (hi : (st.vol fs).CwdInv fs) (hn : (st.vol fs).AllNames fs P)
    (hrun : (fatCd fs path).run (fatHandler noFaults) st = .ok (r, st')) :
    (st'.vol fs).AllNames fs P := by
  rcases fatCd_run hs hi.consistent hi.cwd.live hrun with hv | ⟨d, o, n, text, -, -, hv⟩
  · rw [hv]
    exact hn
  · have hvac : (st.vol fs).Vacated fs (st'.vol fs) noSlot :=
      Vol.vacated_of_same (by rw [hv]) (by rw [hv])
    exact hvac.allNames hs hi.consistent hn

/-- What a run keeps, by induction on its steps. -/
theorem MakeRun.spelled (hs : fs.Sane ps) {st0 st : FatState} (hrun : MakeRun fs Tidy st0 st)
    (hi : (st0.vol fs).CwdInv fs) (hn : (st0.vol fs).AllNames fs Spelled) :
    (st.vol fs).CwdInv fs ∧ (st.vol fs).AllNames fs Spelled := by
  induction hrun with
  | init => exact ⟨hi, hn⟩
  | make call _ hcall hpath hlen htidy hclean hstep ih =>
    obtain ⟨a, w, hy, ho⟩ := FatCall.yields hs ih.1.ready call hlen
    obtain ⟨rfl, rfl⟩ := hy.run_eq hclean hstep
    exact ⟨ho.cwdInv hs ih.1 (Printable.ne_zero hpath) hlen (ho.not_harms hcall),
      ho.spelled hs ih.1 ih.2 hcall hpath hlen htidy⟩
  | cd path _ hpath hclean hstep ih =>
    refine ⟨(FsCall.cd path).cwdInv hs ih.1 id (Printable.ne_zero hpath) (Nat.two_pow_pos 32) hclean
      hstep, ?_⟩
    rw [Prog.run_eq_of_clean fatHandler_eq_of_not_ataError _ _ hclean] at hstep
    exact fatCd_allNames hs ih.1 ih.2 hstep

/-! ## Listings -/

/-- One more component behind the path of a directory. -/
theorem Vol.names_entryPath (v : Vol) {dir x : Bytes} (hdir : dir ≠ []) (hx : x ≠ [])
    (hsl : slash ∉ x) : v.names (entryPath dir x) = v.names dir ++ [x] ∧
      v.start (entryPath dir x) = v.start dir := by
  unfold entryPath
  split_ifs with hroot
  · subst hroot
    exact ⟨components_last hx hsl, rfl⟩
  · have hne : (pathStart v.cwd dir).2 ≠ [] := by
      cases dir with
      | nil => exact absurd rfl hdir
      | cons c rest =>
        simp only [pathStart]
        split_ifs with hc
        · rintro rfl
          exact hroot (by rw [hc])
        · simp
    constructor
    · rw [Vol.names, pathStart_append hne]
      exact components_append hx hsl hne
    · rw [Vol.start, pathStart_append hne]
      rfl

theorem Vol.live_of_denote (h : v.Consistent fs) (hc : v.Live fs v.cwd) {path : Bytes}
    (hd : v.denote fs path = some (.dir p)) : v.Live fs p := by
  obtain ⟨⟨d, o, n⟩, hr, hnode⟩ := Option.map_eq_some_iff.1 hd
  unfold Vol.node at hnode
  split_ifs at hnode with hdir
  obtain rfl := Node.dir.inj hnode
  exact (Vol.resolvePath_met h hc hr).live h hdir

/-- Looking up the name of an entry in its directory. -/
theorem Vol.Consistent.lookup_used (h : v.Consistent fs) (hp : v.Live fs p) {s : Slot}
    (hs : s ∈ v.usedSlots fs p) (hn : Spelled (v.entry s).name) :
    v.lookup fs p (v.entry s).name = some (v.entry s, some s) := by
  obtain ⟨hmem, hin⟩ := Vol.mem_usedSlots.1 hs
  have hroot : ¬ (p = 0 ∧ (v.entry s).name.first = dot) := by
    rintro ⟨rfl, hdot⟩
    obtain ⟨-, comp, -, hcomp⟩ := hn
    exact to83_ne_dot hcomp (h.rootDots s hmem hin) hdot
  rw [Vol.lookup, if_neg hroot, (h.findSlot_iff hp).2 ⟨hmem, hin, rfl⟩]
  rfl

/-- Tidy names are listed as they are opened. -/
theorem Vol.listing_of_spelled (hs : fs.Sane ps) (h : v.Consistent fs) (hc : v.Live fs v.cwd)
    (hn : v.AllNames fs Spelled) {dir : Bytes} (hdir : dir ≠ [])
    (hd : v.denote fs dir = some (.dir p)) : v.Listing fs p dir := by
  have hp := Vol.live_of_denote h hc hd
  have hspelled : ∀ s ∈ v.usedSlots fs p, Spelled (v.entry s).name := by
    intro s hmem
    obtain ⟨hmem, hin⟩ := Vol.mem_usedSlots.1 hmem
    exact hn s ⟨p, hp, hmem⟩ hin
  have hback : ∀ s ∈ v.usedSlots fs p, to83 (v.listed s) = some (v.entry s).name := by
    intro s hmem
    obtain ⟨ht, comp, -, hcomp⟩ := hspelled s hmem
    exact ht.to83_formatName hcomp
  constructor
  · refine List.Nodup.map_on (fun s hss t hst heq => ?_) ((Vol.dirSlots_nodup hs (h.dirOk hp)).filter _)
    have hname : (v.entry s).name = (v.entry t).name := by
      have h1 := hback s hss
      rw [heq, hback t hst] at h1
      exact (Option.some.inj h1).symm
    obtain ⟨hms, his⟩ := Vol.mem_usedSlots.1 hss
    obtain ⟨hmt, hit⟩ := Vol.mem_usedSlots.1 hst
    exact h.names p hp s hms t hmt _ ⟨his, hname⟩ ⟨hit, rfl⟩
  · intro s hmem
    obtain ⟨ht, comp, hsl, hcomp⟩ := hspelled s hmem
    have hne : v.listed s ≠ [] := ht.formatName_ne_nil
    obtain ⟨hnames, hstart⟩ := v.names_entryPath hdir hne (slash_notMem_formatName hsl hcomp)
    have hw : walk (v.tree fs) (.dir (v.start (entryPath dir (v.listed s)))) (v.names dir)
        = some (.dir p) := by
      rw [hstart, ← Vol.denote_eq_walk]
      exact hd
    obtain ⟨d, o, -, -, -, hr⟩ := Vol.resolvePath_concat hnames (hback s hmem) hw
    refine ⟨Dirent.zero.name, ?_⟩
    rw [hr, h.lookup_used hp hmem ⟨ht, comp, hsl, hcomp⟩]
    rfl

end Listing

/-- **What `ls` prints can be opened.** On a volume filled from a freshly formatted one by
    successful calls that create tidy names only, the names listed for a directory are pairwise
    distinct, and each of them behind a path of the directory leads to the entry it stands for. -/
theorem makeRun_listing {fs : Fs} {ps : ℕ} (hs : fs.Sane ps) {st0 st : FatState}
    (hfresh : (st0.vol fs).Fresh fs) (hcwd : st0.cwdCluster = 0)
    (hheap : ∃ l, st0.heap.blocks = some l) (hrun : MakeRun fs Tidy st0 st) {p : UInt16} {dir : Bytes}
    (hdir : dir ≠ []) (hd : (st.vol fs).denote fs dir = some (.dir p)) :
    (st.vol fs).Listing fs p dir := by
  have hi0 : (st0.vol fs).CwdInv fs := by
    obtain ⟨l, hl⟩ := hheap
    have h0 : (st0.vol fs).cwd = 0 := hcwd
    refine ⟨hfresh.wellFormed.toConsistent, ?_, l, hl, Heap.blockList_of_blocks hl⟩
    rw [h0]
    exact Vol.Reached.root
  have hn0 : (st0.vol fs).AllNames fs Spelled := fun s ht hin =>
    absurd hin (by simp [hfresh.not_inUse ht])
  obtain ⟨hi, hn⟩ := hrun.spelled hs hi0 hn0
  exact Vol.listing_of_spelled hs hi.consistent hi.cwd.live hn hdir hd

/-- The small volume, freshly formatted. -/
def emptyVolume : FatState := smallState [0xFFF8, 0xFFFF] [] []

theorem emptyVolume_fresh : (emptyVolume.vol smallFs).Fresh smallFs := by
  have hfat : ∀ n ∈ List.range 5, 2 ≤ n →
      (emptyVolume.vol smallFs).fat (UInt16.ofNat n) = clusterFree := by decide +kernel
  refine ⟨fun c hc => Or.inl ?_, by decide +kernel, by decide +kernel⟩
  have hcn : UInt16.ofNat c.toNat = c := UInt16.ofNat_toNat
  rw [← hcn]
  exact hfat c.toNat (List.mem_range.2 (Nat.lt_succ_of_le hc.2)) hc.1

set_option synthInstance.maxSize 4000 in
/-- After `mkdir a`, a write of `b.txt` and `mkdir a/c`, `/` lists `A` and `B.TXT` and `/A` lists
    `C`. -/
theorem makeRun_listing_tree : ∃ st, MakeRun smallFs Tidy emptyVolume st ∧
    (st.vol smallFs).Listing smallFs 0 (str "/") ∧
    ((st.vol smallFs).usedSlots smallFs 0).map (st.vol smallFs).listed = [str "A", str "B.TXT"] ∧
    (st.vol smallFs).Listing smallFs 2 (str "/A") ∧
    ((st.vol smallFs).usedSlots smallFs 2).map (st.vol smallFs).listed
      = [str ".", str "..", str "C"] := by
  obtain ⟨_, st1, hrun1, rfl, htidy2, hclean2, _, st2, hrun2, rfl, htidy3, hclean3, _, st, hrun3, rfl,
      hroot, hlist, hsub, hlist'⟩ :
    ((FatCall.mkdir (str "a")).prog smallFs).Ends (ataHandler noFaults)
      emptyVolume (fun r st => r = 0 ∧
        (∀ x ∈ (st.vol smallFs).parent smallFs (str "b.txt"), Tidy x.2) ∧
        NoAtaError noFaults ((FatCall.writeFile (str "b.txt") []).prog smallFs) st ∧
        ((FatCall.writeFile (str "b.txt") []).prog smallFs).Ends
          (ataHandler noFaults) st (fun r st => r = 0 ∧
            (∀ x ∈ (st.vol smallFs).parent smallFs (str "a/c"), Tidy x.2) ∧
            NoAtaError noFaults ((FatCall.mkdir (str "a/c")).prog smallFs) st ∧
            ((FatCall.mkdir (str "a/c")).prog smallFs).Ends
              (ataHandler noFaults) st (fun r st => r = 0 ∧
                (st.vol smallFs).denote smallFs (str "/") = some (.dir 0) ∧
                ((st.vol smallFs).usedSlots smallFs 0).map (st.vol smallFs).listed
                  = [str "A", str "B.TXT"] ∧
                (st.vol smallFs).denote smallFs (str "/A") = some (.dir 2) ∧
                ((st.vol smallFs).usedSlots smallFs 2).map (st.vol smallFs).listed
      = [str ".", str "..", str "C"]))) := by
    decide +kernel
  have htidy1 : ∀ x ∈ (emptyVolume.vol smallFs).parent smallFs (str "a"), Tidy x.2 := by decide +kernel
  have hmake1 : MakeRun smallFs Tidy emptyVolume st1 :=
    MakeRun.init.make (.mkdir (str "a")) trivial (by decide) (by decide) (fun _ _ hp => htidy1 _ hp)
      (by decide +kernel) hrun1
  have hmake2 := hmake1.make (.writeFile (str "b.txt") []) trivial (by decide) (by decide)
    (fun _ _ hp => htidy2 _ hp) hclean2 hrun2
  have hmake3 := hmake2.make (.mkdir (str "a/c")) trivial (by decide) (by decide)
    (fun _ _ hp => htidy3 _ hp) hclean3 hrun3
  have hlisting := fun {p dir} => @makeRun_listing _ _ smallFs_sane _ _ emptyVolume_fresh rfl
    (smallState_heap _ _ _) hmake3 p dir
  exact ⟨st, hmake3, hlisting (by decide) hroot, hlist, hlisting (by decide) hsub, hlist'⟩

/-- With a blank inside, two names are listed as one and neither is found by it: `mkdir a b` and
    `mkdir a c` show as `A` twice, and there is no `/A`. -/
theorem makeRun_blank_listing : ∃ st, (emptyVolume.vol smallFs).Fresh smallFs ∧
    MakeRun smallFs (fun _ => True) emptyVolume st ∧
    ((st.vol smallFs).usedSlots smallFs 0).map (st.vol smallFs).listed = [str "A", str "A"] ∧
    (st.vol smallFs).resolvePath smallFs false (entryPath [slash] (str "A")) = none := by
  have hrun : ((FatCall.mkdir (str "a b")).prog smallFs).Ends
      (ataHandler noFaults) emptyVolume (fun r st => r = 0 ∧
        NoAtaError noFaults ((FatCall.mkdir (str "a c")).prog smallFs) st ∧
        ((FatCall.mkdir (str "a c")).prog smallFs).Ends (ataHandler noFaults) st
          (fun r st => r = 0 ∧
            ((st.vol smallFs).usedSlots smallFs 0).map (st.vol smallFs).listed = [str "A", str "A"] ∧
            (st.vol smallFs).resolvePath smallFs false (entryPath [slash] (str "A")) = none)) := by
    decide +kernel
  obtain ⟨r, st1, hrun1, rfl, hclean, r, st, hrun, rfl, hlist⟩ := hrun
  refine ⟨st, emptyVolume_fresh, ?_, hlist⟩
  have hmake : MakeRun smallFs (fun _ => True) emptyVolume st1 :=
    MakeRun.init.make (.mkdir (str "a b")) trivial (by decide) (by decide) (fun _ _ _ => trivial)
      (by decide +kernel) hrun1
  exact hmake.make (.mkdir (str "a c")) trivial (by decide) (by decide) (fun _ _ _ => trivial) hclean hrun

end OctoOS
