import OctoOS.Fat.Resolve

set_option autoImplicit false

/-! # Reading files

`file_stream` hands the bytes of a file to its callback cluster by cluster. On a chain that covers
the file the pieces are the file's bytes in order, so `fat_read_file` returns `Vol.fileBytes`. -/

namespace OctoOS

open Atomic Tiling Linked

/-- The bytes of the file with entry `d`. -/
def Vol.fileBytes (fs : Fs) (v : Vol) (d : Dirent) : Bytes :=
  (v.chainData fs (v.chain fs d.clusterLo)).take d.size.toNat

/-- The pieces of the first `n` bytes in the clusters of a chain. -/
def Vol.pieces (fs : Fs) (v : Vol) : ℕ → List UInt16 → List Bytes
  | _, [] => []
  | n, c :: cs =>
    if n = 0 then [] else (v.clusterData fs c).take n :: v.pieces fs (n - fs.clusterBytes) cs

section Stream

variable {fs : Fs} {ps : ℕ} {v : Vol} {d : Dirent} {l : List Blk}

theorem Vol.pieces_flatten (n : ℕ) (cs : List UInt16) :
    (v.pieces fs n cs).flatten = (v.chainData fs cs).take n := by
  induction cs generalizing n with
  | nil => simp [Vol.pieces, Vol.chainData]
  | cons c cs ih =>
    rw [Vol.pieces]
    split_ifs with hn
    · simp [hn]
    · have hcons : v.chainData fs (c :: cs) = v.clusterData fs c ++ v.chainData fs cs := rfl
      rw [List.flatten_cons, ih, hcons, List.take_append, Vol.clusterData_length]

theorem Vol.pieces_heap (heap : Option (List Blk)) (n : ℕ) (cs : List UInt16) :
    ({ v with heap := heap } : Vol).pieces fs n cs = v.pieces fs n cs := by
  induction cs generalizing n with
  | nil => rfl
  | cons c cs ih =>
    rw [Vol.pieces, Vol.pieces, ih]
    rfl

/-- The loop of `file_stream`. `P arg n` is what the callback needs when `n` bytes are to come. -/
theorem fileStreamLoop_yields (hs : fs.Sane ps) {γ : Type} {fn : γ → Bytes → Fat γ}
    {f : γ → Bytes → γ} {P : γ → ℕ → Prop}
    (hfn : ∀ arg n chunk, P arg n → chunk.length ≤ n →
      fs.Yields (fn arg chunk) v (f arg chunk) v ∧ P (f arg chunk) (n - chunk.length))
    (hl : v.heap = some l) {b : Blk} (hu : b ∈ usedOf l) (hfit : fs.clusterBytes ≤ b.size)
    {cs : List UInt16} {c : UInt16} {n fuel : ℕ} {arg : γ}
    (hc : n ≠ 0 → Links v.fat fs.IsCluster isEoc c cs) (hn : n ≤ cs.length * fs.clusterBytes)
    (hfuel : n < fuel) (hP : P arg n) :
    fs.Yields (fileStreamLoop fs fn (b.addr + blockHeader) fuel n c arg) v
      (some ((v.pieces fs n cs).foldl f arg))
      { v with heap := some (coalesce blockHeader (release b.addr l)) } := by
  induction cs generalizing c n fuel arg with
  | nil =>
    obtain rfl : n = 0 := by simpa using hn
    obtain ⟨fuel, rfl⟩ := Nat.exists_eq_add_of_lt hfuel
    rw [Nat.zero_add, fileStreamLoop, if_neg (by simp), if_pos rfl]
    exact (kfree_yields hl hu).bind (Fs.Yields.pure _)
  | cons x cs ih =>
    obtain ⟨fuel, rfl⟩ : ∃ k, fuel = k + 1 := ⟨fuel - 1, by omega⟩
    rw [fileStreamLoop, Vol.pieces]
    by_cases hz : n = 0
    · rw [if_neg (by simp [hz]), if_pos hz, if_pos hz]
      exact (kfree_yields hl hu).bind (Fs.Yields.pure _)
    · obtain ⟨rfl, hcl, hrest⟩ := Links.cons_iff.1 (hc hz)
      have hcb := hs.clusterBytes_pos
      rw [if_pos ⟨hz, UInt16.two_le_iff.2 hcl.1, hs.not_isEoc _ hcl⟩, if_neg hz, List.foldl_cons]
      refine (ataReadTo_yields hs hcl hl hu hfit).bind ?_
      simp only [hs.clusterBytes_eq]
      -- the piece is the rest of the file or the whole cluster
      have hpiece : (v.clusterData fs x).take (if n < fs.clusterBytes then n else fs.clusterBytes)
          = (v.clusterData fs x).take n := by
        split_ifs with hlt
        · rfl
        · rw [List.take_of_length_le (by rw [Vol.clusterData_length]),
            List.take_of_length_le (by rw [Vol.clusterData_length]; omega)]
      have hleft : n - (if n < fs.clusterBytes then n else fs.clusterBytes) = n - fs.clusterBytes := by
        split_ifs <;> omega
      rw [hpiece, hleft]
      obtain ⟨hy, hP'⟩ := hfn arg n ((v.clusterData fs x).take n) hP (List.length_take_le _ _)
      have hmin : n - ((v.clusterData fs x).take n).length = n - fs.clusterBytes := by
        rw [List.length_take, Vol.clusterData_length]
        omega
      rw [hmin] at hP'
      refine hy.bind ((fatGet_yields hs hcl.2).bind ?_)
      refine ih (fun _ => hrest) ?_ (by omega) hP'
      rw [List.length_cons, Nat.add_mul, Nat.one_mul] at hn
      omega

/-- `file_stream` on a chain that covers the file. -/
theorem fileStream_yields (hs : fs.Sane ps) {γ : Type} {fn : γ → Bytes → Fat γ} {f : γ → Bytes → γ}
    {P : γ → ℕ → Prop} (hl : v.heap = some l) (hok : BlockList l)
    (hbuf : (kmallocBlocks fs.clusterBytes l).1 ≠ 0)
    (hfn : ∀ arg n chunk, P arg n → chunk.length ≤ n →
      fs.Yields (fn arg chunk) { v with heap := some (kmallocBlocks fs.clusterBytes l).2 } (f arg chunk)
        { v with heap := some (kmallocBlocks fs.clusterBytes l).2 } ∧ P (f arg chunk) (n - chunk.length))
    {arg : γ} (hP : P arg d.size.toNat) (hc : d.size.toNat ≠ 0 → v.HasChain fs d.clusterLo)
    (hn : d.size.toNat ≤ (v.chain fs d.clusterLo).length * fs.clusterBytes) :
    fs.Yields (fileStream fs d fn arg) v
      (some ((v.pieces fs d.size.toNat (v.chain fs d.clusterLo)).foldl f arg)) v := by
  obtain ⟨b, hb, hptr, hsize, -, hback⟩ := kmallocBlocks_spec hok hbuf
  rw [alignUp_clusterBytes hs] at hsize
  unfold fileStream
  rw [hs.clusterBytes_eq]
  refine (kmalloc_yields hl _).bind ?_
  rw [if_neg hbuf, hptr]
  have hfuel : d.size.toNat < streamLoopBound := by
    have := d.size.toNat_lt
    unfold streamLoopBound
    omega
  have hy := fileStreamLoop_yields (v := { v with heap := some (kmallocBlocks fs.clusterBytes l).2 }) hs
    hfn rfl hb hsize (fun hz => (hc hz).2) hn hfuel hP
  rw [hback, ← hl, Vol.pieces_heap] at hy
  exact hy

/-! ## `fat_read_file` -/

/-- A file in a live directory is an owner. -/
theorem Vol.Consistent.owner_of_file (h : v.Consistent fs) {s : Slot} (ht : v.InTree fs s)
    (hin : entryInUse (v.entry s) = true) (hfile : (v.entry s).isDir = false) : v.Owner fs s := by
  refine ⟨ht, hin, fun hdot => ?_⟩
  obtain ⟨p, hp, hsp⟩ := ht
  by_cases hp0 : p = 0
  · subst hp0
    exact h.rootDots s hsp hin hdot
  · -- the entries `.` and `..` of a subdirectory are directories
    obtain ⟨q, t, hq, htq, hsub, rfl⟩ := exists_owner hp hp0
    obtain ⟨⟨d, hd, hdh, hdd, -⟩, ⟨e, he, heh, hed, -⟩⟩ := h.dots q hq t htq hsub
    rcases hdot with hn | hn
    · rw [h.names _ hp s hsp d hd dotName ⟨hin, hn⟩ hdh, hdd] at hfile
      cases hfile
    · rw [h.names _ hp s hsp e he dotdotName ⟨hin, hn⟩ heh, hed] at hfile
      cases hfile

/-- What `stream_copy` leaves of a file when it is given its pieces. -/
theorem foldl_append_pieces (n : ℕ) (cs : List UInt16) (copied : Bytes) :
    (v.pieces fs n cs).foldl (fun acc data => acc ++ data) copied
      = copied ++ (v.chainData fs cs).take n := by
  rw [← Vol.pieces_flatten]
  generalize v.pieces fs n cs = ps
  induction ps generalizing copied with
  | nil => simp
  | cons x xs ih => rw [List.foldl_cons, ih, List.flatten_cons, List.append_assoc]

theorem alignUp_ge {n : ℕ} (h : n + 7 < 2 ^ 32) : n ≤ alignUp n := by
  unfold alignUp
  rw [w32_eq h]
  omega

end Stream

end OctoOS
