import OctoOS.Fat.Contained
import OctoOS.Fat.Cwd
import Mathlib.Data.List.Infix

set_option autoImplicit false

/-! # The text of the working directory

`fat_cd` keeps the working directory twice: `cwd_cluster` from a walk through the entries on disk,
and `cwd_path` from an edit of a text by `cwd_apply`. Both read the same path. On a consistent
volume every step of the walk is matched by the edit: `.` is the directory itself, `..` the one the
last name of the text leads from, and any other name is found again under its upper-case spelling.
So the text names the directory as long as nothing was cut off. -/

namespace OctoOS

open Atomic NameTree

/-! ## Normalised paths -/

/-- A component that names an entry other than `.` and `..`. -/
def IsPlain (comp : Bytes) : Prop := comp ≠ [] ∧ comp ≠ [dot] ∧ comp ≠ [dot, dot] ∧ slash ∉ comp

/-- The text of an absolute path. -/
def pathText (comps : List Bytes) : Bytes :=
  if comps = [] then [slash] else comps.flatMap (List.cons slash)

/-- An absolute path without `.`, `..` and empty components. -/
def Normalised (text : Bytes) : Prop := ∃ comps, (∀ c ∈ comps, IsPlain c) ∧ text = pathText comps

/-- A name whose base is blank. -/
def IsBlank (name : Name83) : Prop := ∀ i : Fin 11, i.val < 8 → name[i] = space
  deriving Decidable

/-- No entry in use has a blank base name. -/
def Vol.NoBlankNames (fs : Fs) (v : Vol) : Prop :=
  ∀ s, v.InTree fs s → entryInUse (v.entry s) = true → ¬ IsBlank (v.entry s).name

/-- The text `cwd_apply` starts from, and the rest of the path. -/
def cwdStart (cwd path : Bytes) : Bytes × Bytes :=
  if path.head? = some slash then ([slash], path.dropWhile (· = slash)) else (cwd, path)

/-- Every text that `cwd_apply` comes to has at most 125 characters. -/
def CwdFits (cwd path : Bytes) : Prop :=
  ∀ pre text, pre <+: components (cwdStart cwd path).2 →
    pre.foldlM cwdStep (cwdStart cwd path).1 = some text → text.length ≤ 125

instance (cwd path : Bytes) : Decidable (CwdFits cwd path) :=
  decidable_of_iff (∀ pre ∈ (components (cwdStart cwd path).2).inits,
      (pre.foldlM cwdStep (cwdStart cwd path).1).all (·.length ≤ 125) = true) (by
    unfold CwdFits
    simp only [List.mem_inits, Option.all_eq_true, decide_eq_true_eq]
    exact ⟨fun h pre text hpre => h pre hpre text, fun h pre hpre text => h pre text hpre⟩)

section Text

variable {comp : Bytes} {comps : List Bytes}

theorem pathText_of_ne_nil (h : comps ≠ []) : pathText comps = comps.flatMap (List.cons slash) := if_neg h

theorem pathText_concat (comps : List Bytes) (c : Bytes) :
    pathText (comps ++ [c]) = (if comps = [] then [] else pathText comps) ++ slash :: c := by
  rw [pathText_of_ne_nil (by simp), List.flatMap_append]
  split_ifs with h
  · rw [h]
    simp
  · rw [pathText_of_ne_nil h]
    simp

theorem one_lt_pathText_length (hp : ∀ c ∈ comps, IsPlain c) :
    1 < (pathText comps).length ↔ comps ≠ [] := by
  cases comps with
  | nil => simp [pathText]
  | cons c rest =>
    have hc : 0 < c.length := List.length_pos_iff.2 (hp c (List.mem_cons_self ..)).1
    rw [pathText_of_ne_nil (by simp)]
    simp only [List.flatMap_cons, List.length_append, List.length_cons, ne_eq, reduceCtorEq,
      not_false_eq_true, iff_true]
    omega

/-- The components of a normalised text, read as a path. -/
theorem components_pathText (hp : ∀ c ∈ comps, IsPlain c) :
    components (pathText comps).tail = comps := by
  induction comps using List.reverseRecOn with
  | nil => rfl
  | append_singleton front c ih =>
    have hc := hp c (by simp)
    have hfront := ih (fun c hc => hp c (List.mem_append_left _ hc))
    rw [pathText_concat]
    split_ifs with h
    · rw [h]
      exact components_last hc.1 hc.2.2.2
    · have hlen := (one_lt_pathText_length (fun c hc => hp c (List.mem_append_left _ hc))).2 h
      have hne : pathText front ≠ [] := by
        intro h0
        rw [h0] at hlen
        cases hlen
      have htail : (pathText front).tail ≠ [] := by
        intro h0
        have := congrArg List.length h0
        rw [List.length_tail, List.length_nil] at this
        omega
      rw [List.tail_append_of_ne_nil hne, components_append hc.1 hc.2.2.2 htail, hfront]

theorem pathText_head (comps : List Bytes) : ∃ rest, pathText comps = slash :: rest := by
  cases comps with
  | nil => exact ⟨[], rfl⟩
  | cons c comps => exact ⟨_, pathText_of_ne_nil (by simp)⟩

/-! ## `cwd_apply` -/

theorem map_upper_eq_dots {n : ℕ} :
    comp.map upper = List.replicate n dot ↔ comp = List.replicate n dot := by
  induction comp generalizing n with
  | nil => rfl
  | cons b comp ih =>
    cases n with
    | zero => simp
    | succ n => rw [List.map_cons, List.replicate_succ, List.cons.injEq, List.cons.injEq, upper_eq_dot, ih]

theorem IsPlain.map_upper (h : IsPlain comp) : IsPlain (comp.map upper) := by
  refine ⟨fun h0 => h.1 (List.map_eq_nil_iff.1 h0), fun h1 => h.2.1 (map_upper_eq_dots (n := 1).1 h1),
    fun h2 => h.2.2.1 (map_upper_eq_dots (n := 2).1 h2), fun hs => h.2.2.2 ?_⟩
  exact (mem_map_upper (fun _ => upper_eq_slash)).1 hs

/-- Both spellings of a component are the same name. -/
theorem to83_map_upper (comp : Bytes) : to83 (comp.map upper) = to83 comp := by
  have hdot : (fun b => decide (b ≠ dot)) ∘ upper = fun b => decide (b ≠ dot) := by
    funext b
    simp [upper_eq_dot]
  have hmem : ∀ l : Bytes, dot ∈ l.map upper ↔ dot ∈ l := fun l => mem_map_upper (fun _ => upper_eq_dot)
  have h1 : (comp.map upper = [dot]) ↔ (comp = [dot]) := map_upper_eq_dots (n := 1)
  have h2 : (comp.map upper = [dot, dot]) ↔ (comp = [dot, dot]) := map_upper_eq_dots (n := 2)
  unfold to83
  simp only [h1, h2, List.takeWhile_map, List.dropWhile_map, hdot, map_upper_map_upper, List.length_map]
  cases comp.dropWhile (fun b => decide (b ≠ dot)) with
  | nil => rfl
  | cons x ext => simp only [List.map_cons, List.length_map, hmem, map_upper_map_upper]

/-- The copy loop that does not reach its limit. -/
theorem cwdCopy_eq {text : Bytes} (h : (cwdCopy text comp).length ≤ 125) :
    cwdCopy text comp = text ++ comp.map upper := by
  induction comp generalizing text with
  | nil => simp [cwdCopy]
  | cons c comp ih =>
    rw [cwdCopy] at h ⊢
    split_ifs at h ⊢ with hlt
    · rw [ih h, List.append_assoc]
      rfl
    · omega

/-- `..` drops the last component. -/
theorem cwdUp_append {c rest : Bytes} (hc : slash ∉ c) :
    cwdUp (c ++ slash :: rest) = if rest = [] then [slash] else rest := by
  induction c with
  | nil =>
    cases rest with
    | nil => rfl
    | cons b rest => simp [cwdUp]
  | cons b c ih =>
    have hb : b ≠ slash := by
      rintro rfl
      exact hc (List.mem_cons_self ..)
    rw [← ih (fun h => hc (List.mem_cons_of_mem _ h))]
    cases c with
    | nil => simp [cwdUp, hb]
    | cons b' c => simp [cwdUp, hb]

theorem cwdStep_dotdot (hp : ∀ c ∈ comps, IsPlain c) :
    cwdStep (pathText comps) [dot, dot] = some (pathText comps.dropLast) := by
  have hstep : cwdStep (pathText comps) [dot, dot]
      = some (cwdUp (pathText comps).reverse).reverse := by
    rw [cwdStep, if_neg (by decide), if_pos rfl]
  rw [hstep]
  rcases List.eq_nil_or_concat comps with rfl | ⟨front, c, rfl⟩
  · rfl
  · rw [List.concat_eq_append] at hp ⊢
    have hc := hp c (by simp)
    rw [List.dropLast_concat, pathText_concat, List.reverse_append, List.reverse_cons,
      List.append_assoc, List.singleton_append, cwdUp_append (by simpa using hc.2.2.2)]
    split_ifs with h1 h2 h3
    · rw [h1]
      rfl
    · simp at h2
    · obtain ⟨rest, hrest⟩ := pathText_head front
      rw [hrest] at h3
      simp at h3
    · rw [List.reverse_reverse]

/-- A plain component is appended in upper case. -/
theorem cwdStep_plain (hp : ∀ c ∈ comps, IsPlain c) (hc : IsPlain comp)
    (hlen : (pathText comps).length ≤ 125)
    (hfit : ∀ text, cwdStep (pathText comps) comp = some text → text.length ≤ 125) :
    cwdStep (pathText comps) comp = some (pathText (comps ++ [comp.map upper])) := by
  have hpush : cwdPush (pathText comps) slash = some (pathText comps ++ [slash]) :=
    if_pos (by omega)
  have hone := one_lt_pathText_length hp
  have hstep : cwdStep (pathText comps) comp
      = some (cwdCopy ((if comps = [] then [] else pathText comps) ++ [slash]) comp) := by
    rw [cwdStep, if_neg hc.2.1, if_neg hc.2.2.1]
    by_cases h : comps = []
    · rw [if_neg (fun hlt => hone.1 hlt h), if_pos h, h]
      rfl
    · rw [if_pos (hone.2 h), if_neg h, hpush]
      rfl
  rw [hstep, cwdCopy_eq (hfit _ hstep), pathText_concat, List.append_assoc, List.singleton_append]

end Text

/-! ## The tree along a path -/

section Tree

variable {fs : Fs} {ps : ℕ} {v : Vol} {comp : Bytes} {comps : List Bytes} {name : Name83}
  {p q : UInt16}

/-- A directory found in a live directory is live. -/
theorem Vol.live_of_tree (h : v.Consistent fs) (hp : v.Live fs p)
    (ht : v.tree fs p comp = some (.dir q)) : v.Live fs q := by
  obtain ⟨name, -, hl⟩ := Option.bind_eq_some_iff.1 ht
  obtain ⟨r, hr, hn⟩ := Option.map_eq_some_iff.1 hl
  unfold Vol.node at hn
  split_ifs at hn with hdir
  obtain rfl := Node.dir.inj hn
  exact h.live_of_lookup hp hr hdir

theorem Vol.live_of_walk (h : v.Consistent fs) (hp : v.Live fs p)
    (hw : walk (v.tree fs) (.dir p) comps = some (.dir q)) : v.Live fs q := by
  induction comps generalizing p with
  | nil =>
    obtain rfl := Node.dir.inj (Option.some.inj hw)
    exact hp
  | cons comp rest ih =>
    obtain ⟨p', ht, hw⟩ := walk_cons_dir hw
    exact ih (v.live_of_tree h hp ht) hw

/-- The entry behind a name with a directory. -/
theorem Vol.tree_of_holds (h : v.Consistent fs) (hp : v.Live fs p) (hn : to83 comp = some name)
    (hroot : ¬ (p = 0 ∧ name.first = dot)) {s : Slot} (hs : s ∈ v.dirSlots fs p)
    (hh : v.Holds s name) (hdir : (v.entry s).isDir = true) :
    v.tree fs p comp = some (.dir (v.entry s).clusterLo) := by
  rw [Vol.tree_some hn, Vol.lookup, if_neg hroot, (h.findSlot_iff hp).2 ⟨hs, hh⟩, Option.map_some,
    Option.map_some, Vol.node, if_pos hdir]

/-- `.` and `..` at the root. -/
theorem Vol.tree_root_dots (hn : to83 comp = some name) (hdot : name.first = dot) :
    v.tree fs 0 comp = some (.dir 0) := by
  rw [Vol.tree_some hn, Vol.lookup, if_pos ⟨rfl, hdot⟩, Option.map_some, Vol.node_dirEntry]

theorem to83_dot : to83 [dot] = some dotName := rfl

theorem to83_dotdot : to83 [dot, dot] = some dotdotName := rfl

/-- `.` is the directory itself. -/
theorem Vol.tree_dot (h : v.Consistent fs) (hp : v.Live fs p) :
    v.tree fs p [dot] = some (.dir p) := by
  by_cases h0 : p = 0
  · subst h0
    exact v.tree_root_dots to83_dot (by decide)
  · obtain ⟨q, s, hq, hs, hsub, rfl⟩ := Vol.Consistent.exists_owner hp h0
    obtain ⟨⟨t, ht, hh, hdir, hc⟩, -⟩ := h.dots q hq s hs hsub
    rw [v.tree_of_holds h hp to83_dot (fun hr => h0 hr.1) ht hh hdir, hc]

theorem to83_plain (hc : IsPlain comp) (hn : to83 comp = some name) : name.first ≠ dot := by
  unfold to83 at hn
  rw [if_neg hc.2.1, if_neg hc.2.2.1] at hn
  have hbase : ∀ ext, (name83 ((comp.takeWhile (· ≠ dot)).map upper) ext).first ≠ dot := by
    intro ext
    rw [name83_head]
    cases hb : comp.takeWhile (· ≠ dot) with
    | nil => decide
    | cons b bs =>
      have hmem : b ∈ comp.takeWhile (· ≠ dot) := by rw [hb]; exact List.mem_cons_self ..
      exact fun hu => absurd (upper_eq_dot.1 hu) (by simpa using List.mem_takeWhile_imp hmem)
  simp only at hn
  split_ifs at hn
  cases hd : comp.dropWhile (· ≠ dot) with
  | nil =>
    simp only [hd, Option.some.injEq] at hn
    rw [← hn]
    exact hbase []
  | cons x ext =>
    simp only [hd] at hn
    split_ifs at hn
    rw [← Option.some.inj hn]
    exact hbase _

/-- A directory found under a plain name is not the root, and its `..` leads back. -/
theorem Vol.tree_dotdot (h : v.Consistent fs) (hq : v.Live fs q) (hc : IsPlain comp)
    (ht : v.tree fs q comp = some (.dir p)) : v.tree fs p [dot, dot] = some (.dir q) := by
  have hp := v.live_of_tree h hq ht
  obtain ⟨name, hn, hl⟩ := Option.bind_eq_some_iff.1 ht
  have hdot := to83_plain hc hn
  obtain ⟨r, hr, hnode⟩ := Option.map_eq_some_iff.1 hl
  unfold Vol.node at hnode
  split_ifs at hnode with hdir
  obtain rfl := Node.dir.inj hnode
  rw [Vol.lookup, if_neg (fun hroot => hdot hroot.2)] at hr
  obtain ⟨s, hs, rfl⟩ := Option.map_eq_some_iff.1 hr
  obtain ⟨hmem, hin, hname⟩ := (h.findSlot_iff hq).1 hs
  have hsub : v.IsSubDir s := ⟨hin, hdir, fun hd => hdot (by rw [← hname]; exact hd.head)⟩
  have hne : (v.entry s).clusterLo ≠ 0 := (h.hasChain ⟨q, hq, hmem⟩ hsub).1.ne_zero
  obtain ⟨-, ⟨t, htm, hth, htd, htc⟩⟩ := h.dots q hq s hmem hsub
  rw [v.tree_of_holds h hp to83_dotdot (fun hroot => hne hroot.1) htm hth htd, htc]

/-- Nothing has the empty name. -/
theorem Vol.tree_empty (h : v.Consistent fs) (hb : v.NoBlankNames fs) (hp : v.Live fs p) :
    v.tree fs p [] = none := by
  have hname : to83 [] = some (name83 [] []) := rfl
  have hblank : IsBlank (name83 [] []) := by
    unfold IsBlank
    decide
  rw [Vol.tree_some hname, Vol.lookup, if_neg (fun hroot => absurd hroot.2 (by decide))]
  cases hf : v.findSlot fs p (name83 [] []) with
  | none => rfl
  | some s =>
    obtain ⟨hmem, hin, hn⟩ := (h.findSlot_iff hp).1 hf
    exact absurd (by rw [hn]; exact hblank) (hb s ⟨p, hp, hmem⟩ hin)

/-- **`cwd_apply` follows the walk.** From a text that names the directory `p`, the steps along a
    path from `p` to `q` end in a text that names `q`. -/
theorem foldlM_cwdStep (h : v.Consistent fs) (hb : v.NoBlankNames fs)
    (hcomps : ∀ c ∈ comps, slash ∉ c) {done : List Bytes} (hdone : ∀ c ∈ done, IsPlain c)
    (hp : walk (v.tree fs) (.dir 0) done = some (.dir p))
    (hw : walk (v.tree fs) (.dir p) comps = some (.dir q))
    (hfit : ∀ pre text, pre <+: comps → pre.foldlM cwdStep (pathText done) = some text →
      text.length ≤ 125) :
    ∃ done', (∀ c ∈ done', IsPlain c) ∧ comps.foldlM cwdStep (pathText done) = some (pathText done') ∧
      walk (v.tree fs) (.dir 0) done' = some (.dir q) := by
  induction comps generalizing done p with
  | nil =>
    obtain rfl := Node.dir.inj (Option.some.inj hw)
    exact ⟨done, hdone, rfl, hp⟩
  | cons comp rest ih =>
    obtain ⟨p', ht, hw⟩ := walk_cons_dir hw
    have hlive := v.live_of_walk h Vol.Live.root hp
    -- the text after this component, and that it names where the walk is
    have hstep : ∃ done', (∀ c ∈ done', IsPlain c) ∧
        cwdStep (pathText done) comp = some (pathText done') ∧
        walk (v.tree fs) (.dir 0) done' = some (.dir p') := by
      by_cases h1 : comp = [dot]
      · subst h1
        rw [v.tree_dot h hlive] at ht
        obtain rfl := Node.dir.inj (Option.some.inj ht)
        exact ⟨done, hdone, rfl, hp⟩
      by_cases h2 : comp = [dot, dot]
      · subst h2
        refine ⟨done.dropLast, fun c hc => hdone c (List.dropLast_subset _ hc), cwdStep_dotdot hdone, ?_⟩
        rcases List.eq_nil_or_concat done with rfl | ⟨front, c, rfl⟩
        · obtain rfl := Node.dir.inj (Option.some.inj hp)
          rw [v.tree_root_dots to83_dotdot (by decide)] at ht
          exact ht
        · rw [List.concat_eq_append] at hp hdone ⊢
          rw [List.dropLast_concat]
          obtain ⟨i, hi, hic⟩ := walk_concat.1 hp
          rw [v.tree_dotdot h (v.live_of_walk h Vol.Live.root hi) (hdone c (by simp)) hic] at ht
          rw [hi, ht]
      · have hplain : IsPlain comp := by
          refine ⟨?_, h1, h2, hcomps comp (List.mem_cons_self ..)⟩
          rintro rfl
          rw [v.tree_empty h hb hlive] at ht
          cases ht
        have hlen := hfit [] (pathText done) (List.nil_prefix ..) rfl
        refine ⟨done ++ [comp.map upper], ?_, cwdStep_plain hdone hplain hlen (fun text htext => ?_), ?_⟩
        · intro c hc
          rcases List.mem_append.1 hc with hc | hc
          · exact hdone c hc
          · obtain rfl := List.mem_singleton.1 hc
            exact hplain.map_upper
        · refine hfit [comp] text ⟨rest, rfl⟩ ?_
          rw [List.foldlM_cons, htext]
          rfl
        · refine walk_concat.2 ⟨p, hp, ?_⟩
          rw [Vol.tree, to83_map_upper]
          exact ht
    obtain ⟨done', hdone', htext, hp'⟩ := hstep
    obtain ⟨done'', hdone'', hfold, hq⟩ := ih (fun c hc => hcomps c (List.mem_cons_of_mem _ hc)) hdone'
      hp' hw (fun pre text hpre hfold => hfit (comp :: pre) text (List.cons_prefix_cons.2 ⟨rfl, hpre⟩)
        (by rw [List.foldlM_cons, htext]; exact hfold))
    exact ⟨done'', hdone'', by rw [List.foldlM_cons, htext]; exact hfold, hq⟩

/-- A normalised text names what its components lead to. -/
theorem Vol.denote_pathText (hp : ∀ c ∈ comps, IsPlain c) :
    v.denote fs (pathText comps) = walk (v.tree fs) (.dir 0) comps := by
  obtain ⟨rest, hrest⟩ := pathText_head comps
  have hcomps := components_pathText hp
  rw [hrest, List.tail_cons] at hcomps
  have hstart : pathStart v.cwd (slash :: rest) = (0, rest) := by
    rw [pathStart, if_pos rfl]
  rw [Vol.denote_eq_walk, Vol.start, Vol.names, hrest, hstart, hcomps]

/-- `cwd_apply` on a path that resolves to the directory `q`. -/
theorem cwdApply_denote (h : v.Consistent fs) (hb : v.NoBlankNames fs)
    (hnorm : Normalised v.cwdPath) (hcwd : v.denote fs v.cwdPath = some (.dir v.cwd)) {path : Bytes}
    (hfit : CwdFits v.cwdPath path) (hq : v.denote fs path = some (.dir q)) {text : Bytes}
    (happly : cwdApply v.cwdPath path = some text) :
    ∃ comps, (∀ c ∈ comps, IsPlain c) ∧ text = pathText comps ∧
      walk (v.tree fs) (.dir 0) comps = some (.dir q) := by
  obtain ⟨done, hdone, htext⟩ := hnorm
  rw [htext, Vol.denote_pathText hdone] at hcwd
  rw [Vol.denote_eq_walk] at hq
  -- where `cwd_apply` starts is where the walk starts
  have hstart : ∃ from', (∀ c ∈ from', IsPlain c) ∧ (cwdStart v.cwdPath path).1 = pathText from' ∧
      walk (v.tree fs) (.dir 0) from' = some (.dir (v.start path)) ∧
      components (cwdStart v.cwdPath path).2 = v.names path := by
    unfold cwdStart Vol.names Vol.start
    cases path with
    | nil => exact ⟨done, hdone, htext, hcwd, rfl⟩
    | cons c rest =>
      by_cases hc : c = slash
      · subst hc
        rw [if_pos (List.head?_cons ..), List.dropWhile_cons_of_pos (by simp), pathStart, if_pos rfl]
        refine ⟨[], by simp, rfl, rfl, ?_⟩
        -- a second slash would be an empty component
        cases rest with
        | nil => rfl
        | cons b rest =>
          have hb' : b ≠ slash := by
            rintro rfl
            rw [Vol.start, Vol.names, pathStart, if_pos rfl, components_of_ne_nil (by simp),
              List.takeWhile_cons_of_neg (by simp)] at hq
            obtain ⟨i, hi, -⟩ := walk_cons_dir hq
            rw [v.tree_empty h hb Vol.Live.root] at hi
            cases hi
          rw [List.dropWhile_cons_of_neg (by simpa using hb')]
      · rw [if_neg (by simpa using hc), pathStart, if_neg hc]
        exact ⟨done, hdone, htext, hcwd, rfl⟩
  obtain ⟨from', hfrom, hfirst, hwalk, hnames⟩ := hstart
  have hslash : ∀ c ∈ components (cwdStart v.cwdPath path).2, slash ∉ c :=
    fun c hc => slash_not_mem_components hc
  rw [← hnames] at hq
  unfold CwdFits at hfit
  rw [hfirst] at hfit
  obtain ⟨comps, hcomps, hfold, hend⟩ := foldlM_cwdStep h hb hslash hfrom hwalk hq hfit
  refine ⟨comps, hcomps, ?_, hend⟩
  have happly' : cwdApply v.cwdPath path = (do
      let text ← (components (cwdStart v.cwdPath path).2).foldlM cwdStep (cwdStart v.cwdPath path).1
      let text ← if text = [] then cwdPush text slash else some text
      if text.length < 128 then some text else none) := rfl
  obtain ⟨rest, hrest⟩ := pathText_head comps
  rw [happly', hfirst, hfold, hrest] at happly
  simp only [Option.bind_eq_bind, Option.bind_some, reduceCtorEq, if_false] at happly
  split_ifs at happly
  rw [hrest]
  exact (Option.some.inj happly).symm

end Tree

/-! ## `fat_cd` -/

section Cd

variable {fs : Fs} {ps : ℕ} {fails : Faults} {v : Vol}

theorem Vol.Found.lookup (h : v.Consistent fs) {d : UInt16} (hd : v.Live fs d) {name : Name83}
    {p : Dirent × Option Loc} (hf : v.Found fs d name p) : ∃ o, v.lookup fs d name = some (p.1, o) := by
  rcases hf with ⟨h0, hdot, rfl⟩ | ⟨hroot, s, hp, hsl, hin, hname, rfl⟩
  · exact ⟨none, if_pos ⟨h0, hdot⟩⟩
  · have hmem := hp.mem_dirSlots (h.dirOk hd) hsl.2
    exact ⟨some s, by rw [Vol.lookup, if_neg hroot, (h.findSlot_iff hd).2 ⟨hmem, hin, hname⟩]; rfl⟩

/-- A path leads to the entry that the tree has for it. -/
theorem Vol.Leads.walk_eq (h : v.Consistent fs) (hcwd : v.Live fs v.cwd) {d e : Dirent}
    {comps : List Bytes} (hl : v.Leads fs d comps e) :
    walk (v.tree fs) (v.node fs d) comps = some (v.node fs e) := by
  induction hl with
  | nil => rfl
  | cons hn hdir hmeets hf _ ih =>
    obtain ⟨o, ho⟩ := hf.lookup h (hmeets.live h hcwd)
    rw [walk, Vol.node, if_pos hdir, step, Vol.tree_some hn, ho]
    exact ih

/-- What `fat_cd` does when it answers 0. A device error can only keep it from that. -/
theorem fatCd_denote (hs : fs.Sane ps) {st st' : FatState} (h : (st.vol fs).Consistent fs)
    (hcwd : (st.vol fs).Live fs (st.vol fs).cwd) {path : Bytes}
    (hrun : (fatCd fs path).run (fatHandler fails) st = .ok (0, st')) :
    ∃ q text, (st.vol fs).denote fs path = some (.dir q) ∧ cwdApply st.cwdPath path = some text ∧
      st'.vol fs = { st.vol fs with cwd := q, cwdPath := text } := by
  unfold fatCd at hrun
  rw [if_neg (by simp [hs.mounted])] at hrun
  obtain ⟨r, st1, hres, hrest⟩ := Prog.run_bind_inv _ hrun
  obtain ⟨g, hres'⟩ := @Prog.run_monitor _ _ _ _ editsFat _ _ _ _ _ hres false
  obtain ⟨⟨hvol, -⟩, hfound⟩ := (resolve_guarded (J := fun _ => True) hs (h.inRange hcwd) false path
    false st ⟨rfl, trivial⟩).post hres'
  cases r with
  | none => cases hrest
  | some p =>
    have hden : (st.vol fs).denote fs path = some ((st.vol fs).node fs p.1) := by
      rw [Vol.denote_eq_walk, ← Vol.node_dirEntry]
      exact ((hfound p rfl).2 rfl).walk_eq h hcwd
    by_cases hdir : p.1.isDir = true
    · have hpath : st1.cwdPath = st.cwdPath := congrArg Vol.cwdPath hvol
      rw [Vol.node, if_pos hdir] at hden
      simp only [if_pos hdir] at hrest
      obtain ⟨_, _, hset, hrest⟩ := Prog.run_bind_inv _ hrest
      cases hset
      obtain ⟨_, _, hget, hrest⟩ := Prog.run_bind_inv _ hrest
      cases hget
      simp only [hpath] at hrest
      cases happly : cwdApply st.cwdPath path with
      | none =>
        rw [happly] at hrest
        cases hrest
      | some text =>
        rw [happly] at hrest
        cases hrest
        refine ⟨p.1.clusterLo, text, hden, rfl, ?_⟩
        rw [← hvol]
        rfl
    · simp only [if_neg hdir] at hrest
      cases hrest

/-- **The text of the working directory names the directory.** -/
theorem fatCd_cwdPath (hs : fs.Sane ps) {fault : Faults} {st st' : FatState} {path : Bytes}
    (hwf : (st.vol fs).WellFormed fs) (hblank : (st.vol fs).NoBlankNames fs)
    (hnorm : Normalised st.cwdPath)
    (hcwd : (st.vol fs).denote fs st.cwdPath = some (.dir st.cwdCluster))
    (hfit : CwdFits st.cwdPath path)
    (hrun : (fatCd fs path).run (ataHandler fault) st = .ok (0, st')) :
    Normalised st'.cwdPath ∧
      (st'.vol fs).denote fs st'.cwdPath = some (.dir st'.cwdCluster) := by
  have h := hwf.toConsistent
  -- the working directory is live, as the text leads there
  have hlive : (st.vol fs).Live fs (st.vol fs).cwd := by
    obtain ⟨done, hdone, htext⟩ := hnorm
    rw [htext, Vol.denote_pathText hdone] at hcwd
    exact Vol.live_of_walk h Vol.Live.root hcwd
  obtain ⟨q, text, hden, happly, hvol⟩ := fatCd_denote hs h hlive hrun
  obtain ⟨comps, hplain, htext, hwalk⟩ := cwdApply_denote h hblank hnorm hcwd hfit hden happly
  have hpath : st'.cwdPath = text := congrArg Vol.cwdPath hvol
  have hcluster : st'.cwdCluster = q := congrArg Vol.cwd hvol
  rw [hpath, hcluster]
  refine ⟨⟨comps, hplain, htext⟩, ?_⟩
  rw [htext, Vol.denote_pathText hplain, hvol]
  exact hwalk

end Cd

/-- `cd d/.` from the root. -/
theorem fatCd_cwdPath_oneDir : ∃ st',
    (fatCd smallFs [0x64, slash, dot]).run (ataHandler noFaults) oneDir
      = .ok (0, st') ∧ st'.cwdPath = [slash, 0x44] ∧ Normalised st'.cwdPath ∧
    (st'.vol smallFs).denote smallFs st'.cwdPath = some (.dir st'.cwdCluster) := by
  have hrun : (fatCd smallFs [0x64, slash, dot]).Ends (ataHandler noFaults) oneDir
      (fun r st => r = 0 ∧ st.cwdPath = [slash, 0x44]) := by decide +kernel
  obtain ⟨_, st', hrun, rfl, htext⟩ := hrun
  have hclosed : (oneDir.vol smallFs).Closed smallFs [0, 2] := by decide +kernel
  have hblank : (oneDir.vol smallFs).NoBlankNames smallFs := by
    have hused : ∀ p ∈ ([0, 2] : List UInt16), ∀ s ∈ (oneDir.vol smallFs).usedSlots smallFs p,
        ¬ IsBlank ((oneDir.vol smallFs).entry s).name := by decide +kernel
    rintro s ⟨p, hp, hs⟩ hin
    exact hused p (hclosed.mem_of_live hp) s (Vol.mem_usedSlots.2 ⟨hs, hin⟩)
  exact ⟨st', hrun, htext, fatCd_cwdPath smallFs_sane (oneDir_wellFormed rfl) hblank
    ⟨[], by simp, rfl⟩ (by decide +kernel) (by decide +kernel) hrun⟩

end OctoOS
