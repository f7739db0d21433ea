import OctoOS.Fat.CwdText
import OctoOS.Fat.Memory

set_option autoImplicit false

/-! # The length of the working directory

`cwd_apply` builds the new `cwd_path` in 128 bytes on the stack. The loop that copies a component
stops at 126 characters, but the slash in front of a component and the terminator are stored
without a look at the length. So the buffer holds as long as the path, written out from the root,
would fit, and two more directories behind a text that was cut off run over its end. -/

namespace OctoOS

open Atomic NameTree

/-- The length of a text with the slash that goes behind it. -/
def roomFor (text : Bytes) : ℕ := if 1 < text.length then text.length + 1 else text.length

/-- The length of a path written out from the root. -/
def joinedLength (cwd path : Bytes) : ℕ :=
  if path.head? = some slash then path.length else roomFor cwd + path.length

/-- The texts that successful `fat_cd` calls lead to, on well-formed volumes that may change in
    between. `ok` restricts the calls. -/
inductive CdReach (ok : Bytes → Bytes → Prop) : Bytes → Prop where
  | root : CdReach ok [slash]
  | cd {fs : Fs} {ps : ℕ} {fault : Faults} {st st' : FatState} {path : Bytes} :
      fs.Sane ps → (st.vol fs).WellFormed fs → CdReach ok st.cwdPath → ok st.cwdPath path →
      (fatCd fs path).run (ataHandler fault) st = .ok (0, st') → CdReach ok st'.cwdPath

section Bound

variable {text path : Bytes}

theorem length_lt_roomFor (h : roomFor text ≤ 128) : text.length < 128 := by
  unfold roomFor at h
  split_ifs at h <;> omega

theorem roomFor_le (text : Bytes) : roomFor text ≤ text.length + 1 := by
  unfold roomFor
  split_ifs <;> omega

theorem roomFor_mono {text' : Bytes} (h : text'.length ≤ text.length) : roomFor text' ≤ roomFor text := by
  unfold roomFor
  split_ifs <;> omega

theorem cwdCopy_length_le (text comp : Bytes) :
    (cwdCopy text comp).length ≤ text.length + comp.length := by
  induction comp generalizing text with
  | nil => exact le_refl _
  | cons c comp ih =>
    rw [cwdCopy]
    split_ifs
    · have := ih (text ++ [upper c])
      rw [List.length_append, List.length_singleton] at this
      rw [List.length_cons]
      omega
    · omega

theorem cwdUp_length_le (text : Bytes) : (cwdUp text).length ≤ text.length := by
  induction text with
  | nil => exact le_refl _
  | cons c text ih =>
    cases text with
    | nil => exact le_refl _
    | cons d text =>
      rw [cwdUp]
      split_ifs
      · simp
      · exact le_trans ih (by simp)

/-- One component: it is stored inside the buffer, and takes its length and a slash. -/
theorem cwdStep_room (comp : Bytes) (h : roomFor text ≤ 128) :
    ∃ text', cwdStep text comp = some text' ∧ roomFor text' ≤ roomFor text + (comp.length + 1) := by
  have hlen := length_lt_roomFor h
  unfold cwdStep
  by_cases hdot : comp = [dot]
  · exact ⟨text, if_pos hdot, by omega⟩
  rw [if_neg hdot]
  by_cases hup : comp = [dot, dot]
  · refine ⟨_, if_pos hup, ?_⟩
    have := cwdUp_length_le text.reverse
    rw [List.length_reverse] at this
    have := @roomFor_mono text (cwdUp text.reverse).reverse (by rwa [List.length_reverse])
    omega
  rw [if_neg hup]
  by_cases hone : 1 < text.length
  · rw [if_pos hone, cwdPush, if_pos hlen]
    refine ⟨_, rfl, ?_⟩
    have h1 := roomFor_le (cwdCopy (text ++ [slash]) comp)
    have h2 := cwdCopy_length_le (text ++ [slash]) comp
    have h3 : roomFor text = text.length + 1 := if_pos hone
    rw [List.length_append, List.length_singleton] at h2
    omega
  · rw [if_neg hone]
    refine ⟨_, rfl, ?_⟩
    have h1 := roomFor_le (cwdCopy text comp)
    have h2 := cwdCopy_length_le text comp
    have h3 : roomFor text = text.length := if_neg hone
    omega

/-- The loop of `cwd_apply`. -/
theorem foldlM_cwdStep_room (comps : List Bytes)
    (h : roomFor text + (comps.map (fun c => c.length + 1)).sum ≤ 128) :
    ∃ text', comps.foldlM cwdStep text = some text' ∧ roomFor text' ≤ 128 := by
  induction comps generalizing text with
  | nil => exact ⟨text, rfl, by simpa using h⟩
  | cons comp comps ih =>
    rw [List.map_cons, List.sum_cons] at h
    obtain ⟨text1, hstep, hroom⟩ := cwdStep_room comp (show roomFor text ≤ 128 by omega)
    obtain ⟨text', hloop, hend⟩ := ih (show roomFor text1 + _ ≤ 128 by omega)
    exact ⟨text', by rw [List.foldlM_cons, hstep]; exact hloop, hend⟩

/-- The components of a path, with a slash each, are as long as the path with one. -/
theorem components_length_le (path : Bytes) :
    ((components path).map (fun c => c.length + 1)).sum ≤ path.length + 1 := by
  generalize hn : path.length = n
  induction n using Nat.strong_induction_on generalizing path with
  | _ n ih =>
    by_cases hne : path = []
    · subst hne
      simp [components, componentsLoop]
    by_cases hsp : slash ∈ path
    · obtain ⟨c, rest, rfl, hc⟩ := List.eq_append_cons_of_mem hsp
      have hle := (List.dropWhile_sublist (l := rest) (· = slash)).length_le
      rw [List.length_append, List.length_cons] at hn
      have := ih _ (by omega) (rest.dropWhile (· = slash)) rfl
      rw [components_slash hc, List.map_cons, List.sum_cons]
      omega
    · rw [components_last hne hsp]
      simp [hn]

/-- `cwd_apply` stays inside its buffer if the path, written out, does. -/
theorem cwdApply_room {cwd : Bytes} (h : joinedLength cwd path ≤ 127) :
    ∃ text, cwdApply cwd path = some text ∧ text.length ≤ 127 := by
  have hstart : roomFor (cwdStart cwd path).1 +
      ((components (cwdStart cwd path).2).map (fun c => c.length + 1)).sum ≤ 128 := by
    have hcomps := components_length_le (cwdStart cwd path).2
    unfold joinedLength at h
    unfold cwdStart at hcomps ⊢
    by_cases habs : path.head? = some slash
    · rw [if_pos habs] at h hcomps ⊢
      obtain ⟨rest, rfl⟩ := List.head?_eq_some_iff.1 habs
      -- at least one slash is skipped
      have hle := (List.dropWhile_sublist (l := rest) (· = slash)).length_le
      rw [List.dropWhile_cons_of_pos (by simp)] at hcomps ⊢
      rw [List.length_cons] at h
      have : roomFor [slash] = 1 := rfl
      simp only at hcomps ⊢
      omega
    · rw [if_neg habs] at h hcomps ⊢
      simp only at hcomps ⊢
      omega
  obtain ⟨text, hloop, hroom⟩ := foldlM_cwdStep_room _ hstart
  have hlen := length_lt_roomFor hroom
  have happly : cwdApply cwd path = (do
      let text ← if text = [] then cwdPush text slash else some text
      if text.length < 128 then some text else none) := by
    unfold cwdStart at hloop
    rw [cwdApply]
    simp only [hloop, Option.bind_eq_bind, Option.bind_some]
  rw [happly]
  by_cases hnil : text = []
  · subst hnil
    exact ⟨[slash], rfl, by decide⟩
  · rw [if_neg hnil]
    exact ⟨text, if_pos hlen, by omega⟩

/-- A `fat_cd` that answers 0 went through `cwd_apply`. -/
theorem fatCd_cwdApply {fs : Fs} {fails : Faults} {st st' : FatState}
    (hrun : (fatCd fs path).run (fatHandler fails) st = .ok (0, st')) :
    cwdApply st.cwdPath path = some st'.cwdPath := by
  have hfail : ∀ text (st1 : FatState), (do print text; return (-1 : Int) : Fat Int).run
      (fatHandler fails) st1 ≠ .ok (0, st') := by
    intro text st1 h
    cases h
  unfold fatCd at hrun
  by_cases hm : fs.mounted = true
  · rw [if_neg (by simp [hm])] at hrun
    obtain ⟨r, st1, hres, hrun⟩ := Prog.run_bind_inv _ hrun
    have htext := ((keeps_of_idle ((resolve_reads _ _ _).mono (fun _ => FatOp.Reads.idle)) st).post hres).2
    cases r with
    | none => exact absurd hrun (hfail _ _)
    | some x =>
      obtain ⟨d, loc, n⟩ := x
      simp only at hrun
      by_cases hdir : d.isDir = true
      · rw [if_pos hdir] at hrun
        obtain ⟨_, st2, hset, hrun⟩ := Prog.run_bind_inv _ hrun
        cases hset
        obtain ⟨text, st3, hget, hrun⟩ := Prog.run_bind_inv _ hrun
        cases hget
        dsimp only at hrun
        rw [htext] at hrun
        cases happly : cwdApply st.cwdPath path with
        | none =>
          rw [happly] at hrun
          cases hrun
        | some text =>
          rw [happly] at hrun
          cases hrun
          rfl
      · rw [if_neg hdir] at hrun
        exact absurd hrun (hfail _ _)
  · rw [if_pos (by simpa using hm)] at hrun
    exact absurd hrun (hfail _ _)

/-- **`cwd_path` stays inside its array** in every run of `fat_cd` calls whose paths, written out
    from the root, have at most 127 characters. -/
theorem cdReach_fits {cwd : Bytes} (h : CdReach (fun cwd path => joinedLength cwd path ≤ 127) cwd) :
    cwd.length ≤ 127 ∧ ∀ path, joinedLength cwd path ≤ 127 →
      ∃ text, cwdApply cwd path = some text ∧ text.length ≤ 127 := by
  refine ⟨?_, fun path => cwdApply_room⟩
  cases h with
  | root => decide
  | cd hs hwf hreach hok hrun =>
    obtain ⟨text, happly, hlen⟩ := cwdApply_room hok
    rw [fatCd_cwdApply hrun] at happly
    cases happly
    exact hlen

end Bound

/-- `cd d`, and then `..`. -/
theorem cdReach_fits_oneDir : ∃ text, cwdApply [slash, 0x44] [dot, dot] = some text ∧
    text.length ≤ 127 := by
  have hrun : (fatCd smallFs [0x64]).Ends (ataHandler noFaults) oneDir
      (fun r st => r = 0 ∧ st.cwdPath = [slash, 0x44]) := by decide +kernel
  obtain ⟨_, st', hrun, rfl, htext⟩ := hrun
  have hreach : CdReach (fun cwd path => joinedLength cwd path ≤ 127) st'.cwdPath :=
    CdReach.cd smallFs_sane (oneDir_wellFormed rfl) CdReach.root (by decide) hrun
  rw [htext] at hreach
  exact (cdReach_fits hreach).2 _ (by decide)

/-! ## Twelve directories -/

/-- A volume with room for twelve directories. -/
def deepFs : Fs := { smallFs with maxCluster := 13 }

/-- `ABCDEFGH.IJK`. -/
def deepName : Bytes := str "ABCDEFGH.IJK"

/-- The entry of the directory in cluster `c`. -/
def deepEntry (c : UInt16) : Dirent := { dirEntry c with name := name83 (str "ABCDEFGH") (str "IJK") }

/-- Directories `ABCDEFGH.IJK`, each in the one before. -/
def deepState : FatState := smallState (0xFFF8 :: List.replicate 13 0xFFFF) [deepEntry 2]
  (entrySector [dotEntry 2, dotdotEntry 0, deepEntry 3] ::
    (List.range 9).map (fun i => entrySector [dotEntry (UInt16.ofNat (i + 3)),
      dotdotEntry (UInt16.ofNat (i + 2)), deepEntry (UInt16.ofNat (i + 4))]) ++
    [entrySector [dotEntry 12, dotdotEntry 11, deepEntry 13], entrySector [dotEntry 13, dotdotEntry 12]])

theorem deepState_wellFormed : (deepState.vol deepFs).WellFormed deepFs := by
  have hc : (deepState.vol deepFs).Check deepFs [0, 2, 3, 4, 5, 6, 7, 8, 9, 10, 11, 12, 13] := by
    decide +kernel
  refine hc.wellFormed (fun p hp => ?_)
  -- every directory is found by its path
  have hwalk : ∀ p ∈ ([0, 2, 3, 4, 5, 6, 7, 8, 9, 10, 11, 12, 13] : List UInt16),
      walk ((deepState.vol deepFs).tree deepFs) (.dir 0) (List.replicate (p.toNat - 1) deepName)
        = some (.dir p) := by decide +kernel
  exact Vol.live_of_walk hc.consistent Vol.Live.root (hwalk p hp)

/-- `cd` to the last of them: the text is cut off in the tenth name, and the slashes of the other
    two fill the buffer, so that the terminator is stored behind it. -/
theorem fatCd_overruns_next :
    CdReach (fun _ _ => True) deepState.cwdPath ∧ (deepState.vol deepFs).WellFormed deepFs ∧
    (List.replicate 12 deepName).foldlM cwdStep [slash]
      = some (((pathText (List.replicate 10 deepName)).take 126) ++ [slash, slash]) ∧
    cwdApply deepState.cwdPath (pathText (List.replicate 12 deepName)) = none ∧
    ((fatCd deepFs (pathText (List.replicate 12 deepName))).run
      (ataHandler noFaults) deepState).map (fun r => r.1)
        = .error .undefined :=
  ⟨CdReach.root, deepState_wellFormed, by decide +kernel, by decide +kernel, by decide +kernel⟩

end OctoOS
