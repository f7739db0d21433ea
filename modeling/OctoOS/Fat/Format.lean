import OctoOS.Fat.Names
import Mathlib.Data.List.GetD

set_option autoImplicit false

/-! # Encoding and printing names

`to_83` is used to create and to look up entries, `format_name` to list them. On components without
blanks the two are inverse up to case and a trailing dot: `format_name` gives the canonical form of
the component, from which `to_83` gives the same 11 bytes again. -/

namespace OctoOS

/-- `base` or `base.ext`, with at most 8 and 3 characters and no other dot. -/
def ShortForm (c : Bytes) : Prop :=
  (dot ∉ c ∧ c.length ≤ 8) ∨
    ∃ base ext, c = base ++ dot :: ext ∧ dot ∉ base ∧ dot ∉ ext ∧ base.length ≤ 8 ∧ ext.length ≤ 3

/-- The components `.` and `..`. -/
def IsDots (c : Bytes) : Prop := c = [dot] ∨ c = [dot, dot]
  deriving Decidable

/-- Upper case, without one trailing dot. -/
def canonical (c : Bytes) : Bytes :=
  if (c.map upper).getLast? = some dot then (c.map upper).dropLast else c.map upper

/-- Blanks only at the end. -/
def Padded (field : Bytes) : Prop := ∀ b ∈ field.dropWhile (· ≠ space), b = space
  deriving Decidable

/-- The blanks of a name are the padding of its two fields, and there is something else in it. -/
def Tidy (name : Name83) : Prop :=
  Padded (name.toList.take 8) ∧ Padded (name.toList.drop 8) ∧ ∃ b ∈ name.toList, b ≠ space
  deriving Decidable

section Format

variable {c base ext : Bytes} {name : Name83}

theorem dot_notMem_map_upper : dot ∉ c.map upper ↔ dot ∉ c :=
  not_congr (mem_map_upper (fun _ => upper_eq_dot))

theorem space_notMem_map_upper (h : space ∉ c) : space ∉ c.map upper :=
  (not_congr (mem_map_upper (fun _ => upper_eq_space))).2 h

/-! ## `to_83` on the two shapes of a component -/

theorem ne_dot_of_notMem (h : dot ∉ c) : ∀ b ∈ c, decide (b ≠ dot) = true := by
  intro b hb
  have hne : b ≠ dot := by
    rintro rfl
    exact h hb
  simpa using hne

theorem to83_base (h : dot ∉ c) :
    to83 c = if 8 < c.length then none else some (name83 (c.map upper) []) := by
  have h1 : c ≠ [dot] := by rintro rfl; exact h (by simp)
  have h2 : c ≠ [dot, dot] := by rintro rfl; exact h (by simp)
  have hall := ne_dot_of_notMem h
  rw [to83, if_neg h1, if_neg h2]
  simp only
  rw [List.takeWhile_eq_self_iff.2 hall, List.dropWhile_eq_nil_iff.2 hall]

theorem to83_ext (h : dot ∉ base) (hdots : ¬ IsDots (base ++ dot :: ext)) :
    to83 (base ++ dot :: ext) = if 8 < base.length ∨ 3 < ext.length ∨ dot ∈ ext then none
      else some (name83 (base.map upper) (ext.map upper)) := by
  have hall := ne_dot_of_notMem h
  rw [IsDots, not_or] at hdots
  rw [to83, if_neg hdots.1, if_neg hdots.2]
  simp only
  rw [List.takeWhile_append_of_pos hall, List.dropWhile_append_of_pos hall,
    List.takeWhile_cons_of_neg (by simp), List.dropWhile_cons_of_neg (by simp), List.append_nil]
  by_cases hlen : 8 < base.length
  · rw [if_pos hlen, if_pos (Or.inl hlen)]
  · rw [if_neg hlen]
    simp only [hlen, false_or]

/-- Every component has one of the two shapes. -/
theorem component_cases (c : Bytes) : dot ∉ c ∨ ∃ base ext, c = base ++ dot :: ext ∧ dot ∉ base := by
  by_cases h : dot ∈ c
  · obtain ⟨base, ext, rfl, hb⟩ := List.eq_append_cons_of_mem h
    exact Or.inr ⟨base, ext, rfl, hb⟩
  · exact Or.inl h

/-- What `to_83` accepts, apart from `.` and `..`, and what it gives. -/
theorem to83_eq_some_iff (hdots : ¬ IsDots c) : to83 c = some name ↔
    (dot ∉ c ∧ c.length ≤ 8 ∧ name = name83 (c.map upper) []) ∨
      ∃ base ext, c = base ++ dot :: ext ∧ dot ∉ base ∧ dot ∉ ext ∧ base.length ≤ 8 ∧
        ext.length ≤ 3 ∧ name = name83 (base.map upper) (ext.map upper) := by
  constructor
  · intro h
    rcases component_cases c with hno | ⟨base, ext, rfl, hb⟩
    · rw [to83_base hno] at h
      split_ifs at h with hlen
      exact Or.inl ⟨hno, Nat.le_of_not_lt hlen, (Option.some.inj h).symm⟩
    · rw [to83_ext hb hdots] at h
      split_ifs at h with hbad
      rw [not_or, not_or, Nat.not_lt, Nat.not_lt] at hbad
      exact Or.inr ⟨base, ext, rfl, hb, hbad.2.2, hbad.1, hbad.2.1, (Option.some.inj h).symm⟩
  · rintro (⟨hno, hlen, rfl⟩ | ⟨base, ext, rfl, hb, he, hblen, helen, rfl⟩)
    · rw [to83_base hno, if_neg (Nat.not_lt.2 hlen)]
    · rw [to83_ext hb hdots, if_neg]
      rw [not_or, not_or]
      exact ⟨Nat.not_lt.2 hblen, Nat.not_lt.2 helen, he⟩

theorem to83_isSome_iff : (to83 c).isSome ↔ IsDots c ∨ ShortForm c := by
  by_cases hdots : IsDots c
  · refine iff_of_true ?_ (Or.inl hdots)
    rcases hdots with rfl | rfl <;> decide
  · rw [Option.isSome_iff_exists]
    simp only [to83_eq_some_iff hdots, hdots, false_or, ShortForm]
    constructor
    · rintro ⟨n, ⟨hno, hlen, -⟩ | ⟨base, ext, heq, hb, he, hblen, helen, -⟩⟩
      · exact Or.inl ⟨hno, hlen⟩
      · exact Or.inr ⟨base, ext, heq, hb, he, hblen, helen⟩
    · rintro (⟨hno, hlen⟩ | ⟨base, ext, heq, hb, he, hblen, helen⟩)
      · exact ⟨_, Or.inl ⟨hno, hlen, rfl⟩⟩
      · exact ⟨_, Or.inr ⟨base, ext, heq, hb, he, hblen, helen, rfl⟩⟩

/-! ## `format_name` -/

/-- The two padded fields. -/
theorem toList_name83 (hb : base.length ≤ 8) (he : ext.length ≤ 3) : (name83 base ext).toList =
    (base ++ List.replicate (8 - base.length) space) ++
      (ext ++ List.replicate (3 - ext.length) space) := by
  refine List.ext_getElem (by simp; omega) (fun i h1 h2 => ?_)
  rw [Vector.getElem_toList]
  simp only [name83, Vector.getElem_ofFn]
  rw [List.getElem_append]
  simp only [List.length_append, List.length_replicate, Nat.add_sub_cancel' hb]
  split_ifs with hi
  · rw [List.getElem_append]
    split_ifs with hib
    · exact List.getD_eq_getElem _ _ hib
    · rw [List.getElem_replicate]
      exact List.getD_eq_default _ _ (Nat.le_of_not_lt hib)
  · rw [List.getElem_append]
    split_ifs with hie
    · exact List.getD_eq_getElem _ _ hie
    · rw [List.getElem_replicate]
      exact List.getD_eq_default _ _ (Nat.le_of_not_lt hie)

/-- A field without its padding. -/
theorem takeWhile_field (h : space ∉ c) (n : ℕ) :
    (c ++ List.replicate n space).takeWhile (· ≠ space) = c := by
  have hall : ∀ b ∈ c, decide (b ≠ space) = true := by
    intro b hb
    have hne : b ≠ space := by
      rintro rfl
      exact h hb
    simpa using hne
  rw [List.takeWhile_append_of_pos hall]
  cases n with
  | zero => simp
  | succ n => rw [List.replicate_succ, List.takeWhile_cons_of_neg (by simp), List.append_nil]

theorem name83_eighth (base ext : Bytes) : (name83 base ext).firstExt = ext.getD 0 space := by
  simp [name83, Name83.firstExt]

/-- `format_name` prints the two fields, with a dot between them if there is an extension. -/
theorem formatName_name83 (hb : base.length ≤ 8) (he : ext.length ≤ 3) (hbs : space ∉ base)
    (hes : space ∉ ext) :
    formatName (name83 base ext) = if ext = [] then base else base ++ dot :: ext := by
  have hlen : (base ++ List.replicate (8 - base.length) space).length = 8 := by
    rw [List.length_append, List.length_replicate]
    omega
  rw [formatName, toList_name83 hb he, List.take_left' hlen, List.drop_left' hlen, takeWhile_field hbs,
    takeWhile_field hes, name83_eighth]
  cases ext with
  | nil => rfl
  | cons x xs =>
    have hx : x ≠ space := by
      rintro rfl
      exact hes (List.mem_cons_self ..)
    have hget : (x :: xs).getD 0 space = x := rfl
    rw [hget, if_neg hx, if_neg (List.cons_ne_nil _ _)]

/-! ## Canonical forms -/

theorem canonical_of_no_dot (h : dot ∉ c) : canonical c = c.map upper := by
  rw [canonical, if_neg]
  intro hlast
  exact dot_notMem_map_upper.2 h (List.mem_of_getLast? hlast)

theorem canonical_ext (he : dot ∉ ext) : canonical (base ++ dot :: ext) =
    if ext = [] then base.map upper else base.map upper ++ dot :: ext.map upper := by
  have hmap : (base ++ dot :: ext).map upper = base.map upper ++ dot :: ext.map upper := by
    rw [List.map_append, List.map_cons]
    rfl
  rw [canonical, hmap]
  cases ext with
  | nil => simp
  | cons x xs =>
    rw [if_neg (List.cons_ne_nil x xs), if_neg]
    intro hlast
    rw [List.getLast?_append_of_ne_nil _ (List.cons_ne_nil _ _), List.map_cons,
      List.getLast?_cons_cons] at hlast
    exact dot_notMem_map_upper.2 he (List.mem_of_getLast? hlast)

/-- `format_name` after `to_83` is the canonical form. -/
theorem formatName_to83 (hsp : space ∉ c) (hdots : ¬ IsDots c) (h : to83 c = some name) :
    formatName name = canonical c := by
  rcases (to83_eq_some_iff hdots).1 h with ⟨hno, hlen, rfl⟩ | ⟨base, ext, rfl, -, he, hb, hel, rfl⟩
  · rw [formatName_name83 (by simpa using hlen) (by simp) (space_notMem_map_upper hsp) (by simp),
      if_pos rfl, canonical_of_no_dot hno]
  · rw [List.mem_append, List.mem_cons, not_or, not_or] at hsp
    rw [formatName_name83 (by simpa using hb) (by simpa using hel) (space_notMem_map_upper hsp.1)
      (space_notMem_map_upper hsp.2.2), canonical_ext he]
    simp only [List.map_eq_nil_iff]

theorem not_isDots_ext (hb : dot ∉ base) (he : dot ∉ ext) (hne : ext ≠ []) :
    ¬ IsDots (base ++ dot :: ext) := by
  cases base with
  | nil =>
    rintro (h | h)
    · exact hne (List.cons.inj h).2
    · exact he (by rw [(List.cons.inj h).2]; exact List.mem_singleton_self dot)
  | cons b bs =>
    have hbd : b ≠ dot := by
      rintro rfl
      exact hb (List.mem_cons_self ..)
    rintro (h | h)
    · exact hbd (List.cons.inj h).1
    · exact hbd (List.cons.inj h).1

theorem to83_formatName_dots (hdots : IsDots c) (h : to83 c = some name) :
    to83 (formatName name) = some name := by
  rcases hdots with rfl | rfl
  all_goals
    cases h
    decide

/-- `to_83` after `format_name` gives the name back. -/
theorem to83_formatName (hsp : space ∉ c) (h : to83 c = some name) :
    to83 (formatName name) = some name := by
  by_cases hdots : IsDots c
  · exact to83_formatName_dots hdots h
  rw [formatName_to83 hsp hdots h]
  rcases (to83_eq_some_iff hdots).1 h with ⟨hno, hlen, rfl⟩ | ⟨base, ext, rfl, hbd, he, hb, hel, rfl⟩
  · rw [canonical_of_no_dot hno, to83_base (dot_notMem_map_upper.2 hno), List.length_map,
      if_neg (Nat.not_lt.2 hlen), map_upper_map_upper]
  · rw [canonical_ext he]
    split_ifs with hnil
    · subst hnil
      rw [to83_base (dot_notMem_map_upper.2 hbd), List.length_map, if_neg (Nat.not_lt.2 hb),
        map_upper_map_upper]
      rfl
    · have hbd' := dot_notMem_map_upper.2 hbd
      have he' := dot_notMem_map_upper.2 he
      have hne : ext.map upper ≠ [] := fun h => hnil (List.map_eq_nil_iff.1 h)
      rw [to83_ext hbd' (not_isDots_ext hbd' he' hne), List.length_map, List.length_map, if_neg,
        map_upper_map_upper, map_upper_map_upper]
      rw [not_or, not_or]
      exact ⟨Nat.not_lt.2 hb, Nat.not_lt.2 hel, he'⟩

/-! ## Names whose blanks are padding -/

/-- The bytes of a name, for a component other than `.` and `..`. -/
theorem to83_bytes (hdots : ¬ IsDots c) (h : to83 c = some name) {x : UInt8} (hx : x ∈ name.toList) :
    x = space ∨ ∃ y ∈ c, y ≠ dot ∧ x = upper y := by
  have hfield : ∀ {l : Bytes} {n : ℕ}, dot ∉ l → (∀ y ∈ l, y ∈ c) →
      x ∈ l.map upper ++ List.replicate n space → x = space ∨ ∃ y ∈ c, y ≠ dot ∧ x = upper y := by
    intro l n hno hsub hmem
    rcases List.mem_append.1 hmem with hm | hm
    · obtain ⟨y, hy, rfl⟩ := List.mem_map.1 hm
      exact Or.inr ⟨y, hsub y hy, fun hd => hno (hd ▸ hy), rfl⟩
    · exact Or.inl (List.eq_of_mem_replicate hm)
  rcases (to83_eq_some_iff hdots).1 h with ⟨hno, hlen, rfl⟩ | ⟨base, ext, rfl, hb, he, hbl, hel, rfl⟩
  · rw [toList_name83 (by simpa using hlen) (by simp)] at hx
    rcases List.mem_append.1 hx with hm | hm
    · exact hfield hno (fun _ hy => hy) hm
    · exact hfield (l := []) (by simp) (by simp) hm
  · rw [toList_name83 (by simpa using hbl) (by simpa using hel)] at hx
    rcases List.mem_append.1 hx with hm | hm
    · exact hfield hb (fun _ hy => List.mem_append_left _ hy) hm
    · exact hfield he (fun _ hy => List.mem_append_right _ (List.mem_cons_of_mem _ hy)) hm

theorem Padded.eq_append (h : Padded c) : c = c.takeWhile (· ≠ space) ++
    List.replicate (c.length - (c.takeWhile (· ≠ space)).length) space := by
  have hsplit : c.takeWhile (· ≠ space) ++ c.dropWhile (· ≠ space) = c := List.takeWhile_append_dropWhile
  have hlen : (c.dropWhile (· ≠ space)).length = c.length - (c.takeWhile (· ≠ space)).length := by
    have := congrArg List.length hsplit
    rw [List.length_append] at this
    omega
  rw [← hlen, ← List.eq_replicate_of_mem h]
  exact hsplit.symm

theorem space_notMem_takeWhile (c : Bytes) : space ∉ c.takeWhile (· ≠ space) := by
  intro hm
  exact absurd (List.mem_takeWhile_imp hm) (by simp)

/-- A tidy name is that of its two fields without their padding. -/
theorem Tidy.exists_fields (h : Tidy name) : ∃ base ext, name = name83 base ext ∧ base.length ≤ 8 ∧
    ext.length ≤ 3 ∧ space ∉ base ∧ space ∉ ext ∧ (ext = [] → base ≠ []) ∧
    ∀ b, b ∈ base ∨ b ∈ ext → b ∈ name.toList := by
  obtain ⟨hb, he, b, hmem, hne⟩ := h
  have h8 : (name.toList.take 8).length = 8 := by simp
  have h3 : (name.toList.drop 8).length = 3 := by simp
  have hbl := (List.takeWhile_sublist (fun b => decide (b ≠ space)) (l := name.toList.take 8)).length_le
  have hel := (List.takeWhile_sublist (fun b => decide (b ≠ space)) (l := name.toList.drop 8)).length_le
  rw [h8] at hbl
  rw [h3] at hel
  have hlist : name.toList = (name83 ((name.toList.take 8).takeWhile (· ≠ space))
      ((name.toList.drop 8).takeWhile (· ≠ space))).toList := by
    have hpb := hb.eq_append
    have hpe := he.eq_append
    rw [h8] at hpb
    rw [h3] at hpe
    rw [toList_name83 hbl hel, ← hpb, ← hpe, List.take_append_drop]
  refine ⟨_, _, Vector.toList_inj.1 hlist, hbl, hel, space_notMem_takeWhile _,
    space_notMem_takeWhile _, fun h0 h0' => hne ?_, ?_⟩
  · -- with both fields empty there are only blanks
    rw [hlist, h0, h0', toList_name83 (by simp) (by simp)] at hmem
    simpa using hmem
  · rintro x (hx | hx)
    · exact List.mem_of_mem_take ((List.takeWhile_sublist _).subset hx)
    · exact List.mem_of_mem_drop ((List.takeWhile_sublist _).subset hx)

/-- What is printed for a tidy name that a path can spell is a component for the same name. -/
theorem Tidy.to83_formatName (ht : Tidy name) (h : to83 c = some name) :
    to83 (formatName name) = some name := by
  by_cases hdots : IsDots c
  · exact to83_formatName_dots hdots h
  obtain ⟨base, ext, rfl, hb, he, hbs, hes, -, hsub⟩ := ht.exists_fields
  -- the bytes of the fields are no dots and already in upper case
  have hbyte : ∀ x, x ∈ base ∨ x ∈ ext → x ≠ dot ∧ upper x = x := by
    intro x hx
    rcases to83_bytes hdots h (hsub x hx) with rfl | ⟨y, -, hy, rfl⟩
    · exact ⟨by decide, by decide⟩
    · exact ⟨fun hd => hy (upper_eq_dot.1 hd), upper_upper y⟩
  have hbd : dot ∉ base := fun hm => (hbyte dot (Or.inl hm)).1 rfl
  have hed : dot ∉ ext := fun hm => (hbyte dot (Or.inr hm)).1 rfl
  have hbu : base.map upper = base :=
    (List.map_congr_left (fun x hx => (hbyte x (Or.inl hx)).2)).trans (List.map_id' base)
  have heu : ext.map upper = ext :=
    (List.map_congr_left (fun x hx => (hbyte x (Or.inr hx)).2)).trans (List.map_id' ext)
  rw [formatName_name83 hb he hbs hes]
  split_ifs with hnil
  · rw [to83_base hbd, if_neg (Nat.not_lt.2 hb), hbu, hnil]
  · rw [to83_ext hbd (not_isDots_ext hbd hed hnil), if_neg, hbu, heu]
    rw [not_or, not_or]
    exact ⟨Nat.not_lt.2 hb, Nat.not_lt.2 he, hed⟩

theorem Tidy.formatName_ne_nil (ht : Tidy name) : formatName name ≠ [] := by
  obtain ⟨base, ext, rfl, hb, he, hbs, hes, hne, -⟩ := ht.exists_fields
  rw [formatName_name83 hb he hbs hes]
  split_ifs with hnil
  · exact hne hnil
  · simp

/-- What is printed has no slash. -/
theorem slash_notMem_formatName (hc : slash ∉ c) (h : to83 c = some name) :
    slash ∉ formatName name := by
  by_cases hdots : IsDots c
  · rcases hdots with rfl | rfl
    all_goals
      cases h
      decide
  have hno : slash ∉ name.toList := by
    intro hm
    rcases to83_bytes hdots h hm with hsp | ⟨y, hy, -, hu⟩
    · cases hsp
    · exact hc (upper_eq_slash.1 hu.symm ▸ hy)
  have hbase : slash ∉ (name.toList.take 8).takeWhile (· ≠ space) := fun hm =>
    hno (List.mem_of_mem_take ((List.takeWhile_sublist _).subset hm))
  have hext : slash ∉ (name.toList.drop 8).takeWhile (· ≠ space) := fun hm =>
    hno (List.mem_of_mem_drop ((List.takeWhile_sublist _).subset hm))
  unfold formatName
  simp only
  split_ifs
  · exact hbase
  · rw [List.mem_append, List.mem_cons, not_or, not_or]
    exact ⟨hbase, by decide, hext⟩

/-- Components with the same name. -/
theorem to83_eq_iff {c' : Bytes} {name' : Name83} (hsp : space ∉ c) (hsp' : space ∉ c')
    (hdots : ¬ IsDots c) (hdots' : ¬ IsDots c') (h : to83 c = some name) (h' : to83 c' = some name') :
    name = name' ↔ canonical c = canonical c' := by
  constructor
  · rintro rfl
    rw [← formatName_to83 hsp hdots h, formatName_to83 hsp' hdots' h']
  · intro heq
    have h1 := to83_formatName hsp h
    have h2 := to83_formatName hsp' h'
    rw [formatName_to83 hsp hdots h, heq] at h1
    rw [formatName_to83 hsp' hdots' h', h1] at h2
    exact Option.some.inj h2

end Format

/-- **Names as they are encoded and printed.** For components without blanks: which ones `to_83`
    accepts, which ones it takes for the same name, what `format_name` makes of the name, and that
    `to_83` reads that back. -/
theorem to83_formatName_inverse :
    (∀ c, space ∉ c → ((to83 c).isSome ↔ IsDots c ∨ ShortForm c)) ∧
    (∀ c c' name name', space ∉ c → space ∉ c' → ¬ IsDots c → ¬ IsDots c' → to83 c = some name →
      to83 c' = some name' → (name = name' ↔ canonical c = canonical c')) ∧
    (∀ c name, space ∉ c → ¬ IsDots c → to83 c = some name → formatName name = canonical c) ∧
    ∀ c name, space ∉ c → to83 c = some name → to83 (formatName name) = some name :=
  ⟨fun _ _ => to83_isSome_iff, fun _ _ _ _ => to83_eq_iff, fun _ _ => formatName_to83,
    fun _ _ => to83_formatName⟩

/-- `notes.` and `NOTES` are one name, printed `NOTES`. -/
theorem to83_formatName_notes : ∃ name, to83 (str "notes.") = some name ∧
    to83 (str "NOTES") = some name ∧ formatName name = str "NOTES" := by
  obtain ⟨-, -, hform, -⟩ := to83_formatName_inverse
  refine ⟨name83 (str "NOTES") [], by decide, by decide, ?_⟩
  have h := hform (str "notes.") (name83 (str "NOTES") []) (by decide) (by decide) (by decide)
  rw [h]
  decide

end OctoOS
