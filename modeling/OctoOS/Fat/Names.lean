import OctoOS.Fat.Resolve
import Mathlib.Data.List.TakeWhile

set_option autoImplicit false

/-! # The names paths can denote

`to_83` never yields a name with a leading dot other than those of `.` and `..`, and the first byte
of any other name comes from the path or is a blank. So a path whose bytes all satisfy a property
that holds of blanks and is kept by upper-casing can only create names that start with such a
byte. -/

namespace OctoOS

/-- A property of bytes that names inherit from paths. -/
structure NameByte (P : UInt8 → Prop) : Prop where
  space : P space
  upper : ∀ b, P b → P (upper b)

theorem upper_toNat (b : UInt8) : (upper b).toNat =
    if 97 ≤ b.toNat ∧ b.toNat ≤ 122 then b.toNat - 32 else b.toNat := by
  unfold upper
  have h1 : (0x61 ≤ b ∧ b ≤ 0x7A) ↔ (97 ≤ b.toNat ∧ b.toNat ≤ 122) := by
    rw [UInt8.le_iff_toNat_le, UInt8.le_iff_toNat_le]
    rfl
  by_cases h : 0x61 ≤ b ∧ b ≤ 0x7A
  · rw [if_pos h, if_pos (h1.1 h), UInt8.toNat_add, UInt8.toNat_sub]
    have h2 : (0x61 : UInt8).toNat = 97 := rfl
    have h3 : (0x41 : UInt8).toNat = 65 := rfl
    have h4 := h1.1 h
    omega
  · rw [if_neg h, if_neg (fun h' => h (h1.2 h'))]

theorem nameByte_ne_zero : NameByte (fun b => b ≠ 0) where
  space := by decide
  upper b hb hu := by
    have h0 : b.toNat ≠ 0 := fun h => hb (UInt8.toNat_inj.1 h)
    have h1 := upper_toNat b
    rw [hu, UInt8.toNat_zero] at h1
    split_ifs at h1 <;> omega

/-- What the shell's `read_line` admits. -/
def Printable (b : UInt8) : Prop := 0x20 ≤ b ∧ b ≤ 0x7E
  deriving Decidable

variable {comp x : Bytes} {name : Name83} {b : UInt8}

theorem printable_iff : Printable b ↔ 32 ≤ b.toNat ∧ b.toNat ≤ 126 := by
  unfold Printable
  rw [UInt8.le_iff_toNat_le, UInt8.le_iff_toNat_le]
  rfl

/-- A printable byte is none of the marks of an unused entry. -/
theorem Printable.ne_marks (h : Printable b) : b ≠ 0x00 ∧ b ≠ 0xE5 := by
  rw [printable_iff] at h
  constructor <;> rintro rfl <;> exact absurd h (by decide)

theorem nameByte_printable : NameByte Printable where
  space := by decide
  upper b hb := by
    rw [printable_iff] at hb ⊢
    rw [upper_toNat]
    split_ifs <;> omega

/-- Upper-casing yields a byte that is no letter for that byte only. -/
theorem upper_eq_iff {x : UInt8} (hupper : ¬ (65 ≤ x.toNat ∧ x.toNat ≤ 90))
    (hlower : ¬ (97 ≤ x.toNat ∧ x.toNat ≤ 122)) : upper b = x ↔ b = x := by
  rw [← UInt8.toNat_inj, ← UInt8.toNat_inj, upper_toNat]
  split_ifs <;> omega

theorem upper_eq_dot : upper b = dot ↔ b = dot := upper_eq_iff (by decide) (by decide)

theorem upper_eq_slash : upper b = slash ↔ b = slash :=
  upper_eq_iff (by decide) (by decide)

theorem upper_eq_space : upper b = space ↔ b = space :=
  upper_eq_iff (by decide) (by decide)

theorem upper_upper (b : UInt8) : upper (upper b) = upper b := by
  rw [← UInt8.toNat_inj, upper_toNat (upper b), upper_toNat b]
  split_ifs <;> omega

theorem map_upper_map_upper (l : Bytes) : (l.map upper).map upper = l.map upper := by
  rw [List.map_map]
  exact List.map_congr_left (fun b _ => upper_upper b)

/-- The bytes that are no letters keep their places in a list. -/
theorem mem_map_upper {x : UInt8} (hx : ∀ b, upper b = x ↔ b = x) {l : Bytes} :
    x ∈ l.map upper ↔ x ∈ l := by
  rw [List.mem_map]
  constructor
  · rintro ⟨b, hb, hu⟩
    rwa [← (hx b).1 hu]
  · exact fun h => ⟨x, h, (hx x).2 rfl⟩

theorem name83_head (base ext : Bytes) : (name83 base ext).first = base.getD 0 space := by
  simp [name83, Name83.first]

/-- The first byte of a name, for a component other than `.` and `..`. -/
theorem to83_head (h : to83 comp = some name) :
    name.first = dot ∧ IsDotName name ∨ name.first = space ∨
      ∃ b ∈ comp, b ≠ dot ∧ name.first = upper b := by
  unfold to83 at h
  by_cases h1 : comp = [dot]
  · rw [if_pos h1, Option.some.injEq] at h
    subst h
    exact Or.inl ⟨by decide, Or.inl rfl⟩
  rw [if_neg h1] at h
  by_cases h2 : comp = [dot, dot]
  · rw [if_pos h2, Option.some.injEq] at h
    subst h
    exact Or.inl ⟨by decide, Or.inr rfl⟩
  rw [if_neg h2] at h
  simp only at h
  -- the base is the part in front of the first dot
  have hbase : ∀ ext, (name83 ((comp.takeWhile (· ≠ dot)).map upper) ext).first = space ∨
      ∃ b ∈ comp, b ≠ dot ∧ (name83 ((comp.takeWhile (· ≠ dot)).map upper) ext).first = upper b := by
    intro ext
    rw [name83_head]
    cases hb : comp.takeWhile (· ≠ dot) with
    | nil => exact Or.inl rfl
    | cons b bs =>
      have hmem : b ∈ comp.takeWhile (· ≠ dot) := by rw [hb]; exact List.mem_cons_self ..
      have hne : b ≠ dot := by simpa using List.mem_takeWhile_imp hmem
      exact Or.inr ⟨b, (List.takeWhile_sublist _).subset hmem, hne, rfl⟩
  split_ifs at h with hlen
  · cases hd : comp.dropWhile (· ≠ dot) with
    | nil =>
      simp only [hd, Option.some.injEq] at h
      rw [← h]
      exact Or.inr (hbase [])
    | cons x ext =>
      simp only [hd] at h
      split_ifs at h
      simp only [Option.some.injEq] at h
      rw [← h]
      exact Or.inr (hbase _)

theorem to83_ne_dot (h : to83 comp = some name) (hdot : ¬ IsDotName name) : name.first ≠ dot := by
  rcases to83_head h with ⟨-, hd⟩ | hsp | ⟨b, -, hne, hb⟩
  · exact absurd hd hdot
  · rw [hsp]
    decide
  · rw [hb]
    exact fun hu => hne (upper_eq_dot.1 hu)

/-- The components of a path consist of bytes of the path. -/
theorem mem_of_mem_components {path : Bytes} (hc : comp ∈ components path) (hb : b ∈ comp) :
    b ∈ path := by
  have hloop : ∀ fuel path, comp ∈ componentsLoop fuel path → b ∈ path := by
    intro fuel
    induction fuel with
    | zero =>
      intro path h
      exact absurd h (by simp [componentsLoop])
    | succ fuel ih =>
      intro path h
      cases path with
      | nil => exact absurd h (by simp [componentsLoop])
      | cons x xs =>
        rw [componentsLoop] at h
        · rcases List.mem_cons.1 h with rfl | h'
          · exact (List.takeWhile_sublist _).subset hb
          · have := ih _ h'
            exact (List.dropWhile_sublist _).subset ((List.dropWhile_sublist _).subset this)
        · simp
  exact hloop _ _ hc

theorem mem_of_mem_pathStart {cwd : UInt16} {path : Bytes} (hb : b ∈ (pathStart cwd path).2) :
    b ∈ path := by
  unfold pathStart at hb
  cases path with
  | nil => exact hb
  | cons x xs =>
    simp only at hb
    split_ifs at hb
    · exact List.mem_cons_of_mem _ hb
    · exact hb

variable {fs : Fs} {v : Vol}

theorem Vol.walkPath_name {comps : List Bytes} {d d' : Dirent} {o o' : Option Slot}
    (hw : v.walkPath fs true comps d o = some (d', o', name)) :
    ∃ comp ∈ comps, to83 comp = some name := by
  induction comps generalizing d o with
  | nil => simp [Vol.walkPath] at hw
  | cons comp rest ih =>
    obtain ⟨n, hc, ⟨-, heq⟩ | ⟨-, d1, u, -, hw⟩⟩ := Vol.walkPath_cons_inv hw
    · cases heq
      exact ⟨comp, List.mem_cons_self .., hc⟩
    · obtain ⟨c, hmem, hc'⟩ := ih hw
      exact ⟨c, List.mem_cons_of_mem _ hmem, hc'⟩

/-- The first byte of the name a call creates. -/
theorem Vol.parent_name {P : UInt8 → Prop} (hP : NameByte P) {path : Bytes}
    (hpath : ∀ b ∈ path, P b) {d : Dirent} (hp : v.parent fs path = some (d, name)) :
    P name.first := by
  obtain ⟨⟨o, hr⟩, -, hdot⟩ := Vol.parent_inv hp
  obtain ⟨comp, hmem, hc⟩ := Vol.walkPath_name hr
  rcases to83_head hc with ⟨hd, -⟩ | hsp | ⟨b, hb, -, hu⟩
  · exact absurd hd hdot
  · rw [hsp]
    exact hP.space
  · rw [hu]
    exact hP.upper b (hpath b (mem_of_mem_pathStart (mem_of_mem_components hmem hb)))

/-! ## Components -/

/-- The path behind its first component and the slashes after it. -/
def pathRest (path : Bytes) : Bytes := (path.dropWhile (· ≠ slash)).dropWhile (· = slash)

theorem pathRest_length {path : Bytes} (hne : path ≠ []) : (pathRest path).length < path.length := by
  unfold pathRest
  cases path with
  | nil => exact absurd rfl hne
  | cons c path =>
    rw [List.length_cons, Nat.lt_succ_iff]
    by_cases hc : c = slash
    · rw [List.dropWhile_cons_of_neg (by simp [hc]), List.dropWhile_cons_of_pos (by simp [hc])]
      exact (List.dropWhile_sublist _).length_le
    · rw [List.dropWhile_cons_of_pos (by simp [hc])]
      exact ((List.dropWhile_sublist _).trans (List.dropWhile_sublist _)).length_le

/-- The rounds given to the loop do not matter. -/
theorem componentsLoop_eq {fuel n : ℕ} {path : Bytes} (hp : path.length ≤ n) (hn : n ≤ fuel) :
    componentsLoop fuel path = componentsLoop n path := by
  induction n generalizing fuel path with
  | zero =>
    obtain rfl := List.length_eq_zero_iff.1 (Nat.le_zero.1 hp)
    cases fuel <;> rfl
  | succ n ih =>
    obtain ⟨fuel, rfl⟩ : ∃ k, fuel = k + 1 := ⟨fuel - 1, by omega⟩
    cases path with
    | nil => rfl
    | cons c path =>
      have hlt : (pathRest (c :: path)).length < (c :: path).length := pathRest_length (by simp)
      rw [componentsLoop, componentsLoop]
      · congr 1
        exact ih (Nat.le_of_lt_succ (lt_of_lt_of_le hlt hp)) (by omega)
      all_goals simp

theorem components_of_ne_nil {path : Bytes} (hne : path ≠ []) :
    components path = path.takeWhile (· ≠ slash) :: components (pathRest path) := by
  have hlt := pathRest_length hne
  cases path with
  | nil => exact absurd rfl hne
  | cons c path =>
    rw [components, List.length_cons, componentsLoop]
    · congr 1
      exact componentsLoop_eq le_rfl (Nat.le_of_lt_succ hlt)
    · simp

theorem ne_slash_of_not_mem (hx : slash ∉ x) : ∀ b ∈ x, decide (b ≠ slash) = true := by
  intro b hb
  have hne : b ≠ slash := by
    rintro rfl
    exact hx hb
  simpa using hne

/-- The last component. -/
theorem components_last (hx : x ≠ []) (hsl : slash ∉ x) : components x = [x] := by
  rw [components_of_ne_nil hx, pathRest, List.takeWhile_eq_self_iff.2 (ne_slash_of_not_mem hsl),
    List.dropWhile_eq_nil_iff.2 (ne_slash_of_not_mem hsl)]
  rfl

theorem slash_not_mem_components {path : Bytes} (hc : comp ∈ components path) : slash ∉ comp := by
  generalize hn : path.length = n
  induction n using Nat.strong_induction_on generalizing path with
  | _ n ih =>
    by_cases hne : path = []
    · subst hne
      exact absurd hc (by simp [components, componentsLoop])
    · rw [components_of_ne_nil hne] at hc
      rcases List.mem_cons.1 hc with rfl | hc
      · intro hs
        exact absurd (List.mem_takeWhile_imp hs) (by simp)
      · exact ih _ (by rw [← hn]; exact pathRest_length hne) hc rfl

/-- A component with a slash behind it. -/
theorem components_slash (hsl : slash ∉ x) (path : Bytes) :
    components (x ++ slash :: path) = x :: components (path.dropWhile (· = slash)) := by
  have hall := ne_slash_of_not_mem hsl
  rw [components_of_ne_nil (by simp), pathRest, List.takeWhile_append_of_pos hall,
    List.dropWhile_append_of_pos hall, List.takeWhile_cons_of_neg (by simp),
    List.dropWhile_cons_of_neg (by simp), List.dropWhile_cons_of_pos (by simp), List.append_nil]

/-- A path behind another one. -/
theorem components_append_slash (hx : x.head? ≠ some slash) {path : Bytes} (hne : path ≠ []) :
    components (path ++ slash :: x) = components path ++ components x := by
  have hx' : x.dropWhile (· = slash) = x := by
    cases x with
    | nil => rfl
    | cons c x => exact List.dropWhile_cons_of_neg (by simpa using hx)
  have hskip : (slash :: x).dropWhile (· = slash) = x := by
    rw [List.dropWhile_cons_of_pos (by simp), hx']
  -- by the length of the path; every step drops its first component
  generalize hn : path.length = n
  induction n using Nat.strong_induction_on generalizing path with
  | _ n ih =>
    by_cases hsp : slash ∈ path
    · obtain ⟨c, rest, rfl, hc⟩ := List.eq_append_cons_of_mem hsp
      rw [List.append_assoc, List.cons_append, components_slash hc, components_slash hc,
        List.dropWhile_append, List.cons_append]
      by_cases hrest : rest.dropWhile (· = slash) = []
      · rw [if_pos (by simp [hrest]), hskip, hrest]
        rfl
      · rw [if_neg (by simpa using hrest)]
        congr 1
        refine ih _ ?_ hrest rfl
        have hle := (List.dropWhile_sublist (l := rest) (· = slash)).length_le
        rw [← hn, List.length_append, List.length_cons]
        omega
    · rw [components_slash hsp, components_last hne hsp, hx']
      rfl

/-- One more component at the end of a path. -/
theorem components_append (hx : x ≠ []) (hsl : slash ∉ x) {path : Bytes} (hne : path ≠ []) :
    components (path ++ slash :: x) = components path ++ [x] := by
  have hhead : x.head? ≠ some slash := fun h => hsl (List.mem_of_head? h)
  rw [components_append_slash hhead hne, components_last hx hsl]

end OctoOS
