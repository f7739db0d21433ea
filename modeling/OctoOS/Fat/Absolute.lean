import OctoOS.Fat.Memory
import OctoOS.Fat.Refine

set_option autoImplicit false

/-! # Absolute paths

What a path with a leading slash denotes does not depend on the working directory, so the driver
reads and writes such a path correctly even when the working directory is gone. The lemmas of the
tree are about live working directories; here they are used with the root in its place. -/

namespace OctoOS

open Atomic Tiling

/-- The volumes differ at most in the working directory and the heap. -/
structure Vol.SameContents (v v' : Vol) : Prop where
  fat : v'.fat = v.fat
  area : v'.area = v.area

section Contents

variable {fs : Fs} {v v' : Vol}

theorem Vol.SameContents.symm (h : v.SameContents v') : v'.SameContents v := ⟨h.fat.symm, h.area.symm⟩

theorem Vol.SameContents.live (h : v.SameContents v') {p : UInt16} (hp : v.Live fs p) :
    v'.Live fs p := by
  obtain ⟨fat, area, cwd, text, heap⟩ := v'
  obtain ⟨rfl, rfl⟩ := h
  induction hp with
  | root => exact Vol.Live.root
  | sub _ hmem hsub ih => exact Vol.Live.sub ih hmem hsub

theorem Vol.SameContents.consistent (h : v.SameContents v') (hv : v.Consistent fs) :
    v'.Consistent fs := by
  have hlive : ∀ {p}, v'.Live fs p → v.Live fs p := fun hp => h.symm.live hp
  obtain ⟨fat, area, cwd, text, heap⟩ := v'
  obtain ⟨rfl, rfl⟩ := h
  have htree : ∀ {s}, Vol.InTree fs ⟨v.fat, v.area, cwd, text, heap⟩ s → v.InTree fs s :=
    fun ⟨p, hp, hs⟩ => ⟨p, hlive hp, hs⟩
  have howner : ∀ {s}, Vol.Owner fs ⟨v.fat, v.area, cwd, text, heap⟩ s → v.Owner fs s :=
    fun ho => ⟨htree ho.1, ho.2⟩
  exact {
    chains := fun s ho => hv.chains s (howner ho)
    disjoint := fun s t hs ht => hv.disjoint s t (howner hs) (howner ht)
    dirCluster := fun s hs => hv.dirCluster s (htree hs)
    files := fun s ho => hv.files s (howner ho)
    names := fun p hp => hv.names p (hlive hp)
    ended := fun p hp => hv.ended p (hlive hp)
    rootDots := hv.rootDots
    dots := fun p hp => hv.dots p (hlive hp) }

theorem Vol.SameContents.walkPath (h : v.SameContents v') (parentOf : Bool) (comps : List Bytes)
    (out : Dirent) (o : Option Slot) :
    v'.walkPath fs parentOf comps out o = v.walkPath fs parentOf comps out o := by
  obtain ⟨fat, area, cwd, text, heap⟩ := v'
  obtain ⟨rfl, rfl⟩ := h
  induction comps generalizing out o with
  | nil => rfl
  | cons comp rest ih =>
    have hlookup : ∀ c name, Vol.lookup fs ⟨v.fat, v.area, cwd, text, heap⟩ c name
        = v.lookup fs c name := fun _ _ => rfl
    simp only [Vol.walkPath, hlookup, ih]

/-- An absolute path denotes the same on both. -/
theorem Vol.SameContents.denote (h : v.SameContents v') (path : Bytes) :
    v'.denote fs (slash :: path) = v.denote fs (slash :: path) := by
  have hnode : ∀ d, v'.node fs d = v.node fs d := by
    intro d
    obtain ⟨fat, area, cwd, text, heap⟩ := v'
    obtain ⟨rfl, rfl⟩ := h
    rfl
  have hstart : ∀ cwd, pathStart cwd (slash :: path) = (0, path) := fun cwd => by
    simp [pathStart]
  simp only [Vol.denote, Vol.resolvePath, hstart, h.walkPath, hnode]

end Contents

section States

variable {fs : Fs} {ps : ℕ} {fault : Faults} {st st' : FatState} {l : List Blk}

theorem FatState.sameContents_withCwd (fs : Fs) (st : FatState) (c : UInt16) :
    (st.vol fs).SameContents ((st.withCwd c).vol fs) := ⟨rfl, rfl⟩

theorem Vol.WriteOutcome.result {v v' : Vol} {path data : Bytes} {r : Int}
    (ho : v.WriteOutcome fs path data r v') : r = 0 ∨ r = -1 := by
  cases ho <;> simp

end States

end OctoOS
