import OctoOS.Fat.Refine
import OctoOS.Fat.Format

set_option autoImplicit false

/-! # The entries the calls create

`fat_write_file` and `fat_mkdir` store the name of the last component of their path as it comes out
of `to_83`. Its first byte is also the state of the slot, and `to_83` does not look at it: a component
that starts with the byte 0xE5 makes an entry that counts as deleted, and one that is empty or
starts with a blank or a dot makes an entry whose name starts with a blank. -/

namespace OctoOS

open NameTree

/-- The calls that store an entry under the last name of their path. -/
def FatCall.Creates : FatCall → Prop
  | .writeFile _ _ => True
  | .rm _ => False
  | .mkdir _ => True

/-- The slot such a call stores to: the one that has the name, or a free one. -/
def Vol.storeSlot (fs : Fs) (v : Vol) (p : UInt16) (name : Name83) : Option Slot :=
  (v.findSlot fs p name).or (v.freeSlot fs p)

section Created

variable {fs : Fs} {ps : ℕ} {v v' : Vol} {call : FatCall} {comp : Bytes}

/-! ## First bytes -/

/-- Where the entry is stored, and its name. -/
theorem FatCall.Outcome.storeSlot (hcall : call.Creates) (ho : call.Outcome fs v 0 v') :
    ∃ d name s, v.parent fs call.path = some (d, name) ∧ v.storeSlot fs d.clusterLo name = some s ∧
      (v'.entry s).name = name := by
  cases call with
  | writeFile path data =>
    cases ho with
    | @overwritten d name s cs w hp hf hfile _ hw =>
      refine ⟨d, name, s, hp, by rw [Vol.storeSlot, hf]; rfl, ?_⟩
      rw [Vol.setEntry_entry_self]
      exact (Vol.findSlot_spec hf).2
    | @created d name s cs w hp hnone hfree _ hw =>
      refine ⟨d, name, s, hp, by rw [Vol.storeSlot, hnone, hfree]; rfl, ?_⟩
      rw [Vol.setEntry_entry_self]
      rfl
  | rm path => exact absurd hcall id
  | mkdir path =>
    cases ho with
    | @made d name s c hp hnone hfree hcl hz =>
      refine ⟨d, name, s, hp, by rw [Vol.storeSlot, hnone, hfree]; rfl, ?_⟩
      rw [Vol.mkdirAt, Vol.setEntry_entry_self]

variable {d : Dirent} {name : Name83} {s : Slot}

section

variable (hs : fs.Sane ps) (h : v.Consistent fs) (hc : v.Live fs v.cwd) (hcall : call.Creates)
  (hlen : call.data.length < 2 ^ 32) (ho : call.Outcome fs v 0 v')

include hs h hc hcall hlen ho

/-- A name without a mark is entered in its slot, which is emptied first if it was in use. -/
theorem FatCall.Outcome.inserted (hp : v.parent fs call.path = some (d, name))
    (ht : v.storeSlot fs d.clusterLo name = some s)
    (hmarks : name.first ≠ 0x00 ∧ name.first ≠ 0xE5) :
    ∃ v1 t, v.Vacated fs v1 t ∧ v1.Inserted fs v' s d.clusterLo := by
  obtain ⟨hlive, hdot⟩ := Vol.parent_spec h hc hp
  cases call with
  | writeFile path data =>
    cases ho with
    | overwritten hp' hf hfile _ hw =>
      cases hp.symm.trans hp'
      rw [Vol.storeSlot, hf] at ht
      cases ht
      obtain ⟨v1, -, hv, hi, -⟩ := Vol.overwrite_steps hs h hlive ((h.findSlot_iff hlive).1 hf).1
        (h.owner_of_findSlot hlive hdot hf) hfile hlen hw
      exact ⟨v1, _, hv, hi⟩
    | created hp' hnone hfree _ hw =>
      cases hp.symm.trans hp'
      rw [Vol.storeSlot, hnone, hfree] at ht
      cases ht
      exact ⟨v, noSlot, Vol.vacated_of_same rfl rfl,
        Vol.inserted_created hs h hc hlen hp hmarks hnone hfree hw⟩
  | rm path => exact absurd hcall id
  | mkdir path =>
    cases ho with
    | made hp' hnone hfree hcl hz =>
      cases hp.symm.trans hp'
      rw [Vol.storeSlot, hnone, hfree] at ht
      cases ht
      exact ⟨v, noSlot, Vol.vacated_of_same rfl rfl, Vol.inserted_dir hs h hlive
        (Vol.freeSlot_spec hfree).1 (Vol.freeSlot_unused hfree)
        (Vol.freeSlot_beforeUsed hs (h.dirOk hlive) hfree) hmarks.1 hmarks.2 hdot
        (fun t ht => h.not_holds_of_findSlot hlive hnone ht) hcl hz⟩

/-- The tree has changed in the lookup of the name only. -/
theorem FatCall.Outcome.update (hp : v.parent fs call.path = some (d, name))
    (hmarks : name.first ≠ 0x00 ∧ name.first ≠ 0xE5) :
    ∃ x, v.Update fs v' d.clusterLo name x ∧ v.NoDir fs d.clusterLo name := by
  have hall : ∀ {d' name'}, v.parent fs call.path = some (d', name') →
      name'.first ≠ 0x00 ∧ name'.first ≠ 0xE5 := by
    intro d' name' hp'
    cases hp.symm.trans hp'
    exact hmarks
  cases call with
  | writeFile path data =>
    obtain ⟨d', name', hp', ⟨hu, hno⟩, -⟩ := Vol.WriteOutcome.change hs h hc hall hlen ho
    cases hp.symm.trans hp'
    exact ⟨_, hu, hno⟩
  | rm path => exact absurd hcall id
  | mkdir path =>
    obtain ⟨d', name', hp', c, hu, hno, -⟩ := Vol.MkdirOutcome.change hs h hc hall ho
    cases hp.symm.trans hp'
    exact ⟨_, hu, hno⟩

end

end Created

end OctoOS
