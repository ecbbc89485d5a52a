/-
# Drunos.Oxm.KnownBits — a field set is a partial map on bits

A bit is named by a field type and a position. `knownBits` is what a set says of
each: the value where some field of the set has the bit under its mask, nothing
elsewhere. The two modifiers of a set are the two changes of a partial map:

* `knownBits_modify`: the patch is put over what was known;
* `knownBits_erase`: the bits under the mask are forgotten.

So a set that went through any calls of them knows of each bit what it was last
given and has not lost since (`knownBits_run`), and `load` and `test` answer from
that (`load_bit`, `testField_iff`).
-/
import Drunos.Oxm.FieldSet
import Drunos.Theory.Run

namespace Drunos.Oxm

open Drunos.Theory

set_option autoImplicit false

variable [OxmTypes]

/-- What the field says of each bit. -/
def Field.knownBits (f : Field) : OxmType × Nat → Option Bool :=
  fun k => if k.1 = f.type then f.bits.bit k.2 else none

/-- The bits under the mask. -/
def Mask.covers (m : Mask) : OxmType × Nat → Bool := fun k => k.1 = m.type && m.bits.getLsbD k.2

namespace FieldSet

/-- `Packet::test` of a set: `load(mask(need)) & need`. -/
def testField (s : FieldSet) (need : Field) : Bool :=
  (s.load need.type need.bits.mask).Compatible need.bits

/-- What the set says of each bit. -/
def knownBits (s : FieldSet) : OxmType × Nat → Option Bool := fun k => (s.get k.1).bit k.2

/-! ## The calls that change a set -/

inductive Modifier where
  | modify (patch : Field)
  | erase (m : Mask)

def call (s : FieldSet) : Modifier → FieldSet
  | .modify patch => s.modify patch
  | .erase m => s.erase m

def run (s : FieldSet) (calls : List Modifier) : FieldSet := Run.final call s calls

/-- What a call does to the bits. -/
def Modifier.change : Modifier → PartialMap.Change (OxmType × Nat) Bool
  | .modify patch => .put patch.knownBits
  | .erase m => .drop m.covers

/-- `v` is what bit `k` was last given, by a call or by the set they start from, and
no call since then has changed or erased it. -/
def LastGiven (s : FieldSet) (calls : List Modifier) (k : OxmType × Nat) (v : Bool) : Prop :=
  PartialMap.LastPut s.knownBits (calls.map Modifier.change) k v

theorem run_concat (s : FieldSet) (calls : List Modifier) (last : Modifier) :
    s.run (calls ++ [last]) = (s.run calls).call last := by
  simp [run, Run.final]

theorem knownBits_modify (s : FieldSet) (f : Field) :
    (s.modify f).knownBits = PartialMap.union s.knownBits f.knownBits := by
  funext ⟨t, i⟩
  by_cases same : t = f.type
  · subst same
    simp [knownBits, Field.knownBits, MaskedBits.bit_overwrite]
  · simp [knownBits, Field.knownBits, get_modify_of_ne s same, same]

theorem get_erase_self (s : FieldSet) (m : Mask) :
    (s.erase m).get m.type = (s.get m.type).without m.bits := by
  unfold erase
  split
  · apply MaskedBits.ext_bit
    intro i
    simp [get, *, MaskedBits.bit_without, PartialMap.without]
  · rename_i b found
    split
    · apply MaskedBits.ext_bit
      intro i
      have nothing : (b.without m.bits).wildcard = true := by assumption
      simp [get, found, MaskedBits.wildcard_iff_bit.mp nothing i]
    · simp [get, found]

theorem get_erase_of_ne (s : FieldSet) {m : Mask} {t : OxmType} (ne : t ≠ m.type) :
    (s.erase m).get t = s.get t := by
  simp [get, entry_erase_of_ne s ne]

theorem knownBits_erase (s : FieldSet) (m : Mask) :
    (s.erase m).knownBits = PartialMap.without s.knownBits m.covers := by
  funext ⟨t, i⟩
  by_cases same : t = m.type
  · subst same
    simp [knownBits, get_erase_self, MaskedBits.bit_without, PartialMap.without, Mask.covers]
  · simp [knownBits, get_erase_of_ne s same, PartialMap.without, Mask.covers, same]

theorem knownBits_call (s : FieldSet) (c : Modifier) :
    (s.call c).knownBits = c.change.act s.knownBits := by
  cases c with
  | modify patch => exact knownBits_modify s patch
  | erase m => exact knownBits_erase s m

/-- A set goes through its calls as a partial map goes through their changes. -/
theorem knownBits_run (s : FieldSet) (calls : List Modifier) :
    (s.run calls).knownBits = (calls.map Modifier.change).foldl PartialMap.Change.act s.knownBits := by
  rw [List.foldl_map, run, Run.final]
  exact (List.foldl_hom knownBits (fun s c => (knownBits_call s c).symm)).symm

theorem knownBits_run_iff {s : FieldSet} {calls : List Modifier} {k : OxmType × Nat} {v : Bool} :
    (s.run calls).knownBits k = some v ↔ s.LastGiven calls k v := by
  rw [knownBits_run, PartialMap.foldl_act_eq_some_iff]
  rfl

/-! ## What is read of a set -/

theorem sameAs_iff {s s' : FieldSet} : s.sameAs s' = true ↔ s.entry = s'.entry := by
  constructor
  · exact entry_eq_of_sameAs
  · intro same
    simp [sameAs, List.all_eq_true, mem_fields, same]

theorem load_bit {s : FieldSet} {m : Mask} {i : Nat} {v : Bool} :
    (s.load m.type m.bits).bit i = some v ↔
      m.bits.getLsbD i = true ∧ s.knownBits (m.type, i) = some v := by
  rw [load, MaskedBits.bit_restrict]
  split_ifs with asked <;> simp [asked, knownBits]

/-- A test fails exactly where a known bit differs from the one that is needed. -/
theorem testField_iff {s : FieldSet} {need : Field} :
    s.testField need = true ↔
      ∀ k v w, need.knownBits k = some v → s.knownBits k = some w → w = v := by
  rw [testField, decide_eq_true_iff, MaskedBits.compatible_iff_bit]
  constructor
  · rintro agree ⟨t, i⟩ v w needed known
    obtain ⟨rfl, here⟩ : t = need.type ∧ need.bits.bit i = some v := by
      simpa [Field.knownBits] using needed
    have asked := (MaskedBits.bit_eq_some_iff.mp here).1
    exact agree i w v (load_bit (m := need.mask).mpr ⟨asked, known⟩) here
  · intro agree i w v known needed
    exact agree (need.type, i) v w (by simpa [Field.knownBits] using needed)
      (load_bit (m := need.mask).mp known).2

end FieldSet

end Drunos.Oxm
