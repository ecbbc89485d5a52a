/-
# Drunos.Retic.FieldSetUnion — the union of two field sets

`field_set_union` puts the fields of its right side into a copy of the left one.
On bits it is the union of two partial maps that prefers the right side. Which
types it has fields of is a union too (`mem_types_union`), so it is associative,
wildcards in the sets included (`fieldSetUnion_assoc`).
-/
import Drunos.Oxm.KnownBits
import Drunos.Retic.Sound

namespace Drunos.Retic

open Drunos.Oxm Drunos.Theory

set_option autoImplicit false

variable [OxmTypes]

theorem mem_types_modify {s : FieldSet} {f : Field} {t : OxmType} :
    t ∈ (s.modify f).types ↔ t ∈ s.types ∨ t = f.type := by
  rw [FieldSet.mem_types, FieldSet.mem_types]
  by_cases same : t = f.type
  · subst same
    simp
  · simp [FieldSet.entry_modify_of_ne s same, same]

theorem mem_types_foldl {fs : List Field} {s : FieldSet} {t : OxmType} :
    t ∈ (fs.foldl FieldSet.modify s).types ↔ t ∈ s.types ∨ ∃ f ∈ fs, t = f.type := by
  induction fs generalizing s with
  | nil => simp
  | cons f fs ih => simp [ih, mem_types_modify, or_assoc]

theorem mem_types_fields {s : FieldSet} {t : OxmType} :
    t ∈ s.types ↔ ∃ f ∈ s.fields, t = f.type := by
  rw [FieldSet.mem_types, Option.isSome_iff_exists]
  constructor
  · rintro ⟨b, found⟩
    exact ⟨⟨t, b⟩, FieldSet.mem_fields.mpr found, rfl⟩
  · rintro ⟨f, mem, rfl⟩
    exact ⟨f.bits, FieldSet.mem_fields.mp mem⟩

theorem mem_types_union {a b : FieldSet} {t : OxmType} :
    t ∈ (fieldSetUnion a b).types ↔ t ∈ a.types ∨ t ∈ b.types := by
  rw [fieldSetUnion, mem_types_foldl, mem_types_fields (s := b)]

theorem get_fieldSetUnion (a b : FieldSet) (t : OxmType) :
    (fieldSetUnion a b).get t = (a.get t).overwrite (b.get t) :=
  congrFun (Knowledge.get_union a b) t

theorem knownBits_union (a b : FieldSet) :
    (fieldSetUnion a b).knownBits = PartialMap.union a.knownBits b.knownBits := by
  funext ⟨t, i⟩
  simp only [FieldSet.knownBits, get_fieldSetUnion, MaskedBits.bit_overwrite,
    PartialMap.union_apply]

/-- Sets with fields of the same types, of which they say the same, are equal. -/
theorem sameAs_of_get {a b : FieldSet} (types : ∀ t, t ∈ a.types ↔ t ∈ b.types)
    (known : a.get = b.get) : a.sameAs b = true := by
  rw [FieldSet.sameAs_iff]
  funext t
  have stored := types t
  rw [a.mem_types, b.mem_types] at stored
  have said := congrFun known t
  simp only [FieldSet.get] at said
  cases left : a.entry t <;> cases right : b.entry t <;> simp_all

theorem fieldSetUnion_assoc (a b c : FieldSet) :
    (fieldSetUnion (fieldSetUnion a b) c).sameAs (fieldSetUnion a (fieldSetUnion b c)) = true := by
  apply sameAs_of_get
  · intro t
    simp only [mem_types_union, or_assoc]
  · funext t
    simp only [get_fieldSetUnion, MaskedBits.overwrite_assoc]

/-- In whatever order the fields of a set are met, it is applied the same. -/
theorem apply_congr {s s' : FieldSet} (same : s.sameAs s' = true) (x : Packet) :
    s.apply x = s'.apply x := by
  funext t
  rw [FieldSet.apply_apply, FieldSet.apply_apply, FieldSet.get, FieldSet.sameAs_iff.mp same]
  rfl

/-- **A field set is a partial map on bits.** After any calls `load` and `test` see of each bit what
it was last given and has not lost since; the modifiers put a patch over the map and take bits from
it; the union is associative, and applied as its left and then its right side. Where the packet is a
field set itself, it is applied by `fieldSetUnion`, and the associativity says so of it. -/
theorem fieldSet_partialMap (s a b c : FieldSet) (calls : List FieldSet.Modifier) :
    (∀ (m : Mask) i v, ((s.run calls).load m.type m.bits).bit i = some v ↔
      m.bits.getLsbD i = true ∧ s.LastGiven calls (m.type, i) v) ∧
    (∀ need : Field, (s.run calls).testField need = true ↔
      ∀ k v w, need.knownBits k = some v → s.LastGiven calls k w → w = v) ∧
    (∀ patch, (s.modify patch).knownBits = PartialMap.union s.knownBits patch.knownBits) ∧
    (∀ m, (s.erase m).knownBits = PartialMap.without s.knownBits m.covers) ∧
    (fieldSetUnion a b).knownBits = PartialMap.union a.knownBits b.knownBits ∧
    (fieldSetUnion (fieldSetUnion a b) c).sameAs (fieldSetUnion a (fieldSetUnion b c)) = true ∧
    ∀ (u : FieldSet) (x : Packet), u.sameAs (fieldSetUnion a b) = true →
      u.apply x = b.apply (a.apply x) := by
  refine ⟨fun m i v => ?_, fun need => ?_, FieldSet.knownBits_modify s, FieldSet.knownBits_erase s,
    knownBits_union a b, fieldSetUnion_assoc a b c, fun u x same => ?_⟩
  · rw [FieldSet.load_bit, FieldSet.knownBits_run_iff]
  · simp only [FieldSet.testField_iff, FieldSet.knownBits_run_iff]
  · rw [apply_congr same, fieldSetUnion_apply]

end Drunos.Retic
