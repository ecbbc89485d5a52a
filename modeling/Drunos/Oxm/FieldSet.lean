/-
# Drunos.Oxm.FieldSet — sets of fields of different types

`oxm::field_set` is a hash set of fields with one field for each type at most. A
`FieldSet` is the list of its types, in the order an iteration meets them, with
the bits of each; that the two belong together is part of the structure.
-/
import Drunos.Oxm.Field
import Mathlib.Data.List.Nodup

namespace Drunos.Oxm

open Drunos.Theory

set_option autoImplicit false

variable [OxmTypes]

structure FieldSet where
  types : List OxmType
  entry : ∀ t : OxmType, Option (MaskedBits (nbits t))
  nodup : types.Nodup
  mem_types : ∀ t, t ∈ types ↔ (entry t).isSome = true

namespace FieldSet

def empty : FieldSet where
  types := []
  entry := fun _ => none
  nodup := List.nodup_nil
  mem_types := by simp

instance : EmptyCollection FieldSet := ⟨empty⟩
instance : Inhabited FieldSet := ⟨empty⟩

/-- `find`. -/
def find (s : FieldSet) (t : OxmType) : Option (MaskedBits (nbits t)) := s.entry t

/-- What is known of `t`: nothing, if no field has this type. -/
def get (s : FieldSet) (t : OxmType) : MaskedBits (nbits t) := (s.entry t).getD .unknown

/-- What is known of `t` under a mask. -/
abbrev load (s : FieldSet) (t : OxmType) (m : BitVec (nbits t)) : MaskedBits (nbits t) :=
  (s.get t).restrict m

def modify (s : FieldSet) (patch : Field) : FieldSet where
  types := if patch.type ∈ s.types then s.types else s.types ++ [patch.type]
  entry := Function.update s.entry patch.type
    (some (((s.entry patch.type).getD patch.bits).overwrite patch.bits))
  nodup := by
    split
    · exact s.nodup
    · refine List.nodup_append.mpr ⟨s.nodup, List.nodup_singleton _, ?_⟩
      intro t mem u eq
      rw [List.mem_singleton.mp eq]
      exact fun same => ‹patch.type ∉ s.types› (same ▸ mem)
  mem_types := by
    intro t
    by_cases same : t = patch.type
    · subst same
      split <;> simp_all
    · rw [Function.update_of_ne same, ← s.mem_types t]
      split <;> simp [same]

def erase (s : FieldSet) (m : Mask) : FieldSet :=
  match found : s.entry m.type with
  | none => s
  | some b =>
      if (b.without m.bits).wildcard then
        { types := s.types.filter (· ≠ m.type)
          entry := Function.update s.entry m.type none
          nodup := s.nodup.filter _
          mem_types := by
            intro t
            by_cases same : t = m.type
            · subst same; simp
            · simp [same, s.mem_types t] }
      else
        { types := s.types
          entry := Function.update s.entry m.type (some (b.without m.bits))
          nodup := s.nodup
          mem_types := by
            intro t
            by_cases same : t = m.type
            · subst same; simp [s.mem_types, found]
            · simp [same, s.mem_types t] }

/-- The fields in the order an iteration meets them. -/
def fields (s : FieldSet) : List Field :=
  s.types.filterMap fun t => (s.entry t).map (Field.mk t)

/-- `operator&` with a packet: it has all fields of the set. -/
def test (s : FieldSet) (x : Packet) : Bool := s.fields.all x.test

/-- The packet with every field of the set put in. -/
def apply (s : FieldSet) (x : Packet) : Packet := s.fields.foldl Packet.modify x

def ofField (f : Field) : FieldSet := empty.modify f

/-- `operator==`: the same fields in any order. -/
def sameAs (s s' : FieldSet) : Bool :=
  s.fields.all (· ∈ s'.fields) && s'.fields.all (· ∈ s.fields)

/-! ## What a set says of each type -/

@[simp] theorem get_empty (t : OxmType) : (∅ : FieldSet).get t = .unknown := rfl

@[simp] theorem entry_empty (t : OxmType) : (∅ : FieldSet).entry t = none := rfl

theorem get_of_entry {s : FieldSet} {t : OxmType} {b : MaskedBits (nbits t)}
    (found : s.entry t = some b) : s.get t = b := by
  simp [get, found]

theorem entry_modify (s : FieldSet) (f : Field) :
    (s.modify f).entry = Function.update s.entry f.type (some ((s.get f.type).overwrite f.bits)) := by
  show Function.update s.entry f.type _ = _
  congr 2
  cases found : s.entry f.type <;> simp [get, found]

@[simp] theorem entry_modify_self (s : FieldSet) (f : Field) :
    (s.modify f).entry f.type = some ((s.get f.type).overwrite f.bits) := by
  simp [entry_modify]

theorem entry_modify_of_ne (s : FieldSet) {f : Field} {t : OxmType} (ne : t ≠ f.type) :
    (s.modify f).entry t = s.entry t := by
  simp [entry_modify, ne]

@[simp] theorem get_modify_self (s : FieldSet) (f : Field) :
    (s.modify f).get f.type = (s.get f.type).overwrite f.bits := by
  simp [get]

theorem get_modify_of_ne (s : FieldSet) {f : Field} {t : OxmType} (ne : t ≠ f.type) :
    (s.modify f).get t = s.get t := by
  simp [get, entry_modify_of_ne s ne]

/-- The masks of the set can be built. -/
def Fits (s : FieldSet) : Prop := ∀ t, Allowed t (s.get t).mask

theorem fits_empty : (∅ : FieldSet).Fits := fun _ => .inr (.inr rfl)

theorem fits_modify {s : FieldSet} {f : Field} (fits : s.Fits) (built : f.Fits) : (s.modify f).Fits := by
  intro t
  by_cases same : t = f.type
  · subst same
    rw [get_modify_self]
    exact (fits f.type).or built
  · rw [get_modify_of_ne s same]
    exact fits t

theorem mem_fields {s : FieldSet} {f : Field} : f ∈ s.fields ↔ s.entry f.type = some f.bits := by
  obtain ⟨t, b⟩ := f
  simp only [fields, List.mem_filterMap, Option.map_eq_some_iff]
  constructor
  · rintro ⟨u, -, c, found, same⟩
    obtain ⟨rfl, same⟩ := Field.mk.inj same
    rwa [eq_of_heq same] at found
  · intro found
    exact ⟨t, (s.mem_types t).mpr (by simp [found]), b, found, rfl⟩

theorem entry_eq_of_sameAs {s s' : FieldSet} (same : s.sameAs s' = true) : s.entry = s'.entry := by
  obtain ⟨left, right⟩ := Bool.and_eq_true_iff.mp same
  funext t
  ext b
  constructor
  · intro found
    have mem : (⟨t, b⟩ : Field) ∈ s.fields := mem_fields.mpr found
    exact mem_fields.mp (of_decide_eq_true (List.all_eq_true.mp left _ mem))
  · intro found
    have mem : (⟨t, b⟩ : Field) ∈ s'.fields := mem_fields.mpr found
    exact mem_fields.mp (of_decide_eq_true (List.all_eq_true.mp right _ mem))

/-- The packet has what the set says of each type. -/
theorem test_iff {s : FieldSet} {x : Packet} :
    s.test x = true ↔ ∀ t, (s.get t).Matches (x t) := by
  simp only [test, List.all_eq_true]
  constructor
  · intro all t
    cases found : s.entry t with
    | none => simp [get, found]
    | some b =>
        have has := Packet.test_iff.mp (all ⟨t, b⟩ (mem_fields.mpr found))
        rwa [get_of_entry found]
  · intro known f mem
    have bits := known f.type
    rw [get_of_entry (mem_fields.mp mem)] at bits
    exact Packet.test_iff.mpr bits

@[simp] theorem test_empty (x : Packet) : (∅ : FieldSet).test x = true := rfl

/-- Putting a field into a set of facts about a packet keeps them facts. -/
theorem test_modify {s : FieldSet} {x : Packet} {f : Field} (known : s.test x = true)
    (has : x.test f = true) : (s.modify f).test x = true := by
  rw [test_iff] at known ⊢
  intro t
  by_cases same : t = f.type
  · subst same
    rw [get_modify_self]
    exact MaskedBits.overwrite_matches (known _) (Packet.test_iff.mp has)
  · rw [get_modify_of_ne s same]
    exact known t

theorem test_modify_of_entry {s : FieldSet} {x : Packet} {f : Field}
    (fresh : s.entry f.type = none) :
    (s.modify f).test x = true ↔ s.test x = true ∧ x.test f = true := by
  constructor
  · intro known
    rw [test_iff] at known ⊢
    refine ⟨fun t => ?_, ?_⟩
    · by_cases same : t = f.type
      · subst same
        simp [get, fresh]
      · have bits := known t
        rwa [get_modify_of_ne s same] at bits
    · have bits := known f.type
      rw [get_modify_self, get, fresh] at bits
      rw [Packet.test_iff]
      simpa using bits
  · exact fun ⟨known, has⟩ => test_modify known has

theorem test_congr {s s' : FieldSet} (same : s.entry = s'.entry) : s.test = s'.test := by
  funext x
  rw [Bool.eq_iff_iff, test_iff, test_iff]
  simp only [get, same]

/-! ## Erasing a mask -/

theorem entry_erase_of_ne (s : FieldSet) {m : Mask} {t : OxmType} (ne : t ≠ m.type) :
    (s.erase m).entry t = s.entry t := by
  unfold erase
  split
  · rfl
  · split <;> simp [ne]

/-- A whole mask leaves nothing of its type. -/
theorem entry_erase_self (s : FieldSet) {m : Mask} (whole : m.bits = BitVec.allOnes _) :
    (s.erase m).entry m.type = none := by
  unfold erase
  split
  · assumption
  · have nothing : ∀ b : MaskedBits (nbits m.type), (b.without m.bits).wildcard = true := by
      simp [whole, MaskedBits.without, MaskedBits.restrict, MaskedBits.wildcard]
    rw [if_pos (nothing _)]
    simp

/-! ## Applying a set to a packet -/

theorem foldl_modify (s : FieldSet) (t : OxmType) (x : Packet) {ts : List OxmType}
    (nodup : ts.Nodup) :
    (ts.filterMap fun u => (s.entry u).map (Field.mk u)).foldl Packet.modify x t =
      if t ∈ ts then (s.get t).write (x t) else x t := by
  induction ts generalizing x with
  | nil => rfl
  | cons u ts ih =>
      obtain ⟨fresh, nodup⟩ := List.nodup_cons.mp nodup
      cases found : s.entry u with
      | none =>
          rw [List.filterMap_cons_none (by simp [found]), ih x nodup]
          by_cases same : t = u
          · subst same
            simp [fresh, get, found]
          · simp [same]
      | some b =>
          rw [List.filterMap_cons_some (b := ⟨u, b⟩) (by simp [found]), List.foldl_cons,
            ih (x.modify ⟨u, b⟩) nodup]
          by_cases same : t = u
          · subst same
            simp [fresh, Packet.modify, get, found]
          · simp [same, Packet.modify]

/-- A set is applied type by type. -/
theorem apply_apply (s : FieldSet) (x : Packet) (t : OxmType) :
    s.apply x t = (s.get t).write (x t) := by
  rw [apply, fields, foldl_modify s t x s.nodup]
  split
  · rfl
  · have absent : s.entry t = none := by simpa [s.mem_types] using ‹t ∉ s.types›
    simp [get, absent]

@[simp] theorem apply_empty (x : Packet) : (∅ : FieldSet).apply x = x := rfl

theorem apply_modify (s : FieldSet) (f : Field) (x : Packet) :
    (s.modify f).apply x = (s.apply x).modify f := by
  funext t
  rw [apply_apply]
  by_cases same : t = f.type
  · subst same
    rw [get_modify_self, MaskedBits.overwrite_write, Packet.modify, Function.update_self, apply_apply]
  · rw [get_modify_of_ne s same, Packet.modify, Function.update_of_ne same, apply_apply]

/-- The fields of a set put into another one, type by type. -/
theorem get_foldl_modify (s : FieldSet) (t : OxmType) (start : FieldSet) {ts : List OxmType}
    (nodup : ts.Nodup) :
    ((ts.filterMap fun u => (s.entry u).map (Field.mk u)).foldl modify start).get t =
      if t ∈ ts then (start.get t).overwrite (s.get t) else start.get t := by
  induction ts generalizing start with
  | nil => rfl
  | cons u ts ih =>
      obtain ⟨fresh, nodup⟩ := List.nodup_cons.mp nodup
      cases found : s.entry u with
      | none =>
          rw [List.filterMap_cons_none (by simp [found]), ih start nodup]
          by_cases same : t = u
          · subst same
            simp [fresh, get, found]
          · simp [same]
      | some b =>
          rw [List.filterMap_cons_some (b := ⟨u, b⟩) (by simp [found]), List.foldl_cons,
            ih (start.modify ⟨u, b⟩) nodup]
          by_cases same : t = u
          · subst same
            rw [if_neg fresh, if_pos List.mem_cons_self, get_of_entry found]
            exact get_modify_self start ⟨t, b⟩
          · rw [get_modify_of_ne start same]
            simp [same]

end FieldSet

end Drunos.Oxm
