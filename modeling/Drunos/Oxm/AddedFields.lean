/-
# Drunos.Oxm.AddedFields — what a multi_field_set is for

A `multi_field_set` that fields were added to. No field of it includes another of its type
(`Separate`): a field that is covered is not added, and the fields it covers go. The field sets of
`fields` match exactly the packets that have, for each type added, one of the fields added of it
(`addAll_fields`).

The source enumerates the choices with one field set, which it modifies and erases again; this is
`enumerate`.
-/
import Drunos.Oxm.MultiFieldSet

namespace Drunos.Oxm

open Drunos.Theory

set_option autoImplicit false

section

variable [OxmTypes]

/-! ## One shared field set -/

namespace FieldSet

theorem ext_entry {s s' : FieldSet} (types : s.types = s'.types) (entry : s.entry = s'.entry) :
    s = s' := by
  obtain ⟨_, _, _, _⟩ := s
  obtain ⟨_, _, _, _⟩ := s'
  cases types
  cases entry
  rfl

/-- A field that is put in where its type was not and erased again leaves nothing. -/
theorem erase_modify {s : FieldSet} {f : Field} (fresh : s.entry f.type = none) :
    (s.modify f).erase f.mask = s := by
  have entry : (s.modify f).entry f.mask.type = some f.bits := by
    rw [entry_modify]
    simp [Field.mask, get, fresh]
  have gone : (f.bits.without f.mask.bits).wildcard = true := by
    simp [Field.mask, MaskedBits.without, MaskedBits.restrict, MaskedBits.wildcard]
  have new : f.type ∉ s.types := by simp [s.mem_types, fresh]
  rw [erase]
  split
  · rename_i none
    rw [none] at entry
    cases entry
  · rename_i b some
    rw [some] at entry
    cases entry
    split
    · refine ext_entry ?_ ?_
      · have others : ∀ t ∈ s.types, decide (t ≠ f.mask.type) = true := fun t mem =>
          decide_eq_true fun same => new ((show t = f.type from same) ▸ mem)
        show (if f.type ∈ s.types then s.types else s.types ++ [f.type]).filter _ = s.types
        rw [if_neg new, List.filter_append, List.filter_eq_self.mpr others]
        simp [Field.mask]
      · simp [modify, Field.mask, fresh]
    · exact absurd gone ‹_›

end FieldSet

namespace MultiFieldSet

/-- `recursive` of `fields`. -/
def enumerateFrom (s : MultiFieldSet) : List OxmType → FieldSet → List FieldSet
  | [], fs => [fs]
  | t :: ts, fs =>
      let loop := (s.elements t).foldl
        (fun ret b =>
          let fs := ret.2.modify ⟨t, b⟩
          (ret.1 ++ enumerateFrom s ts fs, fs.erase ⟨t, b.mask⟩))
        ([], fs)
      if (s.elements t).isEmpty then loop.1 ++ enumerateFrom s ts loop.2 else loop.1

def enumerate (s : MultiFieldSet) : List FieldSet := s.enumerateFrom s.usedTypes ∅

/-- The field set is what it was before each choice. -/
theorem enumerateFrom_eq (s : MultiFieldSet) {ts : List OxmType} :
    ∀ {fs : FieldSet}, ts.Nodup → (∀ t ∈ ts, fs.entry t = none) →
      s.enumerateFrom ts fs = s.fieldsFrom ts fs := by
  induction ts with
  | nil => exact fun _ _ => rfl
  | cons t ts ih =>
      intro fs nodup fresh
      obtain ⟨new, nodup⟩ := List.nodup_cons.mp nodup
      obtain ⟨freshT, freshTs⟩ := List.forall_mem_cons.mp fresh
      have later (b : MaskedBits (nbits t)) :
          s.enumerateFrom ts (fs.modify ⟨t, b⟩) = s.fieldsFrom ts (fs.modify ⟨t, b⟩) := by
        refine ih nodup fun u mem => ?_
        rw [FieldSet.entry_modify_of_ne fs (by rintro rfl; exact new mem)]
        exact freshTs u mem
      have loop (bits : List (MaskedBits (nbits t))) : ∀ ret : List FieldSet,
          bits.foldl (fun ret b => (ret.1 ++ s.enumerateFrom ts (ret.2.modify ⟨t, b⟩),
              (ret.2.modify ⟨t, b⟩).erase ⟨t, b.mask⟩)) (ret, fs) =
            (ret ++ bits.flatMap fun b => s.fieldsFrom ts (fs.modify ⟨t, b⟩), fs) := by
        induction bits with
        | nil => simp
        | cons b bits ihBits =>
            intro ret
            have back : (fs.modify ⟨t, b⟩).erase ⟨t, b.mask⟩ = fs :=
              FieldSet.erase_modify (f := ⟨t, b⟩) freshT
            rw [List.foldl_cons, back, ihBits, later]
            simp
      simp only [enumerateFrom, fieldsFrom, loop, ih nodup freshTs]
      split_ifs with none
      · simp [List.isEmpty_iff.mp none]
      · simp

theorem enumerate_eq (s : MultiFieldSet) : s.enumerate = s.fields :=
  s.enumerateFrom_eq s.nodup fun _ _ => rfl

/-! ## What stays apart -/

/-- No field includes another of its type. -/
def Separate (s : MultiFieldSet) : Prop :=
  ∀ t, (s.elements t).Pairwise fun b c => within b c = false ∧ within c b = false

omit [OxmTypes] in
theorem addLoop_separate {n : Nat} {f : MaskedBits n} {bits : List (MaskedBits n)}
    (separate : bits.Pairwise fun b c => within b c = false ∧ within c b = false) :
    (if (addLoop f bits).2 then (addLoop f bits).1 else f :: (addLoop f bits).1).Pairwise
      fun b c => within b c = false ∧ within c b = false := by
  induction bits with
  | nil => simp [addLoop]
  | cons g rest ih =>
      obtain ⟨apart, separate⟩ := List.pairwise_cons.mp separate
      have kept {h : MaskedBits n} (mem : h ∈ (addLoop f rest).1) :
          within g h = false ∧ within h g = false := apart h (addLoop_subset mem)
      rw [addLoop]
      by_cases inside : within f g = true
      · simpa [inside] using ⟨apart, separate⟩
      · by_cases covers : within g f = true
        · simpa [inside, covers] using ih separate
        · -- neither of the two includes the other
          have own : within f g = false ∧ within g f = false := by simpa using And.intro inside covers
          have added := ih separate
          simp only [own, Bool.false_eq_true, if_false]
          cases covered : (addLoop f rest).2 with
          | true =>
              simp only [covered, if_true] at added ⊢
              exact .cons (fun _ => kept) added
          | false =>
              simp only [covered, Bool.false_eq_true, if_false] at added ⊢
              obtain ⟨new, old⟩ := List.pairwise_cons.mp added
              refine .cons (fun h mem => ?_) (.cons (fun _ => kept) old)
              rcases List.mem_cons.mp mem with rfl | mem
              · exact own
              · exact new h mem

theorem Separate.add {s : MultiFieldSet} (separate : s.Separate) (f : Field) : (s.add f).Separate := by
  intro t
  by_cases same : t = f.type
  · subst same
    simpa [MultiFieldSet.add] using addLoop_separate (separate f.type)
  · rw [elements_add_of_ne s same]
    exact separate t

/-! ## Fields added one after the other -/

def addAll (added : List Field) : MultiFieldSet := added.foldl add ∅

/-- A value has a stored field of the type if it has one that was added. -/
theorem elements_foldl_add (added : List Field) {t : OxmType} (v : BitVec (nbits t)) :
    ∀ s : MultiFieldSet, (∃ b ∈ (added.foldl add s).elements t, b.Matches v) ↔
      (∃ b ∈ s.elements t, b.Matches v) ∨ ∃ b, ⟨t, b⟩ ∈ added ∧ b.Matches v := by
  induction added with
  | nil => simp
  | cons f added ih =>
      intro s
      rw [List.foldl_cons, ih]
      by_cases same : t = f.type
      · obtain ⟨u, own⟩ := f
        obtain rfl : t = u := same
        rw [elements_add_matches s ⟨t, own⟩]
        constructor
        · rintro ((has | old) | later)
          · exact .inr ⟨own, by simp, has⟩
          · exact .inl old
          · obtain ⟨b, mem, has⟩ := later
            exact .inr ⟨b, by simp [mem], has⟩
        · rintro (old | ⟨b, mem, has⟩)
          · exact .inl (.inr old)
          · rcases List.mem_cons.mp mem with here | mem
            · cases here
              exact .inl (.inl has)
            · exact .inr ⟨b, mem, has⟩
      · rw [elements_add_of_ne s same]
        have other (b : MaskedBits (nbits t)) : (⟨t, b⟩ : Field) ≠ f := fun here =>
          same (congrArg Field.type here)
        simp [other]

theorem elements_foldl_ne_nil (added : List Field) {t : OxmType} : ∀ s : MultiFieldSet,
    (added.foldl add s).elements t ≠ [] ↔ s.elements t ≠ [] ∨ ∃ f ∈ added, f.type = t := by
  induction added with
  | nil => simp
  | cons f added ih =>
      intro s
      rw [List.foldl_cons, ih]
      by_cases same : t = f.type
      · subst same
        have some : (s.add f).elements f.type ≠ [] := by
          have own := (elements_add_matches s f f.bits.value).mpr (.inl f.bits.masked)
          obtain ⟨b, mem, -⟩ := own
          exact List.ne_nil_of_mem mem
        simp [some]
      · rw [elements_add_of_ne s same]
        simp [Ne.symm same]

theorem separate_foldl_add (added : List Field) : ∀ {s : MultiFieldSet}, s.Separate →
    (added.foldl add s).Separate := by
  induction added with
  | nil => exact id
  | cons f added ih => exact fun separate => ih (separate.add f)

/-- A packet matches when it has, of each type added, one of the fields added. -/
theorem addAll_test (added : List Field) (x : Packet) : (addAll added).test x = true ↔
    ∀ f ∈ added, ∃ g ∈ added, g.type = f.type ∧ x.test g = true := by
  rw [test_iff]
  constructor
  · intro all f mem
    have some := (elements_foldl_ne_nil added ∅).mpr (.inr ⟨f, mem, rfl⟩)
    have here := (all f.type).resolve_left some
    obtain none | ⟨b, own, has⟩ := (elements_foldl_add added (x f.type) ∅).mp here
    · simp at none
    · exact ⟨⟨f.type, b⟩, own, rfl, Packet.test_iff.mpr has⟩
  · intro all t
    by_cases none : (addAll added).elements t = []
    · exact .inl none
    · obtain old | ⟨f, mem, rfl⟩ := (elements_foldl_ne_nil added ∅).mp none
      · simp at old
      · obtain ⟨⟨u, b⟩, own, same, has⟩ := all f mem
        have same : u = f.type := same
        subst same
        have has := Packet.test_iff.mp has
        exact .inr ((elements_foldl_add added _ ∅).mpr (.inr ⟨b, own, has⟩))

theorem enumerate_test (s : MultiFieldSet) (x : Packet) :
    (∃ fs ∈ s.enumerate, fs.test x = true) ↔ s.test x = true := by
  rw [enumerate_eq, MultiFieldSet.test, List.any_eq_true]

/-- **The field sets of a set that fields were added to match the packets that have, of each type
added, one of the fields added; and at all times no field of it includes another of its type.** -/
theorem addAll_fields (added : List Field) :
    (∀ x : Packet, (∃ fs ∈ (addAll added).enumerate, fs.test x = true) ↔
      ∀ f ∈ added, ∃ g ∈ added, g.type = f.type ∧ x.test g = true) ∧
      ∀ n, (addAll (added.take n)).Separate := by
  constructor
  · intro x
    rw [enumerate_test, addAll_test]
  · exact fun n => separate_foldl_add (added.take n) fun t => .nil

end MultiFieldSet

end

end Drunos.Oxm
