/-
# Drunos.Oxm.MultiFieldSet — sets with several fields of one type

`multi_field_set` and `full_field_set` of `field_set.hh`, which a trace tree
compiles its matches in. A match with several fields of one type stands for the
field sets that pick one of them for each type (`fields`); `test_iff` says when a
packet matches one of these.
-/
import Drunos.Oxm.FieldSet

namespace Drunos.Oxm

open Drunos.Theory

set_option autoImplicit false

/-- `operator<`: what matches `lhs` matches `rhs`. -/
def within {n : Nat} (lhs rhs : MaskedBits n) : Bool :=
  lhs.mask &&& rhs.mask = rhs.mask ∧ lhs.Compatible rhs

theorem within_matches {n : Nat} {f g : MaskedBits n} {v : BitVec n} (inside : within f g = true)
    (has : f.Matches v) : g.Matches v := by
  obtain ⟨wider, compatible⟩ := of_decide_eq_true inside
  exact has.of_within wider compatible

variable [OxmTypes]

structure MultiFieldSet where
  elements : ∀ t : OxmType, List (MaskedBits (nbits t))
  usedTypes : List OxmType
  nodup : usedTypes.Nodup
  used : ∀ t, elements t ≠ [] → t ∈ usedTypes

namespace MultiFieldSet

def empty : MultiFieldSet where
  elements := fun _ => []
  usedTypes := []
  nodup := List.nodup_nil
  used := by simp

instance : EmptyCollection MultiFieldSet := ⟨empty⟩

/-- The loop of `add` over the fields of the type: those the new field covers go,
and the loop ends at one that covers the new field. -/
def addLoop {n : Nat} (f : MaskedBits n) : List (MaskedBits n) → List (MaskedBits n) × Bool
  | [] => ([], false)
  | g :: rest =>
      if within f g then (g :: rest, true)
      else if within g f then addLoop f rest
      else ((g :: (addLoop f rest).1), (addLoop f rest).2)

/-- The same set with other fields of one type. -/
def setElements (s : MultiFieldSet) (t : OxmType) (bits : List (MaskedBits (nbits t))) :
    MultiFieldSet where
  elements := Function.update s.elements t bits
  usedTypes := if t ∈ s.usedTypes then s.usedTypes else t :: s.usedTypes
  nodup := by
    split
    · exact s.nodup
    · exact List.nodup_cons.mpr ⟨‹_›, s.nodup⟩
  used := by
    intro u some
    by_cases same : u = t
    · subst same
      split <;> simp_all
    · rw [Function.update_of_ne same] at some
      have mem := s.used u some
      split
      · exact mem
      · exact List.mem_cons_of_mem t mem

def add (s : MultiFieldSet) (f : Field) : MultiFieldSet :=
  let (kept, covered) := addLoop f.bits (s.elements f.type)
  s.setElements f.type (if covered then kept else f.bits :: kept)

def erase (s : MultiFieldSet) (m : Mask) : MultiFieldSet where
  elements := Function.update s.elements m.type
    (((s.elements m.type).map fun b => b.without m.bits).filter fun b => !b.wildcard)
  usedTypes := s.usedTypes
  nodup := s.nodup
  used := by
    intro t some
    by_cases same : t = m.type
    · subst same
      refine s.used m.type fun none => some ?_
      simp [none]
    · rw [Function.update_of_ne same] at some
      exact s.used t some

/-- Every choice of one field for each of the types that have some. -/
def fieldsFrom (s : MultiFieldSet) : List OxmType → FieldSet → List FieldSet
  | [], fs => [fs]
  | t :: ts, fs =>
      if (s.elements t).isEmpty then fieldsFrom s ts fs
      else (s.elements t).flatMap fun b => fieldsFrom s ts (fs.modify ⟨t, b⟩)

def fields (s : MultiFieldSet) : List FieldSet := s.fieldsFrom s.usedTypes ∅

/-- The packet matches one of the field sets. -/
def test (s : MultiFieldSet) (x : Packet) : Bool := s.fields.any fun fs => fs.test x

@[simp] theorem elements_empty (t : OxmType) : (∅ : MultiFieldSet).elements t = [] := rfl

@[simp] theorem elements_setElements (s : MultiFieldSet) (t : OxmType)
    (bits : List (MaskedBits (nbits t))) :
    (s.setElements t bits).elements = Function.update s.elements t bits := rfl

theorem elements_add_of_ne (s : MultiFieldSet) {f : Field} {t : OxmType} (ne : t ≠ f.type) :
    (s.add f).elements t = s.elements t := by
  simp [add, ne]

theorem elements_erase_of_ne (s : MultiFieldSet) {m : Mask} {t : OxmType} (ne : t ≠ m.type) :
    (s.erase m).elements t = s.elements t := by
  simp [erase, ne]

/-- The first field of a type. -/
theorem elements_add_self (s : MultiFieldSet) {f : Field} (fresh : s.elements f.type = []) :
    (s.add f).elements f.type = [f.bits] := by
  simp [add, fresh, addLoop]

/-- Erasing under the mask of the whole field leaves no field of the type. -/
theorem elements_erase_self (s : MultiFieldSet) {m : Mask} (whole : m.bits = BitVec.allOnes _) :
    (s.erase m).elements m.type = [] := by
  have gone : ∀ b : MaskedBits (nbits m.type), (b.without m.bits).wildcard = true := by
    intro b
    simp [MaskedBits.without, MaskedBits.restrict, MaskedBits.wildcard, whole]
  simp [erase, gone]

theorem elements_erase_congr {s s' : MultiFieldSet} (same : s.elements = s'.elements) (m : Mask) :
    (s.erase m).elements = (s'.erase m).elements := by
  simp only [erase, same]

/-- Adding the first field of a type and erasing it again leaves the fields as they
were. -/
theorem elements_add_erase {s : MultiFieldSet} {t : OxmType} (bits : MaskedBits (nbits t))
    (fresh : s.elements t = []) :
    ((s.add ⟨t, bits⟩).erase ⟨t, bits.mask⟩).elements = s.elements := by
  have gone : (bits.without bits.mask).wildcard = true := by
    simp [MaskedBits.without, MaskedBits.restrict, MaskedBits.wildcard]
  have added : (s.add ⟨t, bits⟩).elements t = [bits] := elements_add_self s (f := ⟨t, bits⟩) fresh
  funext u
  by_cases own : u = t
  · subst own
    simp [erase, added, gone, fresh]
  · rw [elements_erase_of_ne _ own, elements_add_of_ne _ own]

omit [OxmTypes] in
theorem addLoop_matches {n : Nat} (f : MaskedBits n) (v : BitVec n) :
    ∀ bits : List (MaskedBits n),
      (∃ b ∈ (if (addLoop f bits).2 then (addLoop f bits).1 else f :: (addLoop f bits).1),
          b.Matches v) ↔
        f.Matches v ∨ ∃ b ∈ bits, b.Matches v
  | [] => by simp [addLoop]
  | g :: rest => by
      have ih := addLoop_matches f v rest
      have cons (h : MaskedBits n) (bits : List (MaskedBits n)) :
          (∃ b ∈ h :: bits, b.Matches v) ↔ h.Matches v ∨ ∃ b ∈ bits, b.Matches v := by simp
      rw [addLoop, cons]
      by_cases inside : within f g = true
      · have wider : f.Matches v → g.Matches v := within_matches inside
        simp only [inside, if_true, cons]
        exact ⟨.inr, fun some => some.elim (fun has => .inl (wider has)) id⟩
      · rw [Bool.not_eq_true] at inside
        by_cases covers : within g f = true
        · have wider : g.Matches v → f.Matches v := within_matches covers
          simp only [inside, covers, if_true, Bool.false_eq_true, if_false, ih]
          rw [← or_assoc, or_iff_left_of_imp wider]
        · rw [Bool.not_eq_true] at covers
          simp only [inside, covers, Bool.false_eq_true, if_false]
          cases covered : (addLoop f rest).2 with
          | true =>
              simp only [covered, if_true] at ih ⊢
              rw [cons, ih, or_left_comm]
          | false =>
              simp only [covered, Bool.false_eq_true, if_false, cons] at ih ⊢
              rw [or_left_comm, ih, or_left_comm]

/-- With a field more of its type, a packet has one of these fields when it had one
or has the new one. -/
theorem elements_add_matches (s : MultiFieldSet) (f : Field) (v : BitVec (nbits f.type)) :
    (∃ b ∈ (s.add f).elements f.type, b.Matches v) ↔
      f.bits.Matches v ∨ ∃ b ∈ s.elements f.type, b.Matches v := by
  rw [← addLoop_matches f.bits v]
  simp [add]

omit [OxmTypes] in
theorem addLoop_subset {n : Nat} {f b : MaskedBits n} :
    ∀ {bits : List (MaskedBits n)}, b ∈ (addLoop f bits).1 → b ∈ bits
  | [], mem => mem
  | g :: rest, mem => by
      rw [addLoop] at mem
      split at mem
      · exact mem
      · split at mem
        · exact List.mem_cons_of_mem g (addLoop_subset mem)
        · rcases List.mem_cons.mp mem with rfl | mem
          · exact List.mem_cons_self
          · exact List.mem_cons_of_mem g (addLoop_subset mem)

theorem mem_elements_add {s : MultiFieldSet} {f : Field} {b : MaskedBits (nbits f.type)}
    (mem : b ∈ (s.add f).elements f.type) : b = f.bits ∨ b ∈ s.elements f.type := by
  simp only [add, elements_setElements, Function.update_self] at mem
  split at mem
  · exact .inr (addLoop_subset mem)
  · exact (List.mem_cons.mp mem).imp_right addLoop_subset

theorem fieldsFrom_test (s : MultiFieldSet) (x : Packet) :
    ∀ {ts : List OxmType} {fs : FieldSet}, ts.Nodup → (∀ t ∈ ts, fs.entry t = none) →
      ((s.fieldsFrom ts fs).any (fun fs => fs.test x) = true ↔
        fs.test x = true ∧
          ∀ t ∈ ts, s.elements t = [] ∨ ∃ b ∈ s.elements t, b.Matches (x t))
  | [], fs, _, _ => by simp [fieldsFrom]
  | t :: ts, fs, nodup, fresh => by
      obtain ⟨new, nodup⟩ := List.nodup_cons.mp nodup
      obtain ⟨freshT, freshTs⟩ := List.forall_mem_cons.mp fresh
      rw [fieldsFrom, List.forall_mem_cons]
      by_cases none : s.elements t = []
      · rw [if_pos (by simp [none]), fieldsFrom_test s x nodup freshTs]
        simp [none]
      · have later : ∀ b : MaskedBits (nbits t), ∀ u ∈ ts, (fs.modify ⟨t, b⟩).entry u = Option.none := by
          intro b u mem
          rw [FieldSet.entry_modify_of_ne fs (by rintro rfl; exact new mem)]
          exact freshTs u mem
        rw [if_neg (by simpa using none), List.any_flatMap, List.any_eq_true]
        simp only [none, false_or]
        constructor
        · rintro ⟨b, mem, some⟩
          obtain ⟨known, rest⟩ := (fieldsFrom_test s x nodup (later b)).mp some
          obtain ⟨known, has⟩ := (FieldSet.test_modify_of_entry freshT).mp known
          exact ⟨known, ⟨b, mem, Packet.test_iff.mp has⟩, rest⟩
        · rintro ⟨known, ⟨b, mem, has⟩, rest⟩
          refine ⟨b, mem, (fieldsFrom_test s x nodup (later b)).mpr ⟨?_, rest⟩⟩
          exact (FieldSet.test_modify_of_entry freshT).mpr ⟨known, Packet.test_iff.mpr has⟩

/-- A packet matches when it has one of the fields of each type that has some. -/
theorem test_iff {s : MultiFieldSet} {x : Packet} :
    s.test x = true ↔ ∀ t, s.elements t = [] ∨ ∃ b ∈ s.elements t, b.Matches (x t) := by
  rw [test, fields, fieldsFrom_test s x s.nodup (fun _ _ => rfl)]
  constructor
  · rintro ⟨-, used⟩ t
    by_cases none : s.elements t = []
    · exact .inl none
    · exact used t (s.used t none)
  · exact fun all => ⟨rfl, fun t _ => all t⟩

theorem fieldsFrom_single {s : MultiFieldSet} (single : ∀ t, (s.elements t).length ≤ 1) :
    ∀ (ts : List OxmType) (fs : FieldSet), ∃ fs', s.fieldsFrom ts fs = [fs'] ∧
      ∀ t, s.elements t = [] → fs'.entry t = fs.entry t
  | [], fs => ⟨fs, rfl, fun _ _ => rfl⟩
  | t :: ts, fs => by
      rw [fieldsFrom]
      match found : s.elements t, single t with
      | [], _ => exact fieldsFrom_single single ts fs
      | [b], _ =>
          obtain ⟨fs', fields, entries⟩ := fieldsFrom_single single ts (fs.modify ⟨t, b⟩)
          refine ⟨fs', by simpa using fields, fun u none => ?_⟩
          have ne : u ≠ t := by
            rintro rfl
            rw [none] at found
            cases found
          rw [entries u none, FieldSet.entry_modify_of_ne fs ne]

/-- With one field for a type at most, there is one choice. -/
theorem fields_single {s : MultiFieldSet} (single : ∀ t, (s.elements t).length ≤ 1) :
    ∃ fs, s.fields = [fs] ∧ (∀ t, s.elements t = [] → fs.entry t = none) ∧ fs.test = s.test := by
  obtain ⟨fs, fields, entries⟩ := fieldsFrom_single single s.usedTypes ∅
  refine ⟨fs, fields, entries, ?_⟩
  funext x
  rw [test, MultiFieldSet.fields, fields]
  simp

/-- A choice has fields of no other types. -/
theorem fieldsFrom_entry {s : MultiFieldSet} {t : OxmType} (none : s.elements t = []) :
    ∀ {ts : List OxmType} {fs picked : FieldSet}, picked ∈ s.fieldsFrom ts fs →
      picked.entry t = fs.entry t
  | [], fs, picked, mem => by rw [List.mem_singleton.mp mem]
  | u :: ts, fs, picked, mem => by
      rw [fieldsFrom] at mem
      split at mem
      · exact fieldsFrom_entry none mem
      · next some =>
          obtain ⟨b, -, later⟩ := List.mem_flatMap.mp mem
          have ne : t ≠ u := by
            rintro rfl
            exact some (by rw [none]; rfl)
          rw [fieldsFrom_entry none later, FieldSet.entry_modify_of_ne fs ne]

theorem fields_entry {s : MultiFieldSet} {fs : FieldSet} {t : OxmType} (picked : fs ∈ s.fields)
    (some : (fs.entry t).isSome = true) : s.elements t ≠ [] := by
  intro none
  rw [fieldsFrom_entry none picked, FieldSet.entry_empty] at some
  cases some

theorem test_congr {s s' : MultiFieldSet} (same : s.elements = s'.elements) : s.test = s'.test := by
  funext x
  rw [Bool.eq_iff_iff, test_iff, test_iff, same]

@[simp] theorem test_empty (x : Packet) : (∅ : MultiFieldSet).test x = true :=
  test_iff.mpr fun _ => .inl rfl

/-- Adding the first field of a type asks for it, too. -/
theorem test_add {s : MultiFieldSet} {x : Packet} {f : Field} (fresh : s.elements f.type = []) :
    (s.add f).test x = true ↔ s.test x = true ∧ x.test f = true := by
  simp only [test_iff, Packet.test_iff]
  constructor
  · intro all
    refine ⟨fun t => ?_, ?_⟩
    · by_cases same : t = f.type
      · subst same
        exact .inl fresh
      · rw [← elements_add_of_ne s same]
        exact all t
    · have here := all f.type
      rw [elements_add_self s fresh] at here
      simpa using here
  · rintro ⟨all, has⟩ t
    by_cases same : t = f.type
    · subst same
      rw [elements_add_self s fresh]
      exact .inr ⟨f.bits, List.mem_singleton_self _, has⟩
    · rw [elements_add_of_ne s same]
      exact all t

end MultiFieldSet

/-- `full_field_set`: the fields a match asks for, and those it rules out. -/
structure FullFieldSet where
  included : MultiFieldSet
  excluded : MultiFieldSet

namespace FullFieldSet

instance : EmptyCollection FullFieldSet := ⟨⟨∅, ∅⟩⟩

def add (s : FullFieldSet) (f : Field) : FullFieldSet := { s with included := s.included.add f }

def erase (s : FullFieldSet) (m : Mask) : FullFieldSet :=
  { s with included := s.included.erase m }

def exclude (s : FullFieldSet) (f : Field) : FullFieldSet := { s with excluded := s.excluded.add f }

/-- `include`: the exclusions under the mask are taken back. -/
def includeMask (s : FullFieldSet) (m : Mask) : FullFieldSet :=
  { s with excluded := s.excluded.erase m }

end FullFieldSet

end Drunos.Oxm
