/-
# Drunos.Oxm.Wildcards — field sets store only fields that are no wildcards

So the class says of itself, and `erase` removes a field of which nothing is left.
`modify` stores the patch it is called with, also one with an empty mask for a type
the set has no field of. A set keeps the promise along its calls exactly if no such
call is among them (`nonWildcard_run_iff`).

Where the promise is kept, `find` finds what is known of (`find_isSome_iff`), and
`operator==` is the same as having the same `load` for every mask
(`sameAs_iff_load`).
-/
import Drunos.Oxm.KnownBits
import Drunos.Oxm.OpenflowBasic

namespace Drunos.Oxm.FieldSet

open Drunos.Theory

set_option autoImplicit false

section

variable [OxmTypes]

def NonWildcard (s : FieldSet) : Prop := ∀ f ∈ s.fields, f.wildcard = false

theorem nonWildcard_iff {s : FieldSet} :
    s.NonWildcard ↔ ∀ t b, s.entry t = some b → b.wildcard = false := by
  constructor
  · exact fun all t b found => all ⟨t, b⟩ (mem_fields.mpr found)
  · exact fun all f mem => all f.type f.bits (mem_fields.mp mem)

theorem nonWildcard_empty : (∅ : FieldSet).NonWildcard := by
  simp [nonWildcard_iff]

/-! ## The modifiers -/

theorem NonWildcard.erase {s : FieldSet} (sound : s.NonWildcard) (m : Mask) :
    (s.erase m).NonWildcard := by
  rw [nonWildcard_iff] at sound ⊢
  intro t b found
  by_cases same : t = m.type
  · subst same
    unfold FieldSet.erase at found
    split at found
    · exact sound m.type b found
    · split at found
      · simp at found
      · simp only [Function.update_self, Option.some.injEq] at found
        subst found
        exact Bool.eq_false_iff.mpr ‹_›
  · rw [entry_erase_of_ne s same] at found
    exact sound t b found

/-- A patch does not leave a wildcard if it has a bit or one is known of its type. -/
theorem NonWildcard.modify_iff {s : FieldSet} (sound : s.NonWildcard) (f : Field) :
    (s.modify f).NonWildcard ↔
      (f.wildcard = true → ∃ i v, s.knownBits (f.type, i) = some v) := by
  have stored : ((s.get f.type).overwrite f.bits).wildcard = false ↔
      (f.wildcard = true → ∃ i v, s.knownBits (f.type, i) = some v) := by
    rw [MaskedBits.wildcard_eq_false_iff, MaskedBits.bit_overwrite]
    constructor
    · rintro ⟨i, v, known⟩ empty
      have nothing := MaskedBits.wildcard_iff_bit.mp empty i
      exact ⟨i, v, by simpa [nothing, knownBits] using known⟩
    · intro filled
      cases empty : f.wildcard with
      | true =>
          obtain ⟨i, v, known⟩ := filled empty
          have nothing := MaskedBits.wildcard_iff_bit.mp empty i
          exact ⟨i, v, by simpa [nothing, knownBits] using known⟩
      | false =>
          obtain ⟨i, v, own⟩ := MaskedBits.wildcard_eq_false_iff.mp empty
          exact ⟨i, v, by simp [own]⟩
  rw [← stored, nonWildcard_iff]
  rw [nonWildcard_iff] at sound
  constructor
  · exact fun all => all f.type _ (entry_modify_self s f)
  · intro own t b found
    by_cases same : t = f.type
    · subst same
      rw [entry_modify_self] at found
      rwa [← Option.some.inj found]
    · rw [entry_modify_of_ne s same] at found
      exact sound t b found

/-! ## What follows from it -/

theorem find_isSome_iff {s : FieldSet} (sound : s.NonWildcard) (t : OxmType) :
    (s.find t).isSome = true ↔ ∃ i v, s.knownBits (t, i) = some v := by
  rw [find]
  cases found : s.entry t with
  | none => simp [knownBits, get, found]
  | some b =>
      have bits := MaskedBits.wildcard_eq_false_iff.mp (nonWildcard_iff.mp sound t b found)
      simpa [knownBits, get, found] using bits

/-- Without wildcards the fields of a set are determined by what is known. -/
theorem entry_eq (s : FieldSet) (sound : s.NonWildcard) (t : OxmType) :
    s.entry t = if (s.get t).wildcard then none else some (s.get t) := by
  cases found : s.entry t with
  | none => simp [get, found, MaskedBits.wildcard, MaskedBits.unknown]
  | some b => simp [get, found, nonWildcard_iff.mp sound t b found]

theorem sameAs_iff_load {s s' : FieldSet} (sound : s.NonWildcard) (sound' : s'.NonWildcard) :
    s.sameAs s' = true ↔ ∀ m : Mask, s.load m.type m.bits = s'.load m.type m.bits := by
  rw [sameAs_iff]
  constructor
  · intro same m
    simp only [load, get, same]
  · intro same
    funext t
    have whole : s.get t = s'.get t := by
      simpa only [load, MaskedBits.restrict_allOnes] using same ⟨t, BitVec.allOnes _⟩
    rw [entry_eq s sound, entry_eq s' sound', whole]

/-! ## Along the calls -/

/-- A patch with an empty mask only comes for a type of which a bit is known. -/
def EmptyPatchesKnown (s : FieldSet) (calls : List Modifier) : Prop :=
  ∀ earlier patch later, calls = earlier ++ .modify patch :: later → patch.wildcard = true →
    ∃ i v, s.LastGiven earlier (patch.type, i) v

theorem nonWildcard_run_iff {s : FieldSet} (sound : s.NonWildcard) (calls : List Modifier) :
    (∀ earlier, earlier <+: calls → (s.run earlier).NonWildcard) ↔ s.EmptyPatchesKnown calls := by
  constructor
  · rintro all earlier patch later rfl empty
    have before := all earlier (List.prefix_append _ _)
    have after := all (earlier ++ [.modify patch]) (by simp)
    rw [run_concat] at after
    obtain ⟨i, v, known⟩ := (before.modify_iff patch).mp after empty
    exact ⟨i, v, knownBits_run_iff.mp known⟩
  · intro known earlier
    induction earlier using List.reverseRecOn with
    | nil => exact fun _ => sound
    | append_singleton earlier c ih =>
        rintro ⟨later, rfl⟩
        have before := ih ⟨c :: later, by simp⟩
        rw [run_concat]
        cases c with
        | erase m => exact before.erase m
        | modify patch =>
            refine (before.modify_iff patch).mpr fun empty => ?_
            obtain ⟨i, v, given⟩ := known earlier patch later (by simp) empty
            exact ⟨i, v, knownBits_run_iff.mpr given⟩

/-- After the calls no wildcard is stored, and `find` finds a field of exactly those
types of which a bit is known. -/
def KeepsPromise (calls : List Modifier) : Prop :=
  ((∅ : FieldSet).run calls).NonWildcard ∧
    ∀ t, (((∅ : FieldSet).run calls).find t).isSome = true ↔
      ∃ i v, (∅ : FieldSet).LastGiven calls (t, i) v

theorem keepsPromise_iff (calls : List Modifier) :
    KeepsPromise calls ↔ ((∅ : FieldSet).run calls).NonWildcard := by
  refine ⟨And.left, fun sound => ⟨sound, fun t => ?_⟩⟩
  simp only [find_isSome_iff sound, knownBits_run_iff]

/-- **The sets that calls make from the empty one never store a wildcard, and are equal exactly when
they load the same, if and only if no patch with an empty mask comes for a type of which no bit is
known.** -/
theorem emptyPatchesKnown_iff (calls calls' : List Modifier) :
    ((∀ earlier, earlier <+: calls → KeepsPromise earlier) ∧
      (∀ earlier, earlier <+: calls' → KeepsPromise earlier) ∧
      ∀ earlier earlier', earlier <+: calls → earlier' <+: calls' →
        (((∅ : FieldSet).run earlier).sameAs ((∅ : FieldSet).run earlier') = true ↔
          ∀ m : Mask, ((∅ : FieldSet).run earlier).load m.type m.bits =
            ((∅ : FieldSet).run earlier').load m.type m.bits)) ↔
      (∅ : FieldSet).EmptyPatchesKnown calls ∧ (∅ : FieldSet).EmptyPatchesKnown calls' := by
  simp only [keepsPromise_iff, nonWildcard_run_iff nonWildcard_empty, ← and_assoc]
  refine and_iff_left_of_imp fun ⟨known, known'⟩ earlier earlier' first second => ?_
  have sound := (nonWildcard_run_iff nonWildcard_empty calls).mpr known earlier first
  have sound' := (nonWildcard_run_iff nonWildcard_empty calls').mpr known' earlier' second
  exact sameAs_iff_load sound sound'

end

section

open scoped Drunos.Oxm.OpenflowBasic

/-- A patch with an empty mask is stored in the empty set: `find` finds it, and the set is not equal
to the empty one though it loads the same. -/
theorem empty_patch_stored :
    let s := (∅ : FieldSet).run [.modify ⟨inPort, .unknown⟩]
    ¬ s.NonWildcard ∧ (s.find inPort).isSome = true ∧ (∀ i, s.knownBits (inPort, i) = none) ∧
      s.sameAs ∅ = false ∧ ∀ m : Mask, s.load m.type m.bits = (∅ : FieldSet).load m.type m.bits := by
  have same : ((∅ : FieldSet).modify ⟨inPort, .unknown⟩).get = (∅ : FieldSet).get := by
    funext t
    by_cases here : t = inPort
    · subst here
      simp [get_modify_self ∅ ⟨inPort, .unknown⟩]
    · exact get_modify_of_ne ∅ here
  refine ⟨?_, rfl, fun i => ?_, rfl, fun m => ?_⟩
  · exact fun sound => nomatch sound ⟨inPort, .unknown⟩ (mem_fields.mpr rfl)
  · exact (congrArg (·.bit i) (congrFun same inPort)).trans (MaskedBits.bit_unknown i)
  · exact congrArg (·.restrict m.bits) (congrFun same m.type)

end

end Drunos.Oxm.FieldSet
