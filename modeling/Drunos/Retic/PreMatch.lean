/-
# Drunos.Retic.PreMatch — rules below a match that is given

A translator can start with a match, that of the trace whose policy it translates. It has one
match for the whole diagram: a test puts its bits into it, over bits that are there, and
takes them out when its positive side is done. So a bit of the match that was given is lost
where a test of another value is passed, and from where a test of it has been left until it
is tested again (`Kept`).

`translate_preMatch_iff`: the rules match no other packets than the given match exactly if
every bit of it is kept at every leaf.
-/
import Drunos.Oxm.KnownBits
import Drunos.Oxm.OpenflowBasic
import Drunos.Retic.Translator

namespace Drunos.Retic

open Drunos.Oxm Drunos.Theory

set_option autoImplicit false

section

variable [OxmTypes] {T : Type}

def BackendCall.match' : BackendCall → FieldSet
  | install match' .. => match'
  | installBarrier match' _ => match'

/-- The field has the bit of the type. -/
def TestsBit (f : Field) (t : OxmType) (i : Nat) : Prop := f.type = t ∧ f.bits.mask.getLsbD i = true

/-- Where a bit of the match is there at a leaf: of the nodes that the path leaves on the positive
side, the last that asks for it, itself or on its negative side, asks itself, for this value. -/
def Kept (t : OxmType) (i : Nat) (v : Bool) : Diagram T → Prop → Prop
  | .leaf _, there => there
  | .node f pos neg, there =>
      Kept t i v neg there ∧
        Kept t i v pos ((TestsBit f t i ∧ f.bits.value.getLsbD i = v) ∨
          (¬TestsBit f t i ∧ neg.AllFields (fun g => ¬TestsBit g t i) ∧ there))

/-- The set has the bit, with this value. -/
def HasBit (s : FieldSet) (t : OxmType) (i : Nat) (v : Bool) : Prop :=
  (s.get t).mask.getLsbD i = true ∧ (s.get t).value.getLsbD i = v

/-! ## Bits of a set -/

theorem hasBit_iff {s : FieldSet} {t : OxmType} {i : Nat} {v : Bool} :
    HasBit s t i v ↔ s.knownBits (t, i) = some v := MaskedBits.bit_eq_some_iff.symm

theorem hasBit_modify (s : FieldSet) (f : Field) (t : OxmType) (i : Nat) (v : Bool) :
    HasBit (s.modify f) t i v ↔
      (TestsBit f t i ∧ f.bits.value.getLsbD i = v) ∨ (¬TestsBit f t i ∧ HasBit s t i v) := by
  rw [hasBit_iff, hasBit_iff, FieldSet.knownBits_modify, PartialMap.union_apply, Field.knownBits,
    TestsBit]
  by_cases same : f.type = t
  · subst same
    cases asked : f.bits.mask.getLsbD i <;> simp [MaskedBits.bit, asked]
  · simp [same, Ne.symm same]

theorem hasBit_erase (s : FieldSet) (m : Mask) (t : OxmType) (i : Nat) (v : Bool) :
    HasBit (s.erase m) t i v ↔ ¬(m.type = t ∧ m.bits.getLsbD i = true) ∧ HasBit s t i v := by
  rw [hasBit_iff, hasBit_iff, FieldSet.knownBits_erase, PartialMap.without, Mask.covers]
  by_cases same : m.type = t
  · subst same
    cases m.bits.getLsbD i <;> simp
  · simp [same, Ne.symm same]

theorem test_subset_iff (s s' : FieldSet) :
    (∀ x : Packet, s.test x = true → s'.test x = true) ↔
      ∀ t i, (s'.get t).mask.getLsbD i = true → HasBit s t i ((s'.get t).value.getLsbD i) := by
  constructor
  · intro all t i bit
    have bound : i < nbits t := BitVec.lt_of_getLsbD bit
    -- the packet that has the one set, and else the opposite of the other
    let x : Packet := fun u => (s.get u).write (~~~(s'.get u).value)
    have has : s.test x = true := FieldSet.test_iff.mpr fun u => MaskedBits.write_matches _ _
    have there := MaskedBits.matches_iff.mp (FieldSet.test_iff.mp (all x has) t) i bound bit
    rw [MaskedBits.write_bit _ _ bound, BitVec.getLsbD_not] at there
    cases known : (s.get t).mask.getLsbD i with
    | true =>
        rw [if_pos known] at there
        exact ⟨known, there⟩
    | false =>
        rw [known, if_neg Bool.false_ne_true, decide_eq_true bound, Bool.true_and] at there
        exact absurd there (Bool.not_ne_self _)
  · intro bits x has
    refine FieldSet.test_iff.mpr fun t => MaskedBits.matches_iff.mpr fun i bound bit => ?_
    obtain ⟨known, value⟩ := bits t i bit
    rw [← value]
    exact MaskedBits.matches_iff.mp (FieldSet.test_iff.mp has t) i bound known

/-! ## The match along a translation -/

/-- A translation leaves of the match what no test has asked for. -/
theorem translate_hasBit {d : Diagram T} {t : OxmType} {i : Nat} {v : Bool} :
    ∀ {match' : FieldSet} {s : Priorities}, HasBit (translate d match' s).match' t i v ↔
      d.AllFields (fun g => ¬TestsBit g t i) ∧ HasBit match' t i v := by
  induction d with
  | leaf l => exact fun {_ _} => (and_iff_right trivial).symm
  | node f pos neg ihPos ihNeg =>
      intro match' s
      have erased := hasBit_erase (translate pos ((translate neg match' (s.enter f)).match'.modify f)
        (s.enter f).positive).match' f.mask t i v
      refine erased.trans ?_
      rw [ihPos, hasBit_modify, ihNeg]
      show ¬TestsBit f t i ∧ _ ↔ (¬TestsBit f t i ∧ _ ∧ _) ∧ _
      tauto

theorem Leaf.call_match (l : Leaf T) (match' : FieldSet) (prio : Nat) :
    (l.call match' prio).match' = match' := by
  unfold Leaf.call
  cases l.actions <;> rfl

theorem translate_kept {d : Diagram T} {t : OxmType} {i : Nat} {v : Bool} :
    ∀ {match' : FieldSet} {s : Priorities},
      (∀ call ∈ (translate d match' s).calls, HasBit call.match' t i v) ↔
        Kept t i v d (HasBit match' t i v) := by
  induction d with
  | leaf l =>
      intro match' s
      show (∀ call ∈ [l.call match' s.prio], _) ↔ _
      rw [List.forall_mem_singleton, Leaf.call_match]
      rfl
  | node f pos neg ihPos ihNeg =>
      intro match' s
      rw [translate, List.forall_mem_append, ihNeg, ihPos, Kept]
      have modified := hasBit_modify (translate neg match' (s.enter f)).match' f t i v
      rw [translate_hasBit] at modified
      rw [propext modified]

/-- **The rules and barriers of a translation match no packets but those of the match it was given,
if and only if at every leaf every bit of that match is kept.** -/
theorem translate_preMatch_iff (match' : FieldSet) (d : Diagram T) (s : Priorities) :
    (∀ r ∈ table (translate d match' s).calls, ∀ x, r.covers x = true → match'.test x = true) ↔
      ∀ t i, (match'.get t).mask.getLsbD i = true →
        Kept t i ((match'.get t).value.getLsbD i) d True := by
  have rules : (∀ r ∈ table (translate d match' s).calls, ∀ x, r.covers x = true → match'.test x = true) ↔
      ∀ call ∈ (translate d match' s).calls, ∀ x, call.match'.test x = true → match'.test x = true := by
    rw [table, List.forall_mem_map]
    refine forall₂_congr fun call _ => ?_
    cases call <;> rfl
  rw [rules]
  simp only [test_subset_iff]
  constructor
  · intro all t i bit
    have kept := translate_kept.mp fun call mem => all call mem t i bit
    rwa [propext (iff_true_intro ⟨bit, rfl⟩ : HasBit match' t i _ ↔ True)] at kept
  · intro all call mem t i bit
    have kept := all t i bit
    rw [← propext (iff_true_intro ⟨bit, rfl⟩ : HasBit match' t i _ ↔ True)] at kept
    exact translate_kept.mpr kept call mem

end

section

open scoped Drunos.Oxm.OpenflowBasic

/-- The trace was for VLAN 1, the policy tests VLAN 2: its rule is for VLAN 2. -/
theorem translate_leaves_preMatch :
    ¬∀ (match' : FieldSet) (d : Diagram Unit) (s : Priorities),
      ∀ r ∈ table (translate d match' s).calls, ∀ x, r.covers x = true → match'.test x = true := by
  intro all
  let d : Diagram Unit := .node (.exactly vlanVid 2#12) (.leaf { mapleTree := () }) (.leaf { mapleTree := () })
  have outside := all (.ofField (.exactly vlanVid 1#12)) d {} _ (.tail _ (.head _))
    (OpenflowBasic.packet [.exactly vlanVid 2#12]) (by decide)
  exact absurd outside (by decide)

end

end Drunos.Retic
