/-
# Drunos.Retic.Ordered — the order of the tests in a compiled diagram

Every node of a compiled diagram tests a field that comes before all fields below
it, on both sides (`compile_ordered`). No path tests a field twice, but it may well
test a type again below a node that has found its value: the positive side of the
parallel composition of two tests of one type keeps the negative side of the other
one as it is.
-/
import Drunos.Retic.CompilerMeaning

namespace Drunos.Retic

open Drunos.Oxm Drunos.Theory

set_option autoImplicit false

variable [OxmTypes] {T : Type}

/-! ## The order -/

omit [OxmTypes] in
theorem compareTypes_pos {t u : OxmType} (known : KnownNamespace t) (known' : KnownNamespace u) :
    compareTypes t u > 0 ↔ typeCode t < typeCode u := by
  have bounds := typeCode_bounds known
  have bounds' := typeCode_bounds known'
  rw [compareTypes_eq]
  simp only [Int.bmod]
  omega

theorem Before.trans {f g h : Field} (known : ExactKnown f) (known' : ExactKnown g)
    (known'' : ExactKnown h) (left : Before f g) (right : Before g h) : Before f h := by
  rcases left with ⟨same, lt⟩ | ⟨ne, lt⟩ <;> rcases right with ⟨same', lt'⟩ | ⟨ne', lt'⟩
  · exact .inl ⟨same.trans same', Nat.lt_trans lt lt'⟩
  · exact .inr ⟨same ▸ ne', same ▸ lt'⟩
  · exact .inr ⟨same' ▸ ne, same' ▸ lt⟩
  · rw [compareTypes_pos known.2 known'.2] at lt
    rw [compareTypes_pos known'.2 known''.2] at lt'
    have lt'' := Nat.lt_trans lt lt'
    refine .inr ⟨fun same => ?_, (compareTypes_pos known.2 known''.2).mpr lt''⟩
    rw [same] at lt''
    exact Nat.lt_irrefl _ lt''

namespace Diagram

theorem AllFields.mono {P Q : Field → Prop} (sub : ∀ f, P f → Q f) {d : Diagram T}
    (all : d.AllFields P) : d.AllFields Q := by
  induction d with
  | leaf l => trivial
  | node f pos neg ihP ihN => exact ⟨sub f all.1, ihP all.2.1, ihN all.2.2⟩

theorem AllFields.and {P Q : Field → Prop} {d : Diagram T} (left : d.AllFields P)
    (right : d.AllFields Q) : d.AllFields fun f => P f ∧ Q f := by
  induction d with
  | leaf l => trivial
  | node f pos neg ihP ihN =>
      exact ⟨⟨left.1, right.1⟩, ihP left.2.1 right.2.1, ihN left.2.2 right.2.2⟩

/-- Every node comes before the nodes below it. -/
def Ordered : Diagram T → Prop
  | leaf _ => True
  | node f pos neg =>
      (pos.AllFields (Before f) ∧ neg.AllFields (Before f)) ∧ Ordered pos ∧ Ordered neg

/-- What comes before the first test of an ordered diagram comes before all. -/
theorem Ordered.after {f g : Field} {pos neg : Diagram T} (before : Before f g)
    (known : ExactKnown f) (fields : (node g pos neg).AllFields ExactKnown)
    (ordered : (node g pos neg).Ordered) : (node g pos neg).AllFields (Before f) := by
  obtain ⟨knownG, knownP, knownN⟩ := fields
  obtain ⟨⟨orderedP, orderedN⟩, -⟩ := ordered
  refine ⟨before, (knownP.and orderedP).mono ?_, (knownN.and orderedN).mono ?_⟩
  · exact fun h ⟨knownH, later⟩ => before.trans known knownG knownH later
  · exact fun h ⟨knownH, later⟩ => before.trans known knownG knownH later

end Diagram

variable [Inhabited T]

/-! ## Parallel composition -/

/-- What a parallel composition keeps, if it ends. -/
structure KeepsOrder (lhs rhs d : Diagram T) : Prop where
  fields : ∀ P, lhs.AllFields P → rhs.AllFields P → d.AllFields P
  ordered : lhs.AllFields ExactKnown → rhs.AllFields ExactKnown → lhs.Ordered → rhs.Ordered →
    d.Ordered

omit [Inhabited T] in
theorem KeepsOrder.swap {lhs rhs d : Diagram T} (keeps : KeepsOrder rhs lhs d) :
    KeepsOrder lhs rhs d where
  fields := fun P left right => keeps.fields P right left
  ordered := fun known known' left right => keeps.ordered known' known right left

omit [Inhabited T] in
/-- The test of the first node is put over what the second one goes on with. -/
theorem KeepsOrder.before {f g : Field} {pos neg pos' neg' rest p n : Diagram T}
    (before : Before f g) (rest_eq : rest = neg' ∨ rest = .node g pos' neg')
    (keepsP : KeepsOrder pos rest p) (keepsN : KeepsOrder neg (.node g pos' neg') n) :
    KeepsOrder (.node f pos neg) (.node g pos' neg') (.node f p n) where
  fields := fun P left right => by
    have restP : rest.AllFields P := by
      rcases rest_eq with rfl | rfl
      · exact right.2.2
      · exact right
    exact ⟨left.1, keepsP.fields P left.2.1 restP, keepsN.fields P left.2.2 right⟩
  ordered := fun known known' left right => by
    have after := right.after before known.1 known'
    obtain ⟨restKnown, restOrdered, restAfter⟩ :
        rest.AllFields ExactKnown ∧ rest.Ordered ∧ rest.AllFields (Before f) := by
      rcases rest_eq with rfl | rfl
      · exact ⟨known'.2.2, right.2.2, after.2.2⟩
      · exact ⟨known', right, after⟩
    exact ⟨⟨keepsP.fields _ left.1.1 restAfter, keepsN.fields _ left.1.2 after⟩,
      keepsP.ordered known.2.1 restKnown left.2.1 restOrdered,
      keepsN.ordered known.2.2 known' left.2.2 right⟩

theorem parallelComposition_keeps {lhs rhs d : Diagram T}
    (result : parallelComposition lhs rhs = some d) : KeepsOrder lhs rhs d := by
  replace result := parallelComposition_result result
  induction result with
  | leaves l r => exact ⟨fun _ _ _ => trivial, fun _ _ _ _ => trivial⟩
  | nodeLeaf _ _ keepsP keepsN =>
      refine ⟨fun P left right => ?_, fun known known' left right => ?_⟩
      · exact ⟨left.1, keepsP.fields P left.2.1 right, keepsN.fields P left.2.2 right⟩
      · exact ⟨⟨keepsP.fields _ left.1.1 trivial, keepsN.fields _ left.1.2 trivial⟩,
          keepsP.ordered known.2.1 known' left.2.1 right,
          keepsN.ordered known.2.2 known' left.2.2 right⟩
  | leafNode _ keeps => exact keeps.swap
  | same _ _ keepsP keepsN =>
      refine ⟨fun P left right => ?_, fun known known' left right => ?_⟩
      · exact ⟨left.1, keepsP.fields P left.2.1 right.2.1, keepsN.fields P left.2.2 right.2.2⟩
      · exact ⟨⟨keepsP.fields _ left.1.1 right.1.1, keepsN.fields _ left.1.2 right.1.2⟩,
          keepsP.ordered known.2.1 known'.2.1 left.2.1 right.2.1,
          keepsN.ordered known.2.2 known'.2.2 left.2.2 right.2.2⟩
  | before before _ _ keepsP keepsN =>
      refine .before before ?_ keepsP keepsN
      split
      · exact .inl rfl
      · exact .inr rfl
  | after _ _ _ keeps => exact keeps.swap

/-! ## Sequential composition and negation -/

omit [Inhabited T] in
/-- Of two known fields that differ in type, the first in the order of types. -/
theorem before_of_not_compareTypes {f g : Field} (known : ExactKnown f) (known' : ExactKnown g)
    (ne : g.type ≠ f.type) (not : ¬compareTypes f.type g.type > 0) : Before g f :=
  .inr ⟨ne, (compareTypes_total known.2 known'.2 ne.symm).resolve_left not⟩

theorem restrictTrue_ordered {f : Field} (known : ExactKnown f) :
    ∀ {d : Diagram T}, d.AllFields ExactKnown → d.Ordered → (restrictTrue f d).Ordered := by
  intro d
  induction d with
  | leaf l => exact fun _ _ => ⟨⟨trivial, trivial⟩, trivial, trivial⟩
  | node g pos neg ihPos ihNeg =>
      intro fields ordered
      have ⟨knownG, knownP, knownN⟩ := fields
      have ⟨⟨afterP, afterN⟩, orderedP, orderedN⟩ := ordered
      unfold restrictTrue
      split_ifs with same sameType lt
      · subst same
        exact ⟨⟨afterP, trivial⟩, orderedP, trivial⟩
      · exact ihNeg knownN orderedN
      · have before : Before f g := .inr ⟨Ne.symm sameType, lt⟩
        exact ⟨⟨ordered.after before known fields, trivial⟩, ordered, trivial⟩
      · have before := before_of_not_compareTypes known knownG sameType lt
        exact ⟨⟨restrictTrue_fields before afterP, restrictTrue_fields before afterN⟩,
          ihPos knownP orderedP, ihNeg knownN orderedN⟩

theorem restrictFalse_ordered {f : Field} (known : ExactKnown f) :
    ∀ {d : Diagram T}, d.AllFields ExactKnown → d.Ordered → (restrictFalse f d).Ordered := by
  intro d
  induction d with
  | leaf l => exact fun _ _ => ⟨⟨trivial, trivial⟩, trivial, trivial⟩
  | node g pos neg ihPos ihNeg =>
      intro fields ordered
      have ⟨knownG, knownP, knownN⟩ := fields
      have ⟨⟨afterP, afterN⟩, orderedP, orderedN⟩ := ordered
      unfold restrictFalse
      split_ifs with same sameType less lt
      · subst same
        exact ⟨⟨trivial, afterN⟩, trivial, orderedN⟩
      · exact ⟨⟨afterP, restrictFalse_fields (.inl ⟨sameType, less⟩) afterN⟩, orderedP,
          ihNeg knownN orderedN⟩
      · have before : Before f g := by
          refine (before_total known knownG (Ne.symm same)).resolve_right fun before => ?_
          rcases before with ⟨-, value⟩ | ⟨ne, -⟩
          · exact less value
          · exact ne sameType
        exact ⟨⟨trivial, ordered.after before known fields⟩, trivial, ordered⟩
      · have before : Before f g := .inr ⟨Ne.symm sameType, lt⟩
        exact ⟨⟨trivial, ordered.after before known fields⟩, trivial, ordered⟩
      · have before := before_of_not_compareTypes known knownG sameType lt
        exact ⟨⟨restrictFalse_fields before afterP, restrictFalse_fields before afterN⟩,
          ihPos knownP orderedP, ihNeg knownN orderedN⟩

theorem leftActionApplier_ordered (action : ActionUnit) :
    ∀ {d : Diagram T}, d.Ordered → (leftActionApplier action d).Ordered := by
  intro d
  induction d with
  | leaf l => exact fun _ => trivial
  | node g pos neg ihPos ihNeg =>
      rintro ⟨⟨afterP, afterN⟩, orderedP, orderedN⟩
      unfold leftActionApplier
      split
      · exact ⟨⟨leftActionApplier_fields action afterP, leftActionApplier_fields action afterN⟩,
          ihPos orderedP, ihNeg orderedN⟩
      · split_ifs
        · exact ihPos orderedP
        · exact ihNeg orderedN

theorem negationComposition_ordered :
    ∀ {d : Diagram T}, d.Ordered → (negationComposition d).Ordered := by
  intro d
  induction d with
  | leaf l => exact fun _ => trivial
  | node f pos neg ihPos ihNeg =>
      exact fun ⟨⟨afterP, afterN⟩, orderedP, orderedN⟩ =>
        ⟨⟨negationComposition_fields afterP, negationComposition_fields afterN⟩, ihPos orderedP,
          ihNeg orderedN⟩

/-- Of exact fields of known namespaces, in order. -/
def KnownOrdered (d : Diagram T) : Prop := d.AllFields ExactKnown ∧ d.Ordered

omit [Inhabited T] in
theorem KeepsOrder.known {lhs rhs d : Diagram T} (keeps : KeepsOrder lhs rhs d)
    (left : KnownOrdered lhs) (right : KnownOrdered rhs) : KnownOrdered d :=
  ⟨keeps.fields _ left.1 right.1, keeps.ordered left.1 right.1 left.2 right.2⟩

theorem sequentialComposition_ordered {rhs : Diagram T} (known : KnownOrdered rhs) :
    ∀ {lhs d : Diagram T}, lhs.AllFields ExactKnown → sequentialComposition lhs rhs = some d →
      KnownOrdered d := by
  intro lhs
  induction lhs with
  | leaf l =>
      intro d _ result
      rw [sequentialComposition] at result
      split_ifs at result
      · obtain rfl := Option.some.inj result
        exact ⟨trivial, trivial⟩
      · refine Run.foldlM_keeps (fun action _ start next first fields => ?_) result ⟨trivial, trivial⟩
        have applied : KnownOrdered (leftActionApplier action rhs) :=
          ⟨leftActionApplier_fields action known.1, leftActionApplier_ordered action known.2⟩
        exact (parallelComposition_keeps first).known fields applied
  | node f pos neg ihPos ihNeg =>
      rintro d ⟨knownF, knownP, knownN⟩ result
      rw [sequentialComposition] at result
      obtain ⟨one, resultP, result⟩ := Option.bind_eq_some_iff.mp result
      obtain ⟨two, resultN, result⟩ := Option.bind_eq_some_iff.mp result
      obtain ⟨fieldsP, orderedP⟩ := ihPos knownP resultP
      obtain ⟨fieldsN, orderedN⟩ := ihNeg knownN resultN
      exact (parallelComposition_keeps result).known
        ⟨restrictTrue_fields knownF fieldsP, restrictTrue_ordered knownF fieldsP orderedP⟩
        ⟨restrictFalse_fields knownF fieldsN, restrictFalse_ordered knownF fieldsN orderedN⟩

/-- The tests of a sequence are those of its diagrams. -/
theorem sequentialComposition_fields {P : Field → Prop} {rhs : Diagram T} (fields : rhs.AllFields P) :
    ∀ {lhs d : Diagram T}, lhs.AllFields P → sequentialComposition lhs rhs = some d →
      d.AllFields P := by
  intro lhs
  induction lhs with
  | leaf l =>
      intro d _ result
      rw [sequentialComposition] at result
      split_ifs at result
      · obtain rfl := Option.some.inj result
        trivial
      · have start (l : Leaf T) : (Diagram.leaf l).AllFields P := trivial
        refine Run.foldlM_keeps (fun action _ before next first kept => ?_) result (start _)
        exact (parallelComposition_keeps first).fields P kept (leftActionApplier_fields action fields)
  | node f pos neg ihPos ihNeg =>
      rintro d ⟨known, knownP, knownN⟩ result
      obtain ⟨one, resultP, rest⟩ := Option.bind_eq_some_iff.mp result
      obtain ⟨two, resultN, composed⟩ := Option.bind_eq_some_iff.mp rest
      exact (parallelComposition_keeps composed).fields P
        (restrictTrue_fields known (ihPos knownP resultP))
        (restrictFalse_fields known (ihNeg knownN resultN))

/-! ## The compiler -/

/-- **The tests of a compiled diagram are in order.** -/
theorem compile_ordered : ∀ {p : Policy} {d : Diagram T}, p.AllFields ExactKnown →
    compile p = some d → KnownOrdered d := by
  intro p
  induction p with
  | filter f =>
      intro d known result
      exact Option.some.inj result ▸ ⟨⟨known, trivial, trivial⟩, ⟨trivial, trivial⟩, trivial, trivial⟩
  | negation p ih =>
      intro d known result
      obtain ⟨inner, resultI, result⟩ := Option.bind_eq_some_iff.mp result
      obtain rfl := Option.some.inj result
      obtain ⟨fields, ordered⟩ := ih known resultI
      exact ⟨negationComposition_fields fields, negationComposition_ordered ordered⟩
  | sequential p q ihP ihQ =>
      rintro d ⟨knownP, knownQ⟩ result
      obtain ⟨d1, resultP, result⟩ := Option.bind_eq_some_iff.mp result
      obtain ⟨d2, resultQ, result⟩ := Option.bind_eq_some_iff.mp result
      exact sequentialComposition_ordered (ihQ knownQ resultQ) (ihP knownP resultP).1 result
  | parallel p q ihP ihQ =>
      rintro d ⟨knownP, knownQ⟩ result
      obtain ⟨d1, resultP, result⟩ := Option.bind_eq_some_iff.mp result
      obtain ⟨d2, resultQ, result⟩ := Option.bind_eq_some_iff.mp result
      exact (parallelComposition_keeps result).known (ihP knownP resultP) (ihQ knownQ resultQ)
  | _ =>
      intro d _ result
      obtain rfl := Option.some.inj result
      exact ⟨trivial, trivial⟩

end Drunos.Retic
