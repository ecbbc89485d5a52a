/-
# Drunos.Retic.CompilerMeaning — compiled diagrams mean what their policies mean

For policies whose fields are exact and of the two namespaces runos uses,
`compile` ends, and the leaf a packet reaches makes of it what the policy makes of
it, as long as packet functions come last (`compile_spec`). For policies without
packet functions the leaf is a list of sets of fields (`compile_outputs`).

What each composition does at the leaf of a packet is in `Compositions`. Here the
units on the left of a sequence are plain, so that each makes one packet of a packet.
-/
import Drunos.Retic.Compositions

namespace Drunos.Retic

open Drunos.Oxm Drunos.Theory

set_option autoImplicit false

section

variable [OxmTypes] {T : Type} [Inhabited T]

/-! ## Units without a function, and with one that comes last -/

/-- A unit of exact fields and no function. -/
structure Plain (unit : ActionUnit) : Prop where
  exact : ExactSet unit.predActions
  body : unit.body = none

/-- A unit of exact fields with nothing after its function. -/
structure Last (unit : ActionUnit) : Prop where
  exact : ExactSet unit.predActions
  post : unit.postActions = none

theorem seqActions_plain {action : ActionUnit} (plain : action.body = none) (unit : ActionUnit) :
    seqActions action unit =
      .mk (fieldSetUnion action.predActions unit.predActions) unit.body unit.postActions := by
  obtain ⟨pred, body, post⟩ := action
  obtain rfl : body = none := plain
  rfl

theorem Plain.seqActions {action unit : ActionUnit} (plain : Plain action) (plain' : Plain unit) :
    Plain (seqActions action unit) := by
  rw [seqActions_plain plain.body]
  exact ⟨fieldSetUnion_exact plain.exact plain'.exact, plain'.body⟩

theorem Last.seqActions {action unit : ActionUnit} (plain : Plain action) (last : Last unit) :
    Last (seqActions action unit) := by
  rw [seqActions_plain plain.body]
  exact ⟨fieldSetUnion_exact plain.exact last.exact, last.post⟩

theorem Plain.outputs {unit : ActionUnit} (plain : Plain unit) (x : Packet) :
    unit.outputs x = {unit.predActions.apply x} := by
  obtain ⟨pred, body, post⟩ := unit
  obtain rfl : body = none := plain.body
  rfl

/-- A unit after a plain one works on what that one makes of the packet. -/
theorem seqActions_outputs {action : ActionUnit} (plain : action.body = none) (unit : ActionUnit)
    (x : Packet) : (seqActions action unit).outputs x = unit.outputs (action.predActions.apply x) := by
  rw [seqActions_plain plain]
  obtain ⟨pred, body, post⟩ := unit
  rcases body with _ | f
  · simp [ActionUnit.outputs, ActionUnit.predActions, ActionUnit.body, fieldSetUnion_apply]
  · rcases post with _ | post <;>
      simp [ActionUnit.outputs, ActionUnit.predActions, ActionUnit.body, ActionUnit.postActions,
        fieldSetUnion_apply]

/-- The units after a plain one make of a packet what they make of the packet with its
actions. -/
theorem seqActions_bind {action : ActionUnit} (plain : Plain action) (x : Packet)
    (units : Multiset ActionUnit) :
    ((units.map (seqActions action)).bind fun unit => unit.outputs x) =
      units.bind fun unit => unit.outputs (action.predActions.apply x) := by
  simp only [Multiset.bind_map, seqActions_outputs plain.body]

/-! ## Sequential composition -/

omit [Inhabited T] in
theorem Composes.outputs {lhs rhs d : Diagram T} (x : Packet)
    (leaves : d.unitsAt x = lhs.unitsAt x + rhs.unitsAt x) :
    d.outputs x = lhs.outputs x + rhs.outputs x := by
  rw [Diagram.outputs, leaves, Multiset.add_bind]
  rfl

/-- The sequential composition of two diagrams ends, with units put after plain
ones, and feeds what the first makes of a packet to the second. -/
def Sequences (lhs rhs : Diagram T) : Prop :=
  ∃ d, sequentialComposition lhs rhs = some d ∧ d.AllFields ExactKnown ∧
    (∀ Q : ActionUnit → Prop, (∀ action unit, Plain action → Q unit → Q (seqActions action unit)) →
      rhs.AllUnits Q → d.AllUnits Q) ∧
    ∀ x, d.outputs x = (lhs.outputs x).bind rhs.outputs

omit [Inhabited T] in
theorem outputs_of_plain {lhs rhs : Diagram T} (x : Packet)
    (plain : ∀ unit ∈ lhs.unitsAt x, Plain unit) :
    (lhs.outputs x).bind rhs.outputs =
      (lhs.unitsAt x).bind fun unit => rhs.outputs (unit.predActions.apply x) := by
  rw [Diagram.outputs, Multiset.bind_assoc]
  refine Multiset.bind_congr fun unit mem => ?_
  rw [(plain unit mem).outputs, Multiset.singleton_bind]

theorem sequences {lhs rhs : Diagram T} (known : rhs.AllFields ExactKnown)
    (known' : lhs.AllFields ExactKnown) (plain : lhs.AllUnits Plain) : Sequences lhs rhs := by
  have exact : lhs.AllUnits fun unit => ExactSet unit.predActions :=
    plain.mono fun l units unit mem => (units unit mem).exact
  obtain ⟨d, result, seq⟩ := sequenced known known' exact
  refine ⟨d, result, seq.fields, fun Q kept unitsR => seq.units Plain Q kept plain unitsR, fun x => ?_⟩
  have plainAt : ∀ unit ∈ lhs.unitsAt x, Plain unit := Diagram.AllLeaves.leafAt x plain
  rw [outputs_of_plain x plainAt, Diagram.outputs, seq.unitsAt x, Multiset.bind_assoc]
  exact Multiset.bind_congr fun unit mem => seqActions_bind (plainAt unit mem) x _

/-! ## Negation -/

theorem plain_empty : Plain (.ofActions ∅) := ⟨exactSet_empty, rfl⟩

theorem Plain.outputs_card {unit : ActionUnit} (plain : Plain unit) (x : Packet) :
    (unit.outputs x).card = 1 := by
  rw [plain.outputs, Multiset.card_singleton]

/-- A packet passes a negated diagram when the diagram makes nothing of it. -/
theorem negationComposition_outputs (x : Packet) :
    ∀ {d : Diagram T}, d.AllUnits Plain →
      (negationComposition d).outputs x = if (d.outputs x).card = 0 then {x} else 0 := by
  intro d
  induction d with
  | leaf l =>
      intro plain
      have card : ((Diagram.leaf l).outputs x).card = l.sets.length := by
        have ones : (l.sets : Multiset ActionUnit).map (Multiset.card ∘ fun unit => unit.outputs x) =
            (l.sets : Multiset ActionUnit).map fun _ => 1 :=
          Multiset.map_congr rfl fun unit mem => (plain unit mem).outputs_card x
        rw [Diagram.outputs, Multiset.card_bind]
        exact (congrArg Multiset.sum ones).trans (by simp)
      rw [card]
      by_cases nothing : l.sets = []
      · have passes : (ActionUnit.ofActions ∅).outputs x = {x} := plain_empty.outputs x
        simp only [negationComposition, nothing, Diagram.outputs, Diagram.unitsAt]
        simpa using passes
      · simp [negationComposition, nothing, Diagram.outputs, Diagram.unitsAt]
  | node f pos neg ihPos ihNeg =>
      rintro ⟨plainP, plainN⟩
      have outputs_node : ∀ p n : Diagram T,
          (Diagram.node f p n).outputs x = if x.test f then p.outputs x else n.outputs x := by
        intro p n
        rw [Diagram.outputs, Diagram.unitsAt_node]
        split_ifs <;> rfl
      rw [negationComposition, outputs_node, outputs_node, ihPos plainP, ihNeg plainN]
      split_ifs <;> simp_all

/-! ## The compiler -/

/-- Packet functions come last: nothing follows or negates them. -/
def Policy.FunctionsLast : Policy → Prop
  | .negation p => p.FunctionFree
  | .sequential p q => p.FunctionFree ∧ FunctionsLast q
  | .parallel p q => FunctionsLast p ∧ FunctionsLast q
  | _ => True

theorem Policy.FunctionFree.functionsLast {p : Policy} (free : p.FunctionFree) :
    p.FunctionsLast := by
  induction p with
  | negation p ih => exact free
  | packetFunction id h => trivial
  | sequential p q ihP ihQ => exact ⟨free.1, ihQ free.2⟩
  | parallel p q ihP ihQ => exact ⟨ihP free.1, ihQ free.2⟩
  | _ => trivial

/-- What the compiler makes of a policy whose functions come last. -/
structure Compiled (p : Policy) (d : Diagram T) : Prop where
  fields : d.AllFields ExactKnown
  last : d.AllUnits Last
  plain : p.FunctionFree → d.AllUnits Plain
  outputs : ∀ x, d.outputs x = p.outputs x

theorem compiled_single {p : Policy} {unit : ActionUnit} {settings : FlowSettings}
    (last : Last unit) (plain : p.FunctionFree → Plain unit)
    (outputs : ∀ x, unit.outputs x = p.outputs x) :
    Compiled p (.leaf (.single unit settings) : Diagram T) where
  fields := trivial
  last := fun _ mem => List.mem_singleton.mp mem ▸ last
  plain := fun free _ mem => List.mem_singleton.mp mem ▸ plain free
  outputs := fun x => (by simp [Diagram.outputs, Diagram.unitsAt, Leaf.single, outputs])

theorem last_empty : Last (.ofActions ∅) := ⟨exactSet_empty, rfl⟩

/-- **The compiler ends on policies with exact fields of the known namespaces whose
functions come last, and a packet's leaf makes of it what the policy makes.** -/
theorem compile_spec : ∀ {p : Policy}, p.FunctionsLast → p.AllFields ExactKnown →
    ∃ d : Diagram T, compile p = some d ∧ Compiled p d := by
  intro p
  induction p with
  | stop =>
      refine fun _ _ => ⟨_, rfl, trivial, stop_units _, fun _ => stop_units _, fun x => rfl⟩
  | id =>
      refine fun _ _ => ⟨_, rfl, compiled_single last_empty (fun _ => plain_empty) fun x => ?_⟩
      exact plain_empty.outputs x
  | flowSettings settings =>
      refine fun _ _ => ⟨_, rfl, compiled_single last_empty (fun _ => plain_empty) fun x => ?_⟩
      exact plain_empty.outputs x
  | filter f =>
      intro _ known
      refine ⟨_, rfl, ⟨known, trivial, trivial⟩, ⟨?_, stop_units _⟩, fun _ => ⟨?_, stop_units _⟩,
        fun x => ?_⟩
      · exact fun _ mem => List.mem_singleton.mp mem ▸ last_empty
      · exact fun _ mem => List.mem_singleton.mp mem ▸ plain_empty
      · rw [Diagram.outputs, Diagram.unitsAt_node, Policy.outputs]
        split_ifs
        · have passes : (ActionUnit.ofActions ∅).outputs x = {x} := plain_empty.outputs x
          simpa [Diagram.unitsAt, Leaf.single] using passes
        · simp
  | modify f =>
      intro _ known
      have exact : ExactSet (.ofField f) := exactSet_modify exactSet_empty known.1
      refine ⟨_, rfl, compiled_single ⟨exact, rfl⟩ (fun _ => ⟨exact, rfl⟩) fun x => ?_⟩
      show ({(FieldSet.ofField f).apply x} : Multiset Packet) = _
      rw [FieldSet.ofField, FieldSet.apply_modify]
      rfl
  | negation p ih =>
      intro free known
      obtain ⟨d, result, compiled⟩ := ih free.functionsLast known
      refine ⟨negationComposition d, by rw [compile, result]; rfl,
        negationComposition_fields compiled.fields, negationComposition_units last_empty d,
        fun _ => negationComposition_units plain_empty d, fun x => ?_⟩
      rw [negationComposition_outputs x (compiled.plain free), compiled.outputs, Policy.outputs]
  | packetFunction id h _ =>
      refine fun _ _ => ⟨_, rfl, compiled_single ⟨exactSet_empty, rfl⟩ (fun free => free.elim)
        fun x => ?_⟩
      simp [ActionUnit.outputs, Policy.outputs]
  | sequential p q ihP ihQ =>
      rintro ⟨freeP, lastQ⟩ ⟨knownP, knownQ⟩
      obtain ⟨d1, result1, compiled1⟩ := ihP freeP.functionsLast knownP
      obtain ⟨d2, result2, compiled2⟩ := ihQ lastQ knownQ
      obtain ⟨d, result, fields, units, outputs⟩ :=
        sequences compiled2.fields compiled1.fields (compiled1.plain freeP)
      refine ⟨d, ?_, fields, ?_, fun free => ?_, fun x => ?_⟩
      · rw [compile, result1, result2]
        exact result
      · exact units Last (fun _ _ plain last => last.seqActions plain) compiled2.last
      · exact units Plain (fun _ _ plain plain' => plain.seqActions plain') (compiled2.plain free.2)
      · rw [outputs, compiled1.outputs, Policy.outputs]
        exact Multiset.bind_congr fun y _ => compiled2.outputs y
  | parallel p q ihP ihQ =>
      rintro ⟨lastP, lastQ⟩ ⟨knownP, knownQ⟩
      obtain ⟨d1, result1, compiled1⟩ := ihP lastP knownP
      obtain ⟨d2, result2, compiled2⟩ := ihQ lastQ knownQ
      obtain ⟨d, result, fields, units, leaves⟩ := composes compiled1.fields compiled2.fields
      refine ⟨d, ?_, fields, units Last compiled1.last compiled2.last, fun free => ?_, fun x => ?_⟩
      · rw [compile, result1, result2]
        exact result
      · exact units Plain (compiled1.plain free.1) (compiled2.plain free.2)
      · rw [Composes.outputs x (leaves x), compiled1.outputs, compiled2.outputs, Policy.outputs]

omit [Inhabited T] in
theorem Compiled.applied {p : Policy} {d : Diagram T} (compiled : Compiled p d)
    (free : p.FunctionFree) (x : Packet) :
    ((d.leafAt x).sets : Multiset ActionUnit).map (fun unit => unit.predActions.apply x) =
      p.outputs x := by
  have plain : ∀ unit ∈ d.unitsAt x, Plain unit := Diagram.AllLeaves.leafAt x (compiled.plain free)
  rw [← compiled.outputs x, Diagram.outputs, ← Multiset.bind_singleton]
  exact Multiset.bind_congr fun unit mem => ((plain unit mem).outputs x).symm

/-- **The diagram of a policy without packet functions: the field sets of the leaf
a packet reaches, applied to the packet, are the outputs of the policy.** -/
theorem compile_outputs {p : Policy} (free : p.FunctionFree) (known : p.AllFields ExactKnown) :
    ∃ d : Diagram T, compile p = some d ∧ ∀ x : Packet,
      ((d.leafAt x).sets : Multiset ActionUnit).map (fun unit => unit.predActions.apply x) =
        p.outputs x := by
  obtain ⟨d, result, compiled⟩ := compile_spec (T := T) free.functionsLast known
  exact ⟨d, result, compiled.applied free⟩

end

open scoped Drunos.Oxm.OpenflowBasic in
/-- Two ports for the packets of one VLAN, none for the others. -/
theorem compile_outputs_flood :
    let port (n : BitVec 32) : Policy := .modify (.exactly outPort n)
    let p : Policy :=
      .sequential (.negation (.negation (.filter (.exactly vlanVid 5#12))))
        (.parallel (port 1) (port 2))
    ∃ d : Diagram Unit, compile p = some d ∧ ∀ x : Packet,
      ((d.leafAt x).sets : Multiset ActionUnit).map (fun unit => unit.predActions.apply x) =
        p.outputs x :=
  compile_outputs ⟨trivial, trivial, trivial⟩
    ⟨⟨Field.exactly_exact _ _, .inl rfl⟩, ⟨Field.exactly_exact _ _, .inr rfl⟩,
      Field.exactly_exact _ _, .inr rfl⟩

end Drunos.Retic
