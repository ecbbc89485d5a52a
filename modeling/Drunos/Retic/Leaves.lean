/-
# Drunos.Retic.Leaves — the leaf of a packet, read off the policy

What the compiled diagram of a policy holds at the leaf of a packet: the action units
(`Policy.units`) and the flow settings (`Policy.settings`), by recursion over the
policy and without a diagram. A packet function stays a unit here, whatever policy it
would return.

`compile_leaves` is the result: for policies with exact fields of the known namespaces
`compile` ends and its leaves are these.
-/
import Drunos.Retic.Compositions

namespace Drunos.Retic

open Drunos.Oxm

set_option autoImplicit false

variable [OxmTypes] {T : Type} [Inhabited T]

namespace Policy

/-- The units of the leaf of a packet, in no order. -/
def units : Policy → Packet → Multiset ActionUnit
  | stop, _ => 0
  | id, _ => {.ofActions ∅}
  | filter f, x => if x.test f then {.ofActions ∅} else 0
  | modify f, _ => {.ofActions (.ofField f)}
  | flowSettings _, _ => {.ofActions ∅}
  | negation p, x => if (units p x).card = 0 then {.ofActions ∅} else 0
  | packetFunction i h, _ => {.mk ∅ (some ⟨i, h⟩) none}
  | sequential p q, x => (units p x).bind fun action =>
      (units q (action.predActions.apply x)).map (seqActions action)
  | parallel p q, x => units p x + units q x

/-- The settings of the leaf of a packet. -/
def settings : Policy → Packet → FlowSettings
  | flowSettings s, _ => s
  | negation p, x => settings p x
  | sequential p q, x => sequentialSettings (units p x) (settings p x) (settings q) x
  | parallel p q, x => (settings p x).inter (settings q x)
  | _, _ => {}

/-- The durations of the settings outside functions are those of 32 bits. -/
def Durations : Policy → Prop
  | flowSettings s => s.idleTimeout ≤ durationMax ∧ s.hardTimeout ≤ durationMax
  | negation p => Durations p
  | sequential p q => Durations p ∧ Durations q
  | parallel p q => Durations p ∧ Durations q
  | _ => True

theorem settings_range {p : Policy} (durations : p.Durations) (x : Packet) :
    (p.settings x).hardTimeout ≤ durationMax := by
  induction p generalizing x with
  | flowSettings s => exact durations.2
  | negation p ih => exact ih durations x
  | sequential p q ihP ihQ =>
      show (sequentialSettings _ _ _ _).hardTimeout ≤ _
      unfold sequentialSettings
      split_ifs
      · exact le_rfl
      · exact (FlowSettings.fold_hardTimeout _ _).trans (ihP durations.1 x)
  | parallel p q ihP ihQ => exact (min_le_left _ _).trans (ihP durations.1 x)
  | _ => exact le_rfl

end Policy

/-- A diagram as the compiler makes it of a policy. -/
structure Leaves (p : Policy) (d : Diagram T) : Prop where
  fields : d.AllFields ExactKnown
  exact : d.AllUnits fun unit => ExactSet unit.predActions
  unitsAt : ∀ x, d.unitsAt x = p.units x
  settings : p.Durations → ∀ x, (d.leafAt x).flowSettings = p.settings x

theorem leaves_single {p : Policy} {unit : ActionUnit} {s : FlowSettings}
    (exact : ExactSet unit.predActions) (units : ∀ x, p.units x = {unit})
    (settings : ∀ x, p.settings x = s) : Leaves p (.leaf (.single unit s) : Diagram T) where
  fields := trivial
  exact := fun _ mem => List.mem_singleton.mp mem ▸ exact
  unitsAt := fun x => (units x).symm
  settings := fun _ x => (settings x).symm

/-- A first action keeps exact sets exact. -/
theorem seqActions_exact {action unit : ActionUnit} (exact : ExactSet action.predActions)
    (exact' : ExactSet unit.predActions) : ExactSet (seqActions action unit).predActions := by
  obtain ⟨pred, body, post⟩ := action
  cases body with
  | none => exact fieldSetUnion_exact exact exact'
  | some f => cases post <;> exact exact

/-- **The compiler ends on policies with exact fields of the known namespaces, and the
leaf of a packet is the one the policy says.** -/
theorem compile_leaves : ∀ {p : Policy}, p.AllFields ExactKnown →
    ∃ d : Diagram T, compile p = some d ∧ Leaves p d := by
  intro p
  induction p with
  | stop =>
      exact fun _ => ⟨_, rfl, trivial, stop_units _, fun _ => rfl, fun _ _ => rfl⟩
  | id => exact fun _ => ⟨_, rfl, leaves_single exactSet_empty (fun _ => rfl) fun _ => rfl⟩
  | flowSettings s =>
      exact fun _ => ⟨_, rfl, leaves_single exactSet_empty (fun _ => rfl) fun _ => rfl⟩
  | modify f =>
      intro known
      have exact : ExactSet (.ofField f) := exactSet_modify exactSet_empty known.1
      exact ⟨_, rfl, leaves_single exact (fun _ => rfl) fun _ => rfl⟩
  | packetFunction id h _ =>
      exact fun _ => ⟨_, rfl, leaves_single exactSet_empty (fun _ => rfl) fun _ => rfl⟩
  | filter f =>
      intro known
      refine ⟨_, rfl, ⟨known, trivial, trivial⟩, ⟨?_, stop_units _⟩, fun x => ?_, fun _ x => ?_⟩
      · exact fun _ mem => List.mem_singleton.mp mem ▸ exactSet_empty
      · rw [Diagram.unitsAt_node]
        rfl
      · rw [Diagram.leafAt_node]
        split_ifs <;> rfl
  | negation p ih =>
      intro known
      obtain ⟨d, result, leaves⟩ := ih known
      refine ⟨negationComposition d, by rw [compile, result]; rfl,
        negationComposition_fields leaves.fields, negationComposition_units exactSet_empty d, fun x => ?_, fun durations x => ?_⟩
      · have units := leaves.unitsAt x
        rw [Diagram.unitsAt, negationComposition_leafAt, Policy.units, ← units]
        simp only [Diagram.unitsAt, Multiset.coe_card, List.isEmpty_iff, List.length_eq_zero_iff]
        split_ifs <;> rfl
      · rw [negationComposition_leafAt]
        exact leaves.settings durations x
  | sequential p q ihP ihQ =>
      rintro ⟨knownP, knownQ⟩
      obtain ⟨d1, result1, leaves1⟩ := ihP knownP
      obtain ⟨d2, result2, leaves2⟩ := ihQ knownQ
      obtain ⟨d, result, seq⟩ := sequenced leaves2.fields leaves1.fields leaves1.exact
      refine ⟨d, by rw [compile, result1, result2]; exact result, seq.fields, ?_, fun x => ?_,
        fun durations x => ?_⟩
      · exact seq.units _ _ (fun _ _ => seqActions_exact) leaves1.exact leaves2.exact
      · rw [seq.unitsAt, leaves1.unitsAt, Policy.units]
        simp only [leaves2.unitsAt]
      · have first := leaves1.settings durations.1 x
        have second : (fun y => (d2.leafAt y).flowSettings) = q.settings :=
          funext (leaves2.settings durations.2)
        have range := first ▸ Policy.settings_range durations.1 x
        rw [seq.settings x range, first, second, leaves1.unitsAt]
        rfl
  | parallel p q ihP ihQ =>
      rintro ⟨knownP, knownQ⟩
      obtain ⟨d1, result1, leaves1⟩ := ihP knownP
      obtain ⟨d2, result2, leaves2⟩ := ihQ knownQ
      obtain ⟨d, result, fields, units, leaves⟩ := composes leaves1.fields leaves2.fields
      refine ⟨d, by rw [compile, result1, result2]; exact result, fields,
        units _ leaves1.exact leaves2.exact, fun x => ?_, fun durations x => ?_⟩
      · rw [leaves x, leaves1.unitsAt, leaves2.unitsAt]
        rfl
      · rw [parallelComposition_settings result leaves1.fields leaves2.fields,
          leaves1.settings durations.1, leaves2.settings durations.2]
        rfl

/-- A compiled diagram has no tree that was explored. -/
theorem compile_unexplored {p : Policy} {d : Diagram T} (compiled : compile p = some d) :
    d.Unexplored := by
  cases p with
  | negation p =>
      obtain ⟨d', -, rest⟩ := Option.bind_eq_some_iff.mp compiled
      obtain rfl := Option.some.inj rest
      exact negationComposition_unexplored d'
  | sequential p q =>
      obtain ⟨d1, -, rest⟩ := Option.bind_eq_some_iff.mp compiled
      obtain ⟨d2, -, rest⟩ := Option.bind_eq_some_iff.mp rest
      exact sequentialComposition_unexplored rest
  | parallel p q =>
      obtain ⟨d1, -, rest⟩ := Option.bind_eq_some_iff.mp compiled
      obtain ⟨d2, -, rest⟩ := Option.bind_eq_some_iff.mp rest
      exact parallelComposition_unexplored rest
  | filter f =>
      obtain rfl := Option.some.inj compiled
      exact ⟨rfl, rfl⟩
  | _ =>
      obtain rfl := Option.some.inj compiled
      rfl

end Drunos.Retic
