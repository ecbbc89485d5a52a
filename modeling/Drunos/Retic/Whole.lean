/-
# Drunos.Retic.Whole — policies with whole fields

The policies here have exact fields of the known namespaces, also in what their
functions put into packets and return (`Policy.Whole`). Their diagrams are compiled,
however often a function returns a policy with functions: a program goes on in finitely
many ways only, so that there is a depth to which functions are nested
(`Policy.exists_nests`), and every returned policy is nested less. No packet meets a slip
in them: all packets are smooth (`smooth_whole`).
-/
import Drunos.Retic.Smooth
import Mathlib.Data.Fintype.Order

namespace Drunos.Retic

open Drunos.Oxm Drunos.Theory Drunos.Maple

set_option autoImplicit false

variable [OxmTypes]

/-! ## Whole policies and their depth -/

namespace Policy

/-- The fields are exact and of known namespaces and the durations have 32 bits, outside
functions and in all that functions put into packets or return. -/
def Whole : Policy → Prop
  | filter f => ExactKnown f
  | modify f => ExactKnown f
  | flowSettings s => s.idleTimeout ≤ durationMax ∧ s.hardTimeout ≤ durationMax
  | negation p => Whole p
  | packetFunction _ h => wholeHandler h
  | sequential p q => Whole p ∧ Whole q
  | parallel p q => Whole p ∧ Whole q
  | _ => True
where
  wholeHandler : Handler Policy → Prop
    | .ret p => Whole p
    | .load _ next => ∀ v, wholeHandler (next v)
    | .test _ next => ∀ b, wholeHandler (next b)
    | .modify patch next => ExactKnown patch ∧ wholeHandler next

/-- Functions are nested to this depth at most. -/
def Nests : Policy → Nat → Prop
  | negation p, n => Nests p n
  | packetFunction _ h, n => n ≠ 0 ∧ nestsHandler h (n - 1)
  | sequential p q, n => Nests p n ∧ Nests q n
  | parallel p q, n => Nests p n ∧ Nests q n
  | _, _ => True
where
  nestsHandler : Handler Policy → Nat → Prop
    | .ret p, n => Nests p n
    | .load _ next, n => ∀ v, nestsHandler (next v) n
    | .test _ next, n => ∀ b, nestsHandler (next b) n
    | .modify _ next, n => nestsHandler next n

theorem Whole.allFields {p : Policy} (whole : p.Whole) : p.AllFields ExactKnown := by
  induction p with
  | filter f => exact whole
  | modify f => exact whole
  | negation p ih => exact ih whole
  | sequential p q ihP ihQ => exact ⟨ihP whole.1, ihQ whole.2⟩
  | parallel p q ihP ihQ => exact ⟨ihP whole.1, ihQ whole.2⟩
  | _ => trivial

theorem Whole.durations {p : Policy} (whole : p.Whole) : p.Durations := by
  induction p with
  | flowSettings s => exact whole
  | negation p ih => exact ih whole
  | sequential p q ihP ihQ => exact ⟨ihP whole.1, ihQ whole.2⟩
  | parallel p q ihP ihQ => exact ⟨ihP whole.1, ihQ whole.2⟩
  | _ => trivial

theorem Nests.mono : ∀ {p : Policy} {m n : Nat}, m ≤ n → p.Nests m → p.Nests n
  | .negation p, _, _, le, nests => mono (p := p) le nests
  | .packetFunction _ h, m, n, le, nests =>
      ⟨by have := nests.1; omega, handler h (Nat.sub_le_sub_right le 1) nests.2⟩
  | .sequential _ _, _, _, le, nests => ⟨mono le nests.1, mono le nests.2⟩
  | .parallel _ _, _, _, le, nests => ⟨mono le nests.1, mono le nests.2⟩
  | .stop, _, _, _, _ => trivial
  | .id, _, _, _, _ => trivial
  | .filter _, _, _, _, _ => trivial
  | .modify _, _, _, _, _ => trivial
  | .flowSettings _, _, _, _, _ => trivial
where
  handler : ∀ (h : Handler Policy) {m n : Nat}, m ≤ n →
      Nests.nestsHandler h m → Nests.nestsHandler h n
    | .ret _, _, _, le, nests => mono le nests
    | .load _ next, _, _, le, nests => fun v => handler (next v) le (nests v)
    | .test _ next, _, _, le, nests => fun b => handler (next b) le (nests b)
    | .modify _ next, _, _, le, nests => handler next le nests

/-- Every policy is nested to some depth: a program goes on in finitely many ways. -/
theorem exists_nests : ∀ p : Policy, ∃ n, p.Nests n
  | .negation p => exists_nests p
  | .packetFunction _ h => by
      obtain ⟨n, nests⟩ := handler h
      exact ⟨n + 1, by omega, nests⟩
  | .sequential p q => by
      obtain ⟨m, nests⟩ := exists_nests p
      obtain ⟨n, nests'⟩ := exists_nests q
      exact ⟨max m n, Nests.mono (le_max_left m n) nests, Nests.mono (le_max_right m n) nests'⟩
  | .parallel p q => by
      obtain ⟨m, nests⟩ := exists_nests p
      obtain ⟨n, nests'⟩ := exists_nests q
      exact ⟨max m n, Nests.mono (le_max_left m n) nests, Nests.mono (le_max_right m n) nests'⟩
  | .stop => ⟨0, trivial⟩
  | .id => ⟨0, trivial⟩
  | .filter _ => ⟨0, trivial⟩
  | .modify _ => ⟨0, trivial⟩
  | .flowSettings _ => ⟨0, trivial⟩
where
  handler : ∀ h : Handler Policy, ∃ n, Nests.nestsHandler h n
    | .ret p => exists_nests p
    | .load m next => by
        have each : ∀ v, ∃ n, Nests.nestsHandler (next v) n := fun v => handler (next v)
        choose depth nests using each
        have : Finite (BitVec (nbits m.type)) := .of_equiv _ BitVec.equivFin.symm.toEquiv
        obtain ⟨n, bound⟩ := Finite.exists_le depth
        exact ⟨n, fun v => Nests.mono.handler (next v) (bound v) (nests v)⟩
    | .test _ next => by
        obtain ⟨m, nests⟩ := handler (next true)
        obtain ⟨n, nests'⟩ := handler (next false)
        refine ⟨max m n, Bool.forall_bool.mpr ⟨?_, ?_⟩⟩
        · exact Nests.mono.handler _ (le_max_right m n) nests'
        · exact Nests.mono.handler _ (le_max_left m n) nests
    | .modify _ next => handler next

end Policy

/-! ## What the units of a policy carry -/

/-- The fields of a set are exact and of known namespaces. -/
def KnownSet (s : FieldSet) : Prop := ∀ t b, s.entry t = some b → ExactKnown ⟨t, b⟩

theorem knownSet_empty : KnownSet ∅ := fun _ _ found => by cases found

theorem knownSet_modify {s : FieldSet} {f : Field} (known : KnownSet s) (knownF : ExactKnown f) :
    KnownSet (s.modify f) := by
  intro t b found
  by_cases same : t = f.type
  · subst same
    rw [FieldSet.entry_modify_self, MaskedBits.overwrite_exact knownF.1] at found
    rw [← Option.some.inj found]
    exact knownF
  · rw [FieldSet.entry_modify_of_ne s same] at found
    exact known t b found

theorem KnownSet.fields {s : FieldSet} (known : KnownSet s) : ∀ f ∈ s.fields, ExactKnown f :=
  fun f mem => known f.type f.bits (FieldSet.mem_fields.mp mem)

theorem knownSet_union {lhs rhs : FieldSet} (known : KnownSet lhs) (known' : KnownSet rhs) :
    KnownSet (fieldSetUnion lhs rhs) := by
  have fields := known'.fields
  unfold fieldSetUnion
  generalize rhs.fields = fs at fields
  induction fs generalizing lhs with
  | nil => exact known
  | cons f fs ih =>
      obtain ⟨head, tail⟩ := List.forall_mem_cons.mp fields
      exact ih (knownSet_modify known head) tail

/-- A unit with known actions, and a function for which `Q` holds if it has one. -/
structure Carries (Q : PacketFunction → Prop) (unit : ActionUnit) : Prop where
  known : KnownSet unit.predActions
  body : ∀ f, unit.body = some f → Q f

theorem Carries.seqActions {Q : PacketFunction → Prop} {action unit : ActionUnit}
    (first : Carries Q action) (second : Carries Q unit) : Carries Q (seqActions action unit) := by
  obtain ⟨pred, body, post⟩ := action
  cases body with
  | none => exact ⟨knownSet_union first.known second.known, second.body⟩
  | some f => cases post <;> exact ⟨first.known, first.body⟩

namespace Policy

/-- `Q` holds of the functions that do not stand in other functions. -/
def AllFunctions (Q : PacketFunction → Prop) : Policy → Prop
  | negation p => AllFunctions Q p
  | packetFunction i h => Q ⟨i, h⟩
  | sequential p q => AllFunctions Q p ∧ AllFunctions Q q
  | parallel p q => AllFunctions Q p ∧ AllFunctions Q q
  | _ => True

theorem units_carry {Q : PacketFunction → Prop} {p : Policy} (functions : p.AllFunctions Q)
    (known : p.AllFields ExactKnown) (x : Packet) : ∀ unit ∈ p.units x, Carries Q unit := by
  have empty : Carries Q (.ofActions ∅) := ⟨knownSet_empty, fun _ none => by cases none⟩
  induction p generalizing x with
  | stop => exact fun _ mem => absurd mem (Multiset.notMem_zero _)
  | id => exact fun _ mem => Multiset.mem_singleton.mp mem ▸ empty
  | flowSettings s => exact fun _ mem => Multiset.mem_singleton.mp mem ▸ empty
  | filter f =>
      rw [units]
      split_ifs
      · exact fun _ mem => Multiset.mem_singleton.mp mem ▸ empty
      · exact fun _ mem => absurd mem (Multiset.notMem_zero _)
  | modify f =>
      intro unit mem
      obtain rfl := Multiset.mem_singleton.mp mem
      exact ⟨knownSet_modify knownSet_empty known, fun _ none => by cases none⟩
  | negation p ih =>
      rw [units]
      split_ifs
      · exact fun _ mem => Multiset.mem_singleton.mp mem ▸ empty
      · exact fun _ mem => absurd mem (Multiset.notMem_zero _)
  | packetFunction i h _ =>
      intro unit mem
      obtain rfl := Multiset.mem_singleton.mp mem
      exact ⟨knownSet_empty, fun f same => Option.some.inj same ▸ functions⟩
  | sequential p q ihP ihQ =>
      intro unit mem
      obtain ⟨action, memP, mem⟩ := Multiset.mem_bind.mp mem
      obtain ⟨next, memQ, rfl⟩ := Multiset.mem_map.mp mem
      exact (ihP functions.1 known.1 x action memP).seqActions
        (ihQ functions.2 known.2 _ next memQ)
  | parallel p q ihP ihQ =>
      intro unit mem
      rcases Multiset.mem_add.mp mem with mem | mem
      · exact ihP functions.1 known.1 x unit mem
      · exact ihQ functions.2 known.2 x unit mem

/-- The units of a compiled diagram have functions of the policy. -/
theorem compile_bodies {Q : PacketFunction → Prop} {p : Policy} : ∀ {d : Fdd}, compile p = some d →
    p.AllFunctions Q → d.AllUnits fun unit => ∀ f, unit.body = some f → Q f := by
  have kept : ∀ action unit : ActionUnit, (∀ f, action.body = some f → Q f) →
      (∀ f, unit.body = some f → Q f) → ∀ f, (seqActions action unit).body = some f → Q f := by
    rintro ⟨pred, _ | body, post⟩ unit first second
    · exact second
    · cases post <;> exact first
  have plain {acts : FieldSet} : ∀ f, (ActionUnit.ofActions acts).body = some f → Q f :=
    fun f none => by cases none
  induction p with
  | stop =>
      intro d compiled _
      obtain rfl := Option.some.inj compiled
      exact stop_units _
  | id | modify f | flowSettings s =>
      intro d compiled _
      obtain rfl := Option.some.inj compiled
      exact fun _ mem => List.mem_singleton.mp mem ▸ plain
  | filter f =>
      intro d compiled _
      obtain rfl := Option.some.inj compiled
      exact ⟨fun _ mem => List.mem_singleton.mp mem ▸ plain, stop_units _⟩
  | packetFunction i h _ =>
      intro d compiled functions
      obtain rfl := Option.some.inj compiled
      intro unit mem f found
      obtain rfl := List.mem_singleton.mp mem
      obtain rfl := Option.some.inj found
      exact functions
  | negation p ih =>
      intro d compiled functions
      obtain ⟨d', -, rest⟩ := Option.bind_eq_some_iff.mp compiled
      obtain rfl := Option.some.inj rest
      exact negationComposition_units plain d'
  | sequential p q ihP ihQ =>
      intro d compiled functions
      obtain ⟨d1, result1, rest⟩ := Option.bind_eq_some_iff.mp compiled
      obtain ⟨d2, result2, rest⟩ := Option.bind_eq_some_iff.mp rest
      exact sequentialComposition_units kept (ihQ result2 functions.2) rest (ihP result1 functions.1)
  | parallel p q ihP ihQ =>
      intro d compiled functions
      obtain ⟨d1, result1, rest⟩ := Option.bind_eq_some_iff.mp compiled
      obtain ⟨d2, result2, rest⟩ := Option.bind_eq_some_iff.mp rest
      exact parallelComposition_units rest (ihP result1 functions.1) (ihQ result2 functions.2)

theorem Whole.allFunctions {p : Policy} (whole : p.Whole) :
    p.AllFunctions fun f => Whole.wholeHandler f.function := by
  induction p with
  | packetFunction i h _ => exact whole
  | negation p ih => exact ih whole
  | sequential p q ihP ihQ => exact ⟨ihP whole.1, ihQ whole.2⟩
  | parallel p q ihP ihQ => exact ⟨ihP whole.1, ihQ whole.2⟩
  | _ => trivial

theorem Nests.allFunctions {p : Policy} {n : Nat} (nests : p.Nests n) :
    p.AllFunctions fun f => n ≠ 0 ∧ Nests.nestsHandler f.function (n - 1) := by
  induction p with
  | packetFunction i h _ => exact nests
  | negation p ih => exact ih nests
  | sequential p q ihP ihQ => exact ⟨ihP nests.1, ihQ nests.2⟩
  | parallel p q ihP ihQ => exact ⟨ihP nests.1, ihQ nests.2⟩
  | _ => trivial

/-! ## What functions return -/

theorem Whole.run {h : Handler Policy} (whole : Whole.wholeHandler h) :
    ∀ x : Packet, (h.run x).1.Whole := by
  induction h with
  | ret p => exact fun _ => whole
  | load m next ih => exact fun x => ih _ (whole _) x
  | test f next ih => exact fun x => ih _ (whole _) x
  | modify f next ih => exact fun x => ih whole.2 _

theorem Nests.run {n : Nat} {h : Handler Policy} (nests : Nests.nestsHandler h n) :
    ∀ x : Packet, (h.run x).1.Nests n := by
  induction h with
  | ret p => exact fun _ => nests
  | load m next ih => exact fun x => ih _ (nests _) x
  | test f next ih => exact fun x => ih _ (nests _) x
  | modify f next ih => exact fun x => ih nests _

theorem Whole.add {p q : Policy} (left : p.Whole) (right : q.Whole) : (p.add q).Whole := by
  unfold Policy.add
  split
  · exact right
  · exact left
  · exact ⟨left, right⟩

theorem Nests.add {p q : Policy} {n : Nat} (left : p.Nests n) (right : q.Nests n) :
    (p.add q).Nests n := by
  unfold Policy.add
  split
  · exact right
  · exact left
  · exact ⟨left, right⟩

end Policy

/-- The modifications a run keeps are known if those of the program are. -/
theorem runTraced_mods {V : Type} [PacketView V] {h : Handler Policy} :
    ∀ {x : V} {cache mods : FieldSet} {r : TracedRun Policy}, Policy.Whole.wholeHandler h →
      KnownSet mods → runTraced h x cache mods = some r → KnownSet r.mods := by
  induction h with
  | ret p =>
      intro x cache mods r _ known result
      obtain rfl := Option.some.inj result
      exact known
  | modify patch next ih =>
      intro x cache mods r whole known result
      obtain ⟨y, -, result⟩ := Option.bind_eq_some_iff.mp result
      exact ih whole.2 (knownSet_modify known whole.1) result
  | load m next ih =>
      intro x cache mods r whole known result
      rw [runTraced] at result
      obtain ⟨read, -, result⟩ := Option.bind_eq_some_iff.mp result
      dsimp only at result
      split at result
      · exact ih _ (whole _) known result
      · obtain ⟨rest, ran, told⟩ := Option.bind_eq_some_iff.mp result
        obtain rfl := Option.some.inj told
        show KnownSet rest.mods
        exact ih _ (whole _) known ran
  | test need next ih =>
      intro x cache mods r whole known result
      rw [runTraced] at result
      obtain ⟨read, -, result⟩ := Option.bind_eq_some_iff.mp result
      dsimp only at result
      split at result
      · split at result
        · exact ih _ (whole _) known result
        · obtain ⟨rest, ran, told⟩ := Option.bind_eq_some_iff.mp result
          obtain rfl := Option.some.inj told
          show KnownSet rest.mods
          exact ih _ (whole _) known ran
      · exact ih _ (whole _) known result

/-- The function of a unit, after its actions: a property of handlers that modifying keeps. -/
theorem ActionUnit.handler_keeps {unit : ActionUnit} {P : Handler Policy → Prop} (rest : P (.ret .id))
    (body : ∀ f, unit.body = some f → P f.function)
    (modify : ∀ f ∈ unit.predActions.fields, ∀ h, P h → P (.modify f h)) : P unit.handler := by
  unfold ActionUnit.handler
  generalize unit.predActions.fields = fs at modify
  induction fs with
  | nil =>
      cases found : unit.body with
      | none => exact rest
      | some f => exact body f found
  | cons f fs ih =>
      obtain ⟨head, tail⟩ := List.forall_mem_cons.mp modify
      exact head _ (ih tail)

theorem Carries.wholeHandler {unit : ActionUnit}
    (carries : Carries (fun f => Policy.Whole.wholeHandler f.function) unit) :
    Policy.Whole.wholeHandler unit.handler := by
  apply ActionUnit.handler_keeps trivial carries.body
  exact fun f mem _ inner => ⟨carries.known.fields f mem, inner⟩

theorem ActionUnit.nestsHandler {unit : ActionUnit} {n : Nat}
    (body : ∀ f, unit.body = some f → n ≠ 0 ∧ Policy.Nests.nestsHandler f.function (n - 1)) :
    Policy.Nests.nestsHandler unit.handler (n - 1) := by
  apply ActionUnit.handler_keeps (P := fun h => Policy.Nests.nestsHandler h (n - 1)) trivial
  · exact fun f found => (body f found).2
  · exact fun _ _ _ inner => inner

theorem withMods_whole {mods : FieldSet} (known : KnownSet mods) {p : Policy} (whole : p.Whole) :
    (withMods mods p).Whole := by
  have fields := known.fields
  unfold withMods
  generalize mods.fields = fs at fields
  induction fs generalizing p with
  | nil => exact whole
  | cons f fs ih =>
      obtain ⟨head, tail⟩ := List.forall_mem_cons.mp fields
      exact ih ⟨head, whole⟩ tail

theorem withMods_nests (mods : FieldSet) {p : Policy} {n : Nat} (nests : p.Nests n) :
    (withMods mods p).Nests n := by
  unfold withMods
  generalize mods.fields = fs
  induction fs generalizing p with
  | nil => exact nests
  | cons f fs ih => exact ih ⟨trivial, nests⟩

theorem Carries.returned_whole {unit : ActionUnit}
    (carries : Carries (fun f => Policy.Whole.wholeHandler f.function) unit) (x : Packet) :
    (unit.returned x).Whole := by
  obtain ⟨r, result, -, -, returned, -⟩ := traceUnit_packet x unit
  have whole := carries.wholeHandler
  rw [returned]
  exact withMods_whole (runTraced_mods whole knownSet_empty result) (Policy.Whole.run whole x)

theorem Carries.returned_nests {unit : ActionUnit} {n : Nat}
    (carries : Carries (fun f => n ≠ 0 ∧ Policy.Nests.nestsHandler f.function (n - 1)) unit)
    (x : Packet) : (unit.returned x).Nests (n - 1) := by
  obtain ⟨r, -, -, -, returned, -⟩ := traceUnit_packet x unit
  rw [returned]
  exact withMods_nests _ (Policy.Nests.run (ActionUnit.nestsHandler carries.body) x)

/-! ## Whole policies are smooth -/

/-- Of the exact fields of a type a packet passes one at most. -/
theorem passesOne_known (x : Packet) : PassesOne x ExactKnown := fun _ _ left right same has has' =>
  Packet.test_exact_unique left.1 right.1 same has has'

/-- Exact actions decide the exact tests of the types they set. -/
theorem ExactSet.decides {acts : FieldSet} (exact : ExactSet acts) (x : Packet) :
    Decides acts x ExactKnown := by
  intro f known bits found passed
  have exactBits : bits.exact = true := exact f.type bits found
  have value : acts.apply x f.type = bits.write (x f.type) := by
    rw [FieldSet.apply_apply, FieldSet.get_of_entry found]
  have matches' : bits.Matches (acts.apply x f.type) := value ▸ bits.write_matches _
  rw [MaskedBits.eq_exactly exactBits, MaskedBits.eq_exactly known.1,
    ← (MaskedBits.exact_matches exactBits).mp matches',
    ← (MaskedBits.exact_matches known.1).mp (Packet.test_iff.mp passed)]

/-- With exact fields of the known namespaces no packet meets a slip. -/
theorem smoothAt_known {p : Policy} (known : p.AllFields ExactKnown) (x : Packet) : p.SmoothAt x := by
  induction p generalizing x with
  | negation p ih => exact ih known x
  | sequential p q ihP ihQ =>
      obtain ⟨d1, result1, leaves1⟩ := compile_leaves (T := TraceTree) known.1
      obtain ⟨d2, result2, leaves2⟩ := compile_leaves (T := TraceTree) known.2
      obtain ⟨d, result, -⟩ := sequenced leaves2.fields leaves1.fields leaves1.exact
      obtain ⟨slips, found, -⟩ := sequentialComposition_accounts x result
      obtain rfl := sequentialSlips_nil (passesOne_known x) leaves2.fields leaves1.fields
        (fun action mem => (Diagram.AllLeaves.leafAt x leaves1.exact action mem).decides x) found
      exact ⟨ihP known.1 x, fun unit _ => ihQ known.2 _, d1, d2, d, result1, result2, result, found⟩
  | parallel p q ihP ihQ =>
      obtain ⟨d1, result1, leaves1⟩ := compile_leaves (T := TraceTree) known.1
      obtain ⟨d2, result2, leaves2⟩ := compile_leaves (T := TraceTree) known.2
      obtain ⟨d, result, -⟩ := composes leaves1.fields leaves2.fields
      exact ⟨ihP known.1 x, ihQ known.2 x, d1, d2, d, result1, result2, result,
        parallelSlips_nil (passesOne_known x) leaves1.fields leaves2.fields⟩
  | _ => trivial

/-- **Every packet is smooth for a policy of whole fields.** -/
theorem smooth_whole (x : Packet) {p : Policy} (whole : p.Whole) : Smooth x p := by
  obtain ⟨n, nests⟩ := p.exists_nests
  induction n using Nat.strong_induction_on generalizing p with
  | _ n ih =>
      refine .intro whole.durations (smoothAt_known whole.allFields x) fun d compiled body => ?_
      obtain ⟨d', compiled', leaves⟩ := compile_leaves (T := TraceTree) whole.allFields
      obtain rfl : d = d' := Option.some.inj (compiled.symm.trans compiled')
      have units : ((d.leafAt x).sets : Multiset ActionUnit) = p.units x := leaves.unitsAt x
      have mem : ∀ {unit}, unit ∈ (d.leafAt x).sets → unit ∈ p.units x := by
        intro unit mem
        rw [← units]
        exact Multiset.mem_coe.mpr mem
      have wholes := Policy.units_carry whole.allFunctions whole.allFields x
      have nested := Policy.units_carry nests.allFunctions whole.allFields x
      -- the function of the leaf is nested, and what it returns is nested less
      obtain ⟨unit, memL, some⟩ := hasBody_iff.mp body
      obtain ⟨f, found⟩ := Option.ne_none_iff_exists'.mp some
      have positive : n ≠ 0 := ((nested unit (mem memL)).body f found).1
      have sumWhole : ((d.leafAt x).verdict.returned x).Whole :=
        Policy.sum_induction trivial (fun _ _ => .add) fun p mem' => by
          obtain ⟨unit, memL, rfl⟩ := List.mem_map.mp mem'
          exact (wholes unit (mem memL)).returned_whole x
      have sumNests : ((d.leafAt x).verdict.returned x).Nests (n - 1) :=
        Policy.sum_induction (P := (·.Nests (n - 1))) trivial (fun _ _ => .add) fun p mem' => by
          obtain ⟨unit, memL, rfl⟩ := List.mem_map.mp mem'
          exact (nested unit (mem memL)).returned_nests x
      exact ih (n - 1) (by omega) sumWhole sumNests

end Drunos.Retic
