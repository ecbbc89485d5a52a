/-
# Drunos.Retic.Outputs — what the leaf that is found makes of a packet

The leaf a traversal finds is that of the policy the functions return in the end
(`traverse_smooth`). What was put after a function, or negates it, has no part in that
policy, and what follows a function is compiled for the packet as it was before: of each
unit it keeps what its function makes of the packet, and there are as many copies of the
unit as what follows has units (`ActionUnit.kept`).

Nothing is lost where what follows each function makes of the packets that come out of it
just as many copies as it has units for the packet that goes in, and a negated policy has
units exactly if it has outputs (`Policy.Lossless`): `lossless_outputs` is about one policy,
`returns_kept` goes to the one that is returned, and `traverse_outputs` is the result about
the leaf.
-/
import Drunos.Retic.Whole
import Drunos.Retic.CompilerMeaning

namespace Drunos.Retic

open Drunos.Oxm Drunos.Theory Drunos.Maple

set_option autoImplicit false

section

variable [OxmTypes]

/-- What is made of a packet where the function of the unit is run and what is to follow it is not
looked at. -/
def ActionUnit.kept : ActionUnit → Packet → Multiset Packet
  | mk pred none _, x => {pred.apply x}
  | mk pred (some f) _, x => Policy.outputs.outputsOf f.function (pred.apply x)

theorem ActionUnit.kept_plain {unit : ActionUnit} (plain : unit.body = none) (x : Packet) :
    unit.kept x = {unit.predActions.apply x} := by
  obtain ⟨pred, body, post⟩ := unit
  obtain rfl : body = none := plain
  rfl

/-- What follows a policy: what it makes of a packet that comes out, how many units it has for a packet
that goes into a function, and what is asked of it. -/
structure Continuation where
  outputs : Packet → Multiset Packet
  count : Packet → Nat
  lossless : Packet → Prop

/-- Nothing follows. -/
def Continuation.last : Continuation := ⟨fun y => {y}, fun _ => 1, fun _ => True⟩

/-- A policy follows, of which this is asked, and then the continuation. -/
def Continuation.behind (q : Policy) (lossless : Packet → Prop) (k : Continuation) : Continuation where
  outputs y := (q.outputs y).bind k.outputs
  count z := (q.units z).card * k.count z
  lossless := lossless

namespace Policy

/-! ## Policies that lose nothing -/

/-- What follows each function that the packet comes to makes as many copies of the packets that come
out of it as it has units for the packet that goes in; where it has any, the same holds of what the
function returns; and what is negated has units exactly if it has outputs. -/
def losslessThen : Policy → Continuation → Packet → Prop
  | stop, _, _ => True
  | id, k, x => k.lossless x
  | flowSettings _, k, x => k.lossless x
  | filter f, k, x => x.test f = true → k.lossless x
  | modify f, k, x => k.lossless (x.modify f)
  | negation p, k, x => ((p.units x).card = 0 ↔ (p.outputs x).card = 0) ∧
      ((p.outputs x).card = 0 → k.lossless x)
  | packetFunction _ h, k, x =>
      (outputs.outputsOf h x).bind k.outputs = k.count x • outputs.outputsOf h x ∧
        (k.count x ≠ 0 → inHandler h x)
  | sequential p q, k, x => losslessThen p (.behind q (losslessThen q k) k) x
  | parallel p q, k, x => losslessThen p k x ∧ losslessThen q k x
where
  inHandler : Handler Policy → Packet → Prop
    | .ret p, x => losslessThen p .last x
    | .load m next, x => inHandler (next (x.load m).bits.value) x
    | .test f next, x => inHandler (next (x.test f)) x
    | .modify f next, x => inHandler next (x.modify f)

/-- Nothing of the policy is lost for the packet. -/
def Lossless (p : Policy) (x : Packet) : Prop := p.losslessThen .last x

theorem inHandler_iff (h : Handler Policy) (x : Packet) :
    losslessThen.inHandler h x ↔ (h.run x).1.Lossless (h.run x).2 := by
  induction h generalizing x with
  | ret p => exact Iff.rfl
  | load m next ih => exact ih _ x
  | test f next ih => exact ih _ x
  | modify f next ih => exact ih (x.modify f)

/-- What a unit keeps of a packet in front of a continuation: plain units go on with it, and of what
functions return there are as many copies as the continuation has units. -/
def unitThen (k : Continuation) (due : Packet → Multiset Packet) (x : Packet) (unit : ActionUnit) :
    Multiset Packet :=
  match unit.body with
  | none => due (unit.predActions.apply x)
  | some f => k.count (unit.predActions.apply x) •
      outputs.outputsOf f.function (unit.predActions.apply x)

/-- What a lossless policy asks of its units. -/
structure UnitLossless (k : Continuation) (x : Packet) (unit : ActionUnit) : Prop where
  plain : unit.body = none → k.lossless (unit.predActions.apply x)
  body : ∀ f, unit.body = some f → k.count (unit.predActions.apply x) ≠ 0 →
    losslessThen.inHandler f.function (unit.predActions.apply x)

omit [OxmTypes] in
theorem bind_const {α β : Type} (s : Multiset α) (t : Multiset β) :
    (s.bind fun _ => t) = s.card • t := by
  induction s using Multiset.induction with
  | empty => simp
  | cons a s ih => rw [Multiset.cons_bind, ih, Multiset.card_cons, add_comm, succ_nsmul]

theorem losslessThen_units {p : Policy} : ∀ {k : Continuation} {due : Packet → Multiset Packet} {x : Packet},
    (∀ y, k.lossless y → k.outputs y = due y) → p.losslessThen k x →
      (p.outputs x).bind k.outputs = (p.units x).bind (unitThen k due x) ∧
        ∀ unit ∈ p.units x, UnitLossless k x unit := by
  -- a unit that changes nothing
  have empty {k : Continuation} {due : Packet → Multiset Packet} {x : Packet}
      (holds : ∀ y, k.lossless y → k.outputs y = due y) (lossless : k.lossless x) :
      ({x} : Multiset Packet).bind k.outputs =
          ({.ofActions ∅} : Multiset ActionUnit).bind (unitThen k due x) ∧
        ∀ unit ∈ ({.ofActions ∅} : Multiset ActionUnit), UnitLossless k x unit := by
    refine ⟨?_, fun unit mem => ?_⟩
    · rw [Multiset.singleton_bind, Multiset.singleton_bind]
      exact holds x lossless
    · obtain rfl := Multiset.mem_singleton.mp mem
      exact ⟨fun _ => lossless, fun f none => by cases none⟩
  have nothing {k : Continuation} {due : Packet → Multiset Packet} {x : Packet} :
      (0 : Multiset Packet).bind k.outputs = (0 : Multiset ActionUnit).bind (unitThen k due x) ∧
        ∀ unit ∈ (0 : Multiset ActionUnit), UnitLossless k x unit :=
    ⟨rfl, fun _ mem => absurd mem (Multiset.notMem_zero _)⟩
  induction p with
  | stop => exact fun _ _ => nothing
  | id => exact fun holds lossless => empty holds lossless
  | flowSettings s => exact fun holds lossless => empty holds lossless
  | filter f =>
      intro k due x holds lossless
      rw [outputs, units]
      split_ifs with has
      · exact empty holds (lossless has)
      · exact nothing
  | modify f =>
      intro k due x holds lossless
      have applied : (ActionUnit.ofActions (.ofField f)).predActions.apply x = x.modify f := by
        show (FieldSet.ofField f).apply x = _
        rw [FieldSet.ofField, FieldSet.apply_modify]
        rfl
      refine ⟨?_, fun unit mem => ?_⟩
      · rw [outputs, units, Multiset.singleton_bind, Multiset.singleton_bind]
        show _ = due _
        rw [applied]
        exact holds _ lossless
      · obtain rfl := Multiset.mem_singleton.mp mem
        exact ⟨fun _ => applied ▸ lossless, fun f none => by cases none⟩
  | negation p _ =>
      intro k due x holds lossless
      rw [outputs, units]
      by_cases none : (p.outputs x).card = 0
      · rw [if_pos none, if_pos (lossless.1.mpr none)]
        exact empty holds (lossless.2 none)
      · rw [if_neg none, if_neg fun nothing => none (lossless.1.mp nothing)]
        exact nothing
  | packetFunction i h _ =>
      intro k due x _ lossless
      refine ⟨?_, fun unit mem => ?_⟩
      · rw [units, Multiset.singleton_bind]
        exact lossless.1
      · obtain rfl := Multiset.mem_singleton.mp mem
        refine ⟨fun none => (by cases none), fun f found => ?_⟩
        obtain rfl := Option.some.inj found
        exact lossless.2
  | sequential p q ihP ihQ =>
      intro k due x holds lossless
      obtain ⟨outputsP, unitsP⟩ := ihP (fun y rest => (ihQ holds rest).1) lossless
      -- what the units of both make together
      have together : ∀ action, unitThen (.behind q (losslessThen q k) k)
            (fun y => (q.units y).bind (unitThen k due y)) x action =
          (q.units (action.predActions.apply x)).bind fun unit =>
            unitThen k due x (seqActions action unit) := by
        rintro ⟨pred, body, post⟩
        cases body with
        | none =>
            refine Multiset.bind_congr fun unit _ => ?_
            rw [seqActions_plain rfl]
            unfold unitThen
            simp only [ActionUnit.body, ActionUnit.predActions, fieldSetUnion_apply]
        | some f =>
            have same : ∀ unit, unitThen k due x (seqActions (.mk pred (some f) post) unit) =
                k.count (pred.apply x) • outputs.outputsOf f.function (pred.apply x) := by
              intro unit
              cases post <;> rfl
            simp only [same, bind_const, ← mul_nsmul']
            rfl
      refine ⟨?_, fun unit mem => ?_⟩
      · rw [outputs, units, Multiset.bind_assoc, Multiset.bind_assoc]
        refine outputsP.trans (Multiset.bind_congr fun action _ => ?_)
        rw [together, Multiset.bind_map]
      · obtain ⟨action, memP, mem⟩ := Multiset.mem_bind.mp mem
        obtain ⟨unit, memQ, rfl⟩ := Multiset.mem_map.mp mem
        have first := unitsP action memP
        obtain ⟨pred, body, post⟩ := action
        cases body with
        | none =>
            have second := (ihQ holds (first.plain rfl)).2 unit memQ
            rw [seqActions_plain rfl]
            refine ⟨fun none => ?_, fun f found => ?_⟩
            · rw [ActionUnit.predActions, fieldSetUnion_apply]
              exact second.plain none
            · rw [ActionUnit.predActions, fieldSetUnion_apply]
              exact second.body f found
        | some f =>
            have some : (q.units (pred.apply x)).card ≠ 0 := fun none =>
              Multiset.notMem_zero unit (Multiset.card_eq_zero.mp none ▸ memQ)
            have asks : ∀ g, g = f → k.count (pred.apply x) ≠ 0 →
                losslessThen.inHandler g.function (pred.apply x) := by
              rintro g rfl more
              exact first.body g rfl (Nat.mul_ne_zero some more)
            cases post with
            | none => exact ⟨fun none => (by cases none), fun g found => asks g (Option.some.inj found).symm⟩
            | some post =>
                exact ⟨fun none => (by cases none), fun g found => asks g (Option.some.inj found).symm⟩
  | parallel p q ihP ihQ =>
      intro k due x holds lossless
      obtain ⟨outputsP, unitsP⟩ := ihP holds lossless.1
      obtain ⟨outputsQ, unitsQ⟩ := ihQ holds lossless.2
      refine ⟨?_, fun unit mem => (Multiset.mem_add.mp mem).elim (unitsP unit) (unitsQ unit)⟩
      rw [outputs, units, Multiset.add_bind, Multiset.add_bind, outputsP, outputsQ]

/-- **What a lossless policy makes of a packet is what its units keep of it, and nothing is lost in what
their functions return.** -/
theorem lossless_outputs {p : Policy} {x : Packet} (lossless : p.Lossless x) :
    p.outputs x = (p.units x).bind (·.kept x) ∧ ∀ unit ∈ p.units x, UnitLossless .last x unit := by
  obtain ⟨outputs, units⟩ :=
    @losslessThen_units _ p .last (fun y => {y}) x (fun _ _ => rfl) lossless
  refine ⟨?_, units⟩
  rw [show Continuation.last.outputs = fun y => {y} from rfl, Multiset.bind_singleton,
    Multiset.map_id'] at outputs
  refine outputs.trans (Multiset.bind_congr fun unit _ => ?_)
  obtain ⟨pred, body, post⟩ := unit
  cases body with
  | none => rfl
  | some f => exact one_nsmul _

end Policy

/-! ## What functions return -/

/-- Fields of different types may be put in in any order. -/
theorem apply_reverse (s : FieldSet) (x : Packet) :
    s.fields.foldr (fun f y => y.modify f) x = s.apply x := by
  funext t
  rw [← List.foldl_reverse, FieldSet.fields, ← List.filterMap_reverse,
    FieldSet.foldl_modify s t x (List.nodup_reverse.mpr s.nodup), FieldSet.apply, FieldSet.fields,
    FieldSet.foldl_modify s t x s.nodup]
  simp only [List.mem_reverse]

/-- Modifications put before a policy. -/
theorem withMods_spec (mods : FieldSet) (p : Policy) (x : Packet) :
    (withMods mods p).outputs x = p.outputs (mods.apply x) ∧
      ((withMods mods p).Lossless x ↔ p.Lossless (mods.apply x)) := by
  rw [withMods, ← apply_reverse]
  generalize mods.fields = fs
  induction fs generalizing p with
  | nil => exact ⟨rfl, Iff.rfl⟩
  | cons f fs ih =>
      obtain ⟨outputs, lossless⟩ := ih (.sequential (.modify f) p)
      have modified : ∀ y, (Policy.modify f).outputs y = {y.modify f} := fun _ => rfl
      refine ⟨outputs.trans ?_, lossless.trans ?_⟩
      · rw [Policy.outputs, modified, Multiset.singleton_bind]
        rfl
      · exact Iff.rfl

/-- The function of a unit is run on the packet with the actions of the unit. -/
theorem modifying_run {R : Type} (fields : List Field) (h : Handler R) (x : Packet) :
    (modifying fields h).run x = h.run (fields.foldl Packet.modify x) := by
  induction fields generalizing x with
  | nil => rfl
  | cons f fields ih => exact ih (x.modify f)

/-- The policy returned for a unit makes of the packet what the unit keeps. -/
theorem returned_outputs (unit : ActionUnit) (x : Packet) :
    (unit.returned x).outputs x = unit.kept x ∧ ((unit.returned x).Lossless x ↔
      ∀ f, unit.body = some f → Policy.losslessThen.inHandler f.function (unit.predActions.apply x)) := by
  obtain ⟨r, -, -, -, returned, packet⟩ := traceUnit_packet x unit
  obtain ⟨outputs, lossless⟩ := withMods_spec r.mods (unit.handler.run x).1 x
  rw [packet] at outputs lossless
  rw [returned, outputs, lossless]
  obtain ⟨pred, body, post⟩ := unit
  rw [ActionUnit.handler, modifying_run]
  cases body with
  | none => exact ⟨rfl, iff_of_true trivial fun f none => (by cases none)⟩
  | some f =>
      refine ⟨(Policy.outputsOf_eq _ _).symm, (Policy.inHandler_iff _ _).symm.trans ?_⟩
      exact ⟨fun lossless g found => Option.some.inj found ▸ lossless, fun all => all f rfl⟩

namespace Policy

theorem lossless_add {p q : Policy} {x : Packet} (left : p.Lossless x) (right : q.Lossless x) :
    (p.add q).Lossless x := by
  unfold add
  split
  · exact right
  · exact left
  · exact ⟨left, right⟩

theorem outputs_sum (ps : List Policy) (x : Packet) :
    (sum ps).outputs x = (ps.map fun p => p.outputs x).sum := by
  cases ps with
  | nil => rfl
  | cons p ps =>
      rw [List.map_cons, List.sum_cons]
      exact outputs_foldl_add (fun p => p) x ps p

end Policy

/-- **If nothing is lost in what the functions of a leaf return, the policy they return in the end makes
of the packet what the units of the leaf keep of it.** -/
theorem returns_kept {x : Packet} {p q : Policy} (returns : Returns x p q) :
    (∀ unit ∈ p.units x, (unit.returned x).Lossless x) →
      (∀ unit ∈ q.units x, unit.body = none) ∧
        (q.units x).map (fun unit => unit.predActions.apply x) = (p.units x).bind (·.kept x) := by
  induction returns with
  | @last p plain =>
      refine fun _ => ⟨plain, ?_⟩
      rw [← Multiset.bind_singleton]
      exact Multiset.bind_congr fun unit mem => (unit.kept_plain (plain unit mem) x).symm
  | @returned p q units same body rest ih =>
      intro each
      rw [← same] at each ⊢
      have sum : (Policy.sum (units.map fun unit => unit.returned x)).Lossless x :=
        Policy.sum_induction (P := (·.Lossless x)) trivial (fun _ _ => Policy.lossless_add) fun p mem => by
          obtain ⟨unit, memL, rfl⟩ := List.mem_map.mp mem
          exact each unit (Multiset.mem_coe.mpr memL)
      obtain ⟨outputs, lossless⟩ := Policy.lossless_outputs sum
      obtain ⟨plain, kept⟩ := ih fun unit mem => (returned_outputs unit x).2.mpr
        fun f found => (lossless unit mem).body f found one_ne_zero
      refine ⟨plain, kept.trans ?_⟩
      rw [← outputs, Policy.outputs_sum, List.map_map, Multiset.bind, Multiset.join, Multiset.map_coe,
        Multiset.sum_coe]
      exact congrArg List.sum (List.map_congr_left fun unit _ => (returned_outputs unit x).1)

/-- The traversal of the compiled diagram of the policy finds a leaf for the packet whose action
sets make of it what the policy makes of it. -/
def Executes (backend : Bool) (p : Policy) (x : Packet) : Prop :=
  ∃ d r, compile p = some d ∧ traverse backend x d ∅ = pure r ∧
    (∀ unit ∈ r.leaf.sets, unit.body = none) ∧
    (r.leaf.sets : Multiset ActionUnit).map (fun unit => unit.predActions.apply x) = p.outputs x

theorem Executes.returned {backend : Bool} {p : Policy} {x : Packet} (executes : Executes backend p x)
    (smooth : Smooth x p) : ∃ q, Returns x p q ∧
      (q.units x).map (fun unit => unit.predActions.apply x) = p.outputs x := by
  obtain ⟨d, r, compiled, result, -, outputs⟩ := executes
  obtain ⟨d', r', q, compiled', result', returns, units, -⟩ := traverse_smooth backend smooth
  obtain rfl := Option.some.inj (compiled.symm.trans compiled')
  have same := result.symm.trans result'
  obtain rfl : r = r' := by injection same with same; injection same
  exact ⟨q, returns, units ▸ outputs⟩

/-- If nothing is lost in what the functions return, the leaf that is found is right exactly if the units
of the policy keep all it makes of the packet. -/
theorem executes_iff (backend : Bool) {p : Policy} {x : Packet} (smooth : Smooth x p)
    (each : ∀ unit ∈ p.units x, (unit.returned x).Lossless x) :
    Executes backend p x ↔ p.outputs x = (p.units x).bind (·.kept x) := by
  constructor
  · intro executes
    obtain ⟨q, returns, outputs⟩ := executes.returned smooth
    exact outputs.symm.trans (returns_kept returns each).2
  · intro same
    obtain ⟨d, r, q, compiled, result, returns, units, -⟩ := traverse_smooth backend smooth
    obtain ⟨plain, kept⟩ := returns_kept returns each
    refine ⟨d, r, compiled, result, fun unit mem => plain unit ?_, ?_⟩
    · rw [← units]
      exact mem
    · rw [units, kept, same]

end

section

open scoped Drunos.Oxm.OpenflowBasic

/-- The port of the packets is put after a function. -/
def portAfter : Policy :=
  .sequential (.packetFunction 0 (.ret .id)) (.modify (.exactly outPort 1#32))

end

end Drunos.Retic
