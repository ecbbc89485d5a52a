/-
# Drunos.Retic.Merged — merged traces as programs

A merged trace asks of a packet what the functions of a leaf ask of it, less what is
known when the leaf is reached. What is known are bits of the fields (`Knowledge`).

`known` takes a program to the one that asks only what is not known and keeps account
of what it learns. `merged_path` says that a merged trace is a path of it. Where a test
contradicts known bits the trace says that it failed, whatever the unknown bits are: the
packet may pass what was recorded as failed, and then its answers lead to nothing.
-/
import Drunos.Retic.Returned

namespace Drunos.Retic

open Drunos.Oxm Drunos.Theory Drunos.Theory.Exploration Drunos.Maple

set_option autoImplicit false

variable [OxmTypes]

/-! ## What is known of a packet -/

/-- Known bits of each field. -/
abbrev Knowledge := ∀ t : OxmType, MaskedBits (nbits t)

namespace Knowledge

def note (known : Knowledge) (f : Field) : Knowledge :=
  Function.update known f.type ((known f.type).overwrite f.bits)

/-- The packet has the known bits. -/
def Of (known : Knowledge) (x : Packet) : Prop := ∀ t, (known t).Matches (x t)

theorem get_modify (s : FieldSet) (f : Field) : (s.modify f).get = note s.get f := by
  funext t
  by_cases same : t = f.type
  · subst same
    rw [FieldSet.get_modify_self, note, Function.update_self]
  · rw [FieldSet.get_modify_of_ne s same, note, Function.update_of_ne same]

theorem Of.note {known : Knowledge} {x : Packet} {f : Field} (of : known.Of x)
    (has : x.test f = true) : (known.note f).Of x := by
  intro t
  by_cases same : t = f.type
  · subst same
    rw [Knowledge.note, Function.update_self]
    exact MaskedBits.overwrite_matches (of _) (Packet.test_iff.mp has)
  · rw [Knowledge.note, Function.update_of_ne same]
    exact of t

end Knowledge

/-- What a call says of the packet. -/
def Holds (x : Packet) : TraceCall → Prop
  | .load f => x.test f = true
  | .test f b => x.test f = b

/-- What is known after a call. -/
def noteCall (known : FieldSet) : TraceCall → FieldSet
  | .load f => known.modify f
  | .test f true => known.modify f
  | .test _ false => known

/-! ## Programs that ask what is not known -/

section

variable {R : Type}

/-- The program, asked only for what is not known. With `none` a test is passed that was
recorded as failed. -/
def known : Prog Mask Nat Field R → Knowledge → Prog Mask Nat Field (Option (R × Knowledge))
  | .ret r, κ => .ret (some (r, κ))
  | .load m next, κ =>
      let explored := (κ m.type).restrict m.bits
      let mask := (κ m.type).unknownOf m.bits
      if mask = 0 then known (next explored.value.toNat) κ
      else
        .load ⟨m.type, mask⟩ fun v =>
          let read := MaskedBits.read (BitVec.ofNat _ v) mask
          known (next (explored.value ||| read.value).toNat) (κ.note ⟨m.type, read⟩)
  | .test need next, κ =>
      let fits := decide (((κ need.type).restrict need.bits.mask).Compatible need.bits)
      let mask := (κ need.type).unknownOf need.bits.mask
      let pred : Field := ⟨need.type, need.bits.restrict mask⟩
      if mask = 0 then known (next fits) κ
      else
        .test pred fun b =>
          if b then if fits then known (next true) (κ.note pred) else .ret none
          else known (next false) κ

theorem mergeCalls_load (f : Field) (rest : List TraceCall) (cache : FieldSet) :
    let mask := (cache.get f.type).unknownOf f.bits.mask
    let unexplored : Field := ⟨f.type, f.bits.restrict mask⟩
    mergeCalls (.load f :: rest) cache =
      if mask = 0 then mergeCalls rest cache
      else .load unexplored :: mergeCalls rest (cache.modify unexplored) := by
  simp only [mergeCalls, FieldSet.load, MaskedBits.without_known, Field.wildcard,
    MaskedBits.restrict_unknownOf_wildcard]

theorem mergeCalls_test (f : Field) (b : Bool) (rest : List TraceCall) (cache : FieldSet) :
    let mask := (cache.get f.type).unknownOf f.bits.mask
    let unexplored : Field := ⟨f.type, f.bits.restrict mask⟩
    mergeCalls (.test f b :: rest) cache =
      if mask = 0 then mergeCalls rest cache
      else .test unexplored b :: mergeCalls rest (if b then cache.modify unexplored else cache) := by
  simp only [mergeCalls, FieldSet.load, MaskedBits.without_known, Field.wildcard,
    MaskedBits.restrict_unknownOf_wildcard]

/-- A call that asks for what a packet answers is about this packet. -/
theorem call_of_load {call : TraceCall} {m : Mask} {x : Packet}
    (asked : call.asked = .load m ((answers x).load m)) : call = .load (x.load m) := by
  cases call with
  | test f b => cases asked
  | load f =>
      obtain ⟨t, b⟩ := f
      injection asked with mask value
      subst mask
      refine congrArg TraceCall.load (congrArg (Oxm.Field.mk t) (MaskedBits.ext ?_ rfl))
      exact BitVec.eq_of_toNat_eq value

theorem call_of_test {call : TraceCall} {need : Field} {b : Bool}
    (asked : call.asked = .test need b) : call = .test need b := by
  cases call with
  | load f => cases asked
  | test f b' =>
      injection asked with field result
      rw [field, result]

/-- Known bits of a load, and what is read of the rest. -/
theorem known_or_load {κ : Knowledge} {x : Packet} (of : κ.Of x) (m : Mask) :
    (((κ m.type).restrict m.bits).value |||
        (MaskedBits.read (x m.type) ((κ m.type).unknownOf m.bits)).value).toNat =
      (answers x).load m := by
  have value := MaskedBits.known_or_read (κ m.type) (x m.type) m.bits
  rw [MaskedBits.write_eq_self (of m.type)] at value
  rw [value]
  rfl

/-- A test, in terms of the known bits and the rest. -/
theorem known_and_test {κ : Knowledge} {x : Packet} (of : κ.Of x) (need : Field) :
    x.test need = (decide (((κ need.type).restrict need.bits.mask).Compatible need.bits) &&
      x.test ⟨need.type, need.bits.restrict ((κ need.type).unknownOf need.bits.mask)⟩) := by
  have tested := MaskedBits.matches_write_iff (κ need.type) need.bits (x need.type)
  rw [MaskedBits.write_eq_self (of need.type)] at tested
  rw [Bool.eq_iff_iff, Bool.and_eq_true, decide_eq_true_iff, Packet.test_iff, Packet.test_iff]
  exact tested

/-- The calls are a path of the program to the result. If they hold of the packet, it is the path
its answers take; if not, these lead to nothing. -/
structure Follows {S : Type} (x : Packet) (p : Prog Mask Nat Field (Option S))
    (calls : List TraceCall) (result : S) : Prop where
  path : p.Path (calls.map TraceCall.asked) (some result)
  answers : ((∀ call ∈ calls, Holds x call) ∧ p.asked (answers x) = calls.map TraceCall.asked ∧
      p.run (answers x) = some result) ∨
    ((¬∀ call ∈ calls, Holds x call) ∧ p.run (answers x) = none)

section

variable {S : Type} {x : Packet} {calls : List TraceCall} {result : S}

theorem Follows.load {m : Mask} {next : Nat → Prog Mask Nat Field (Option S)}
    (follows : Follows x (next (valueBits (x.load m))) calls result) :
    Follows x (.load m next) (.load (x.load m) :: calls) result where
  path := .load follows.path
  answers := by
    have holds : Holds x (.load (x.load m)) :=
      Packet.test_iff.mpr (MaskedBits.read_matches (x m.type) m.bits)
    rw [List.forall_mem_cons, and_iff_right holds]
    exact follows.answers.imp_left fun ⟨all, asked, run⟩ =>
      ⟨all, congrArg (List.cons _) asked, run⟩

theorem Follows.test {f : Field} {next : Bool → Prog Mask Nat Field (Option S)}
    (follows : Follows x (next (x.test f)) calls result) :
    Follows x (.test f next) (.test f (x.test f) :: calls) result where
  path := .test follows.path
  answers := by
    have holds : Holds x (.test f (x.test f)) := rfl
    rw [List.forall_mem_cons, and_iff_right holds]
    exact follows.answers.imp_left fun ⟨all, asked, run⟩ =>
      ⟨all, congrArg (List.cons _) asked, run⟩

/-- A test that is recorded as failed and that the packet passes. -/
theorem Follows.passed {f : Field} {next : Bool → Prog Mask Nat Field (Option S)}
    (has : x.test f = true) (nothing : (next true).run (Maple.answers x) = none)
    (path : (next false).Path (calls.map TraceCall.asked) (some result)) :
    Follows x (.test f next) (.test f false :: calls) result where
  path := .test path
  answers := by
    refine .inr ⟨fun all => ?_, ?_⟩
    · have fails : x.test f = false := (List.forall_mem_cons.mp all).1
      simp [has] at fails
    · show (next (x.test f)).run _ = none
      rw [has, nothing]

end

/-- A load merged into what is known of the packet. -/
theorem mergeCalls_loaded (x : Packet) (m : Mask) (rest : List TraceCall) (cache : FieldSet) :
    let unknown : Mask := ⟨m.type, (cache.get m.type).unknownOf m.bits⟩
    mergeCalls (.load (x.load m) :: rest) cache =
      if unknown.bits = 0 then mergeCalls rest cache
      else .load (x.load unknown) :: mergeCalls rest (cache.modify (x.load unknown)) := by
  intro unknown
  have unexplored : (x.load m).bits.restrict unknown.bits = .read (x m.type) unknown.bits :=
    MaskedBits.read_restrict _ _ _
  refine (mergeCalls_load (x.load m) rest cache).trans ?_
  show (if unknown.bits = 0 then _ else
    .load ⟨m.type, (x.load m).bits.restrict unknown.bits⟩ :: mergeCalls rest (cache.modify
      ⟨m.type, (x.load m).bits.restrict unknown.bits⟩)) = _
  rw [unexplored]
  rfl

/-- **A merged trace is followed by the program that asks what is not known, to its result and to
what is known then.** -/
theorem merged_follows {x : Packet} (p : Prog Mask Nat Field R) :
    ∀ {calls : List TraceCall} {cache : FieldSet}, Knowledge.Of cache.get x →
      calls.map TraceCall.asked = p.asked (answers x) →
        Follows x (known p cache.get) (mergeCalls calls cache)
          (p.run (answers x), ((mergeCalls calls cache).foldl noteCall cache).get) := by
  induction p with
  | ret r =>
      intro calls cache of asked
      obtain rfl := List.map_eq_nil_iff.mp asked
      exact ⟨.ret _, .inl ⟨fun _ mem => absurd mem List.not_mem_nil, rfl, rfl⟩⟩
  | load m next ih =>
      intro calls cache of asked
      obtain ⟨call, rest, rfl, head, tail⟩ := List.map_eq_cons_iff.mp asked
      obtain rfl := call_of_load head
      have value := known_or_load of m
      rw [mergeCalls_loaded, known]
      split_ifs with nothing
      · rw [nothing] at value
        have known : ((cache.get m.type).restrict m.bits).value.toNat = (answers x).load m := by
          rw [← value]
          simp [MaskedBits.read]
        rw [known]
        exact ih _ of tail
      · let unknown : Mask := ⟨m.type, (cache.get m.type).unknownOf m.bits⟩
        have has : x.test (x.load unknown) = true :=
          Packet.test_iff.mpr (MaskedBits.read_matches (x m.type) unknown.bits)
        have rest := ih _ (Knowledge.get_modify cache (x.load unknown) ▸ of.note has) tail
        rw [Knowledge.get_modify] at rest
        have read : MaskedBits.read (BitVec.ofNat _ (valueBits (x.load unknown))) unknown.bits =
            .read (x m.type) unknown.bits := MaskedBits.read_ofNat _ _
        refine .load (m := unknown) ?_
        dsimp only
        rw [read]
        show Follows x (known (next (_ ||| (MaskedBits.read (x m.type)
          ((cache.get m.type).unknownOf m.bits)).value).toNat) _) _ _
        rw [value]
        exact rest
  | test need next ih =>
      intro calls cache of asked
      obtain ⟨call, rest, rfl, head, tail⟩ := List.map_eq_cons_iff.mp asked
      obtain rfl := call_of_test head
      have tested := known_and_test of need
      have answer : (answers x).test need = x.test need := rfl
      rw [answer] at tail
      rw [mergeCalls_test, known, Prog.run, answer]
      by_cases nothing : (cache.get need.type).unknownOf need.bits.mask = 0
      · -- all bits are known, and they decide
        have all : x.test ⟨need.type, need.bits.restrict 0⟩ = true :=
          Packet.test_iff.mpr (by simp [MaskedBits.Matches, MaskedBits.restrict])
        rw [nothing, all, Bool.and_true] at tested
        rw [if_pos nothing, if_pos nothing, ← tested]
        exact ih _ of tail
      · rw [if_neg nothing, if_neg nothing]
        generalize pred : (⟨need.type, need.bits.restrict
          ((cache.get need.type).unknownOf need.bits.mask)⟩ : Field) = f at tested
        cases fits : decide (((cache.get need.type).restrict need.bits.mask).Compatible need.bits) with
        | true =>
            rw [fits, Bool.true_and] at tested
            rw [tested] at tail ⊢
            refine .test ?_
            cases has : x.test f with
            | true =>
                have rest := ih true (Knowledge.get_modify cache f ▸ of.note has) (has ▸ tail)
                rw [Knowledge.get_modify] at rest
                exact rest
            | false => exact ih false of (has ▸ tail)
        | false =>
            rw [fits, Bool.false_and] at tested
            rw [tested] at tail ⊢
            have failed := ih false of tail
            cases has : x.test f with
            | true => exact .passed has rfl failed.path
            | false =>
                have step : Follows x (.test f fun b => if b then .ret none else
                    known (next false) cache.get) (.test f (x.test f) :: mergeCalls rest cache) _ :=
                  .test (by rw [has]; exact failed)
                rw [has] at step
                exact step

/-- What is known after a merged trace is true of the packet. -/
theorem merged_of {x : Packet} {calls : List TraceCall} :
    ∀ {cache : FieldSet}, Knowledge.Of cache.get x → (∀ call ∈ calls, Holds x call) →
      Knowledge.Of ((mergeCalls calls cache).foldl noteCall cache).get x := by
  have part : ∀ {f : Field} (c : MaskedBits (nbits f.type)), x.test f = true →
      x.test ⟨f.type, f.bits.restrict (c.unknownOf f.bits.mask)⟩ = true := fun c has =>
    Packet.test_iff.mpr ((Packet.test_iff.mp has).restrict _)
  induction calls with
  | nil => exact fun of _ => of
  | cons call calls ih =>
      intro cache of holds
      obtain ⟨head, tail⟩ := List.forall_mem_cons.mp holds
      cases call with
      | load f =>
          rw [mergeCalls_load]
          split_ifs
          · exact ih of tail
          · exact ih (Knowledge.get_modify _ _ ▸ of.note (part _ head)) tail
      | test f b =>
          rw [mergeCalls_test]
          split_ifs with known has
          · exact ih of tail
          · subst has
            exact ih (Knowledge.get_modify _ _ ▸ of.note (part _ head)) tail
          · rw [Bool.not_eq_true] at has
            subst has
            exact ih of tail

end

/-! ## The functions of a leaf as a program -/

/-- The program with its modifications put before what it returns. -/
def tracked : Handler Policy → FieldSet → Handler Policy
  | .ret p, mods => .ret (withMods mods p)
  | .load m next, mods => .load m fun v => tracked (next v) mods
  | .test need next, mods => .test need fun b => tracked (next b) mods
  | .modify patch next, mods => .modify patch (tracked next (mods.modify patch))

theorem tracked_traced {h : Handler Policy} : ∀ {x : Packet} {cache mods : FieldSet}
    {r : TracedRun Policy}, runTraced h x cache mods = some r →
      (traceable (tracked h mods) x cache).calls.map Prod.fst = r.calls ∧
        (traceable (tracked h mods) x cache).result = withMods r.mods r.result := by
  induction h with
  | ret p =>
      intro x cache mods r result
      obtain rfl := Option.some.inj result
      exact ⟨rfl, rfl⟩
  | modify patch next ih =>
      intro x cache mods r result
      exact ih (x := x.modify patch) result
  | load m next ih =>
      intro x cache mods r result
      rw [runTraced] at result
      obtain ⟨read, loaded, result⟩ := Option.bind_eq_some_iff.mp result
      obtain rfl := Option.some.inj loaded
      dsimp only at result
      rw [tracked, traceable]
      split at result
      · rw [if_pos ‹_›]
        exact ih _ result
      · rw [if_neg ‹_›]
        obtain ⟨rest, ran, told⟩ := Option.bind_eq_some_iff.mp result
        obtain rfl := Option.some.inj told
        obtain ⟨calls, returned⟩ := ih _ ran
        exact ⟨congrArg (List.cons _) calls, returned⟩
  | test need next ih =>
      intro x cache mods r result
      rw [runTraced] at result
      obtain ⟨read, loaded, result⟩ := Option.bind_eq_some_iff.mp result
      obtain rfl := Option.some.inj loaded
      dsimp only at result
      rw [tracked, traceable]
      split at result
      · rw [if_pos ‹_›]
        split at result
        · rw [if_pos ‹_›]
          exact ih _ result
        · rw [if_neg ‹_›]
          obtain ⟨rest, ran, told⟩ := Option.bind_eq_some_iff.mp result
          obtain rfl := Option.some.inj told
          obtain ⟨calls, returned⟩ := ih _ ran
          exact ⟨congrArg (List.cons _) calls, returned⟩
      · rw [if_neg ‹_›]
        exact ih _ result

/-- What the functions of a leaf ask, and what they return. -/
def unitsProg (units : List ActionUnit) : Prog Mask Nat Field (List Policy) :=
  .sequence (units.map fun unit => unexplored (tracked unit.handler ∅) ∅)

theorem trace_prog (x : Packet) (unit : ActionUnit) :
    (unit.trace x).values.map TraceCall.asked =
        (unexplored (tracked unit.handler ∅) ∅).asked (answers x) ∧
      unit.returned x = (unexplored (tracked unit.handler ∅) ∅).run (answers x) := by
  obtain ⟨r, result, traced, -⟩ := traceUnit_packet x unit
  obtain ⟨calls, returned⟩ := tracked_traced result
  obtain ⟨asked, ran⟩ := traceable_unexplored (tracked unit.handler ∅) (FieldSet.apply_empty x)
  have whole : traceUnit x unit = some ⟨r.calls, withMods r.mods r.result⟩ := by
    rw [traceUnit, result]
    rfl
  have trace := Option.some.inj (traced.symm.trans whole)
  rw [ActionUnit.returned, trace, ← ran, ← asked, ← calls, ← returned, List.map_map]
  exact ⟨rfl, rfl⟩

/-- The traces of the units of a leaf, before they are merged. -/
def Verdict.calls (x : Packet) (v : Verdict) : List TraceCall :=
  (v.sets.map (·.trace x)).flatMap (·.values)

theorem unitsProg_answers (x : Packet) (v : Verdict) :
    (v.calls x).map TraceCall.asked = (unitsProg v.sets).asked (answers x) ∧
      v.returned x = .sum ((unitsProg v.sets).run (answers x)) := by
  obtain ⟨run, asked⟩ := Prog.sequence_answers (answers x)
    (v.sets.map fun unit => unexplored (tracked unit.handler ∅) ∅)
  rw [unitsProg, run, asked, Verdict.calls, Verdict.returned, List.map_flatMap, List.flatMap_map,
    List.flatMap_map, List.map_map]
  constructor
  · simp only [trace_prog]
  · simp only [trace_prog]
    rfl

/-- What is asked of a packet holds of it. -/
theorem Verdict.calls_hold (x : Packet) (v : Verdict) : ∀ call ∈ v.calls x, Holds x call := by
  intro call mem
  have asked : call.asked ∈ (unitsProg v.sets).asked (answers x) :=
    (unitsProg_answers x v).1 ▸ List.mem_map_of_mem mem
  have answered := Prog.asked_answered (answers x) _ asked
  cases call with
  | load f =>
      have value : valueBits f = (answers x).load f.mask := answered
      have same : TraceCall.load f = .load (x.load f.mask) :=
        call_of_load (by rw [TraceCall.asked, value])
      injection same with same
      rw [same]
      exact Packet.test_iff.mpr (MaskedBits.read_matches _ _)
  | test f b =>
      have result : b = x.test f := answered
      exact result.symm

end Drunos.Retic
