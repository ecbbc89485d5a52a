/-
# Drunos.Retic.Policy — policies and what they mean

The policies of `policies.hh`. A `PacketFunction` carries its function as a
program over the packet that returns a policy, so functions nest to the depth of
the term. `Policy.outputs` is the meaning of a policy: the packets it makes of
one packet.
-/
import Drunos.Oxm.Handler
import Mathlib.Data.Multiset.Bind
import Mathlib.Data.Multiset.Fold

namespace Drunos.Retic

open Drunos.Oxm

set_option autoImplicit false

/-- `duration::max()`, for durations of 32 bits. -/
def durationMax : Nat := 2 ^ 32 - 1

structure FlowSettings where
  idleTimeout : Nat := durationMax
  hardTimeout : Nat := durationMax
  deriving DecidableEq

instance : Inhabited FlowSettings := ⟨{}⟩

/-- `operator&`: the hard timeout cannot be less than the idle timeout. -/
def FlowSettings.inter (lhs rhs : FlowSettings) : FlowSettings :=
  let hard := min lhs.hardTimeout rhs.hardTimeout
  { idleTimeout := min (min lhs.idleTimeout rhs.idleTimeout) hard, hardTimeout := hard }

theorem FlowSettings.inter_comm (lhs rhs : FlowSettings) : lhs.inter rhs = rhs.inter lhs := by
  simp [FlowSettings.inter, min_comm]

theorem FlowSettings.inter_assoc (a b c : FlowSettings) :
    (a.inter b).inter c = a.inter (b.inter c) := by
  simp only [FlowSettings.inter, FlowSettings.mk.injEq]
  constructor
  · refine eq_of_forall_le_iff fun n => ?_
    simp only [le_min_iff]
    tauto
  · exact min_assoc _ _ _

instance : Std.Commutative FlowSettings.inter := ⟨FlowSettings.inter_comm⟩
instance : Std.Associative FlowSettings.inter := ⟨FlowSettings.inter_assoc⟩

/-- What has come of `operator&` is not lowered by the default. -/
theorem FlowSettings.inter_default {s : FlowSettings} (proper : s.idleTimeout ≤ s.hardTimeout)
    (range : s.hardTimeout ≤ durationMax) : s.inter {} = s := by
  obtain ⟨idle, hard⟩ := s
  simp only [FlowSettings.inter, FlowSettings.mk.injEq] at proper range ⊢
  omega

theorem FlowSettings.fold_hardTimeout (m : Multiset FlowSettings) (first : FlowSettings) :
    (m.fold FlowSettings.inter first).hardTimeout ≤ first.hardTimeout := by
  induction m using Multiset.induction with
  | empty => exact le_rfl
  | cons s m ih =>
      rw [Multiset.fold_cons_left]
      exact (min_le_right _ _).trans ih

variable [OxmTypes]

inductive Policy where
  | stop
  | id
  | filter (field : Field)
  | modify (field : Field)
  | flowSettings (settings : FlowSettings)
  | negation (pol : Policy)
  | packetFunction (id : Nat) (function : Handler Policy)
  | sequential (one two : Policy)
  | parallel (one two : Policy)

/-- `PacketFunction`. -/
structure PacketFunction where
  id : Nat
  function : Handler Policy

namespace Policy

/-- Induction over policies: of a packet function the policies it returns for the
packets are smaller. -/
@[induction_eliminator]
theorem induct {motive : Policy → Prop} (stop : motive stop) (id : motive id)
    (filter : ∀ field, motive (filter field)) (modify : ∀ field, motive (modify field))
    (flowSettings : ∀ settings, motive (flowSettings settings))
    (negation : ∀ pol, motive pol → motive (negation pol))
    (packetFunction : ∀ id function, (∀ x, motive (Handler.run function x).1) →
      motive (packetFunction id function))
    (sequential : ∀ one two, motive one → motive two → motive (sequential one two))
    (parallel : ∀ one two, motive one → motive two → motive (parallel one two)) :
    ∀ p, motive p
  | .stop => stop
  | .id => id
  | .filter f => filter f
  | .modify f => modify f
  | .flowSettings s => flowSettings s
  | .negation p => negation p
      (induct stop id filter modify flowSettings negation packetFunction sequential parallel p)
  | .packetFunction i h => packetFunction i h (returned h)
  | .sequential p q => sequential p q
      (induct stop id filter modify flowSettings negation packetFunction sequential parallel p)
      (induct stop id filter modify flowSettings negation packetFunction sequential parallel q)
  | .parallel p q => parallel p q
      (induct stop id filter modify flowSettings negation packetFunction sequential parallel p)
      (induct stop id filter modify flowSettings negation packetFunction sequential parallel q)
where
  returned : ∀ (h : Handler Policy) (x : Packet), motive (h.run x).1
    | .ret p, _ =>
        induct stop id filter modify flowSettings negation packetFunction sequential parallel p
    | .load m next, x => returned (next (x.load m).bits.value) x
    | .test f next, x => returned (next (x.test f)) x
    | .modify f next, x => returned next (x.modify f)

/-- The packets a policy makes of a packet. A packet function makes what the
policy it returns makes of the packet as the function leaves it. -/
def outputs : Policy → Packet → Multiset Packet
  | stop, _ => 0
  | id, x => {x}
  | filter f, x => if x.test f then {x} else 0
  | modify f, x => {x.modify f}
  | flowSettings _, x => {x}
  | negation p, x => if (outputs p x).card = 0 then {x} else 0
  | packetFunction _ h, x => outputsOf h x
  | sequential p q, x => (outputs p x).bind (outputs q)
  | parallel p q, x => outputs p x + outputs q x
where
  outputsOf : Handler Policy → Packet → Multiset Packet
    | .ret p, x => outputs p x
    | .load m next, x => outputsOf (next (x.load m).bits.value) x
    | .test f next, x => outputsOf (next (x.test f)) x
    | .modify f next, x => outputsOf next (x.modify f)

theorem outputsOf_eq (h : Handler Policy) (x : Packet) :
    outputs.outputsOf h x = (h.run x).1.outputs (h.run x).2 := by
  induction h generalizing x with
  | ret p => rfl
  | load m next ih => exact ih _ x
  | test f next ih => exact ih _ x
  | modify f next ih => exact ih (x.modify f)

/-- `operator+`: a `Stop` on either side is left out. -/
def add : Policy → Policy → Policy
  | stop, rhs => rhs
  | lhs, stop => lhs
  | lhs, rhs => parallel lhs rhs

theorem outputs_add (p q : Policy) (x : Packet) :
    (p.add q).outputs x = p.outputs x + q.outputs x := by
  unfold add
  split
  · simp [outputs]
  · simp [outputs]
  · rfl

/-- A sum built in a loop. -/
theorem outputs_foldl_add {α : Type} (f : α → Policy) (x : Packet) (l : List α) (start : Policy) :
    (l.foldl (fun sum a => sum.add (f a)) start).outputs x =
      start.outputs x + (l.map fun a => (f a).outputs x).sum := by
  induction l generalizing start with
  | nil => simp
  | cons a l ih => rw [List.foldl_cons, ih, outputs_add, List.map_cons, List.sum_cons, add_assoc]

theorem outputs_filter_sequential (f : Field) (p : Policy) (x : Packet) :
    (sequential (filter f) p).outputs x = if x.test f then p.outputs x else 0 := by
  rw [outputs, outputs]
  split <;> simp

/-- No packet function stands anywhere in the policy. -/
def FunctionFree : Policy → Prop
  | negation p => FunctionFree p
  | packetFunction _ _ => False
  | sequential p q => FunctionFree p ∧ FunctionFree q
  | parallel p q => FunctionFree p ∧ FunctionFree q
  | _ => True

/-- `P` holds of the fields of the filters and modifications outside functions. -/
def AllFields (P : Field → Prop) : Policy → Prop
  | filter f => P f
  | modify f => P f
  | negation p => AllFields P p
  | sequential p q => AllFields P p ∧ AllFields P q
  | parallel p q => AllFields P p ∧ AllFields P q
  | _ => True

end Policy

end Drunos.Retic
