/-
# Drunos.Retic.Translator — from diagrams to rules

`fdd_translator.cc`. The translator goes over a diagram with the match of the path
so far and the priorities that are left for it, and tells a `Backend` what to
install. A node and the nodes of the same mask on its negative side share one
split of the priorities: their positive sides come above it, what they all lack
comes below.
-/
import Drunos.Retic.Fdd
import Drunos.Theory.PriorityTable

namespace Drunos.Retic

open Drunos.Oxm Drunos.Theory

set_option autoImplicit false

variable [OxmTypes] {T : Type}

/-! ## The backend -/

/-- A call of the `Backend` interface that puts a rule into the table. -/
inductive BackendCall where
  | install (match' : FieldSet) (actions : List FieldSet) (prio : Nat) (settings : FlowSettings)
  | installBarrier (match' : FieldSet) (prio : Nat)

/-- The rule of the call, a barrier if it has no actions. -/
def BackendCall.rule : BackendCall → PriorityTable.Rule Packet (Option (List FieldSet))
  | install match' actions prio _ => ⟨prio, match'.test, some actions⟩
  | installBarrier match' prio => ⟨prio, match'.test, none⟩

/-- The flow table that the calls ask for. -/
def table (calls : List BackendCall) : List (PriorityTable.Rule Packet (Option (List FieldSet))) :=
  calls.map BackendCall.rule

/-! ## fdd::Translator -/

/-- What a node of `fdd::Translator` saves and restores. Every priority is a
`uint16_t`, and none is computed but by halving. -/
structure Priorities where
  prioDown : Nat := 1
  prioUp : Nat := 65535
  prioMiddle : Nat := 0
  previousMask : Option Mask := none

namespace Priorities

/-- For a node of the field: a mask other than the previous one splits what is
left. -/
def enter (s : Priorities) (field : Field) : Priorities :=
  if s.previousMask = some field.mask then s
  else
    let prioUp := if s.previousMask.isSome then s.prioMiddle else s.prioUp
    { s with
        prioUp
        prioMiddle := prioUp / 2 + s.prioDown / 2
        previousMask := some field.mask }

/-- For the positive side of a node. -/
def positive (s : Priorities) : Priorities :=
  { s with prioDown := s.prioMiddle, previousMask := none }

def localPrioUp (s : Priorities) : Nat := if s.previousMask.isSome then s.prioMiddle else s.prioUp

/-- The priority of a leaf. -/
def prio (s : Priorities) : Nat := s.prioDown / 2 + s.localPrioUp / 2

end Priorities

/-- The sets of actions, if none of the units has a packet function. -/
def Leaf.actions (l : Leaf T) : Option (List FieldSet) :=
  if l.sets.any fun unit => unit.body.isSome then none
  else some (l.sets.map ActionUnit.predActions)

def Leaf.call (l : Leaf T) (match' : FieldSet) (prio : Nat) : BackendCall :=
  match l.actions with
  | none => .installBarrier match' prio
  | some sets => .install match' sets prio l.flowSettings

/-- What a translation leaves: the diagram with the priorities it has put into the
leaves, the calls to the backend and the match. -/
structure Translated (T : Type) [OxmTypes] where
  diagram : Diagram T
  calls : List BackendCall
  match' : FieldSet

/-- `Translator::operator()`. -/
def translate : Diagram T → FieldSet → Priorities → Translated T
  | .leaf l, match', s =>
      { diagram := .leaf { l with prioUp := s.localPrioUp, prioDown := s.prioDown }
        calls := [l.call match' s.prio]
        match' }
  | .node field pos neg, match', s =>
      let negative := translate neg match' (s.enter field)
      let positive := translate pos (negative.match'.modify field) (s.enter field).positive
      { diagram := .node field positive.diagram negative.diagram
        calls := negative.calls ++ positive.calls
        match' := positive.match'.erase field.mask }

end Drunos.Retic
