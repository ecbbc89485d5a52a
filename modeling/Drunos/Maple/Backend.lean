/-
# Drunos.Maple.Backend — the rules maple puts on switches

`MapleBackend` of `Maple.cc` turns what a trace tree asks for into flow entries on
the switches it is connected to. The switch id is no field a switch can match: it
tells on which switches an entry goes, and a test of it has no barrier rule. The
miss flow stands for the controller.

A match on `out_port`, which OpenFlow has not, throws; that is not in this model but
in the one of `Messages`. The parser gives all packets of packet-ins the port 0, so
no such match parts two of them.
-/
import Drunos.Maple.TraceTree
import Drunos.Oxm.OpenflowBasic
import Mathlib.Tactic.SplitIfs

namespace Drunos.Maple

open Drunos.Oxm Drunos.Theory

set_option autoImplicit false

/-- What maple asks of a decision: whether its packets are only sent out
(`FlowImpl::disposable`), and the switches it names, if any. -/
class Decisions (D : Type) extends Inhabited D where
  disposable : D → Bool
  switches : D → List Nat

variable [OxmTypes]

/-! ## Switches -/

/-- An entry of a flow table; one without a flow is of the miss flow. -/
structure Entry where
  prio : Nat
  match' : FieldSet
  flow : Option FlowId

/-- Some packet matches both. -/
def overlaps (a b : FieldSet) : Bool := b.fields.all fun f => (a.get f.type).Compatible f.bits

theorem overlaps_of_sameAs {a b : FieldSet} (same : a.sameAs b = true) : overlaps a b = true := by
  refine List.all_eq_true.mpr fun f mem => decide_eq_true ?_
  rw [FieldSet.get, FieldSet.entry_eq_of_sameAs same, ← FieldSet.get,
    FieldSet.get_of_entry (FieldSet.mem_fields.mp mem)]
  exact rfl

/-- The match asks for all that `m` asks for. -/
def covered (m a : FieldSet) : Bool := m.fields.all fun f => within (a.get f.type) f.bits

/-- `OFPFC_ADD` with `OFPFF_CHECK_OVERLAP`: an entry with the same match and priority
is replaced, and when another one of this priority overlaps the new one is refused. -/
def addEntry (e : Entry) (table : List Entry) : List Entry :=
  if table.any fun old =>
      old.prio = e.prio && !old.match'.sameAs e.match' && overlaps old.match' e.match' then table
  else e :: table.filter fun old => !(old.prio = e.prio && old.match'.sameAs e.match')

/-! ## MapleBackend -/

/-- A barrier rule the backend has installed: its id, and what is hashed of it. -/
structure MissRule where
  id : Nat
  prio : Nat
  included : List (List Field)
  excluded : List (List Field)
  deriving DecidableEq

def missRule (prio : Nat) (m : FullFieldSet) (id : Nat) : MissRule where
  id := id
  prio := prio
  included := m.included.fields.map FieldSet.fields
  excluded := m.excluded.fields.map FieldSet.fields

structure Backend where
  /-- The datapath ids of the connected switches. -/
  connections : List Nat
  missRules : List MissRule
  /-- The flow table of each switch. -/
  tables : Nat → List Entry

/-- The mask of a whole switch id. -/
abbrev switchMask : Mask := ⟨switchId, BitVec.allOnes _⟩

def switchIds (s : MultiFieldSet) : List Nat := (s.elements switchId).map fun b => b.value.toNat

/-- `compute_switches`, for a flow whose decision names the given switches. -/
def computeSwitches (connections decided : List Nat) (m : FullFieldSet) : List Nat :=
  let switches := if decided.isEmpty then connections else decided
  let included :=
    if (switchIds m.included).isEmpty then switches
    else switches.filter (· ∈ switchIds m.included)
  included.filter (· ∉ switchIds m.excluded)

namespace Backend

/-- `install`, for a flow that is not sent to some of the switches. -/
def install (prio : Nat) (m : FullFieldSet) (flow : Option FlowId) (decided : List Nat)
    (sent : Nat → Bool) (b : Backend) : Backend :=
  { b with
      tables := fun dpid =>
        if dpid ∈ computeSwitches b.connections decided m ∧ sent dpid = true then
          (m.erase switchMask).included.fields.foldl
            (fun table match' => addEntry ⟨prio, match', flow⟩ table) (b.tables dpid)
        else b.tables dpid }

/-- `barrier_rule`: a rule for the miss flow, unless it is there already. -/
def barrierRule (prio : Nat) (m : FullFieldSet) (test : Field) (id : Nat) (b : Backend) : Backend :=
  if test.type = switchId then b
  else if missRule prio m id ∈ b.missRules then b
  else
    install prio m none [] (fun _ => true)
      { b with missRules := missRule prio m id :: b.missRules }

/-- `remove`, on all switches or on the one that is matched. -/
def remove (m : FieldSet) (b : Backend) : Backend :=
  let dpid := m.get switchId
  { b with
      missRules := []
      tables := fun id =>
        if dpid.wildcard ∨ dpid.value.toNat = id then
          (b.tables id).filter fun e => !covered (m.erase switchMask) e.match'
        else b.tables id }

end Backend

/-- The flow being installed (`installTrigger`): the switches its decision names,
and those it is sent to. -/
structure Installing where
  flow : FlowId
  decided : List Nat
  sent : Nat → Bool

/-- What the backend does for a call. -/
def Backend.handle (trigger : Option Installing) (b : Backend) : BackendCall → Backend
  | .install prio m flow =>
      match trigger with
      | some i => if i.flow = flow then b.install prio m (some flow) i.decided i.sent else b
      | none => b
  | .barrierRule prio m test id => b.barrierRule prio m test id
  | .barrier => b
  | .remove m => b.remove m

/-- The connections stay. -/
theorem Backend.handle_connections (trigger : Option Installing) (b : Backend) (call : BackendCall) :
    (b.handle trigger call).connections = b.connections := by
  cases call with
  | install prio m flow =>
      cases trigger with
      | none => rfl
      | some i =>
          show Backend.connections (if _ then _ else _) = _
          split <;> rfl
  | barrierRule prio m test id =>
      show (b.barrierRule prio m test id).connections = _
      rw [Backend.barrierRule]
      split_ifs <;> rfl
  | barrier => rfl
  | remove m => rfl

theorem Backend.foldl_connections (trigger : Option Installing) :
    ∀ (calls : List BackendCall) (b : Backend),
      (calls.foldl (Backend.handle trigger) b).connections = b.connections
  | [], _ => rfl
  | call :: calls, b =>
      (foldl_connections trigger calls (b.handle trigger call)).trans (b.handle_connections trigger call)

end Drunos.Maple
