/-
# Drunos.Retic.Tracer — traces of packet functions

`tracer.cc` and `leaf_applier.cc`. The function of an action unit is run on a packet
behind a `TraceablePacketImpl`, after the actions of the unit; its trace is what it had
to read of the packet, and the policy it returned with its modifications put before.
The traces of all units of a leaf are merged into one, less what is known already.
-/
import Drunos.Retic.TraceTree

namespace Drunos.Retic

open Drunos.Oxm Drunos.Theory Drunos.Maple

set_option autoImplicit false

variable [OxmTypes]

/-! ## Tracing -/

/-- A run on a traceable packet: what the tracer was told, the result, and the
modifications that `ModTrackingPacket` keeps. -/
structure TracedRun (R : Type) where
  calls : List TraceCall
  result : R
  mods : FieldSet

def TracedRun.told {R : Type} (call : TraceCall) (r : TracedRun R) : TracedRun R :=
  { r with calls := call :: r.calls }

section

variable {V : Type} [PacketView V] {R : Type}

/-- The program run on a `ModTrackingPacket` over a `TraceablePacketImpl`. -/
def runTraced : Handler R → V → FieldSet → FieldSet → Option (TracedRun R)
  | .ret r, _, _, mods => some ⟨[], r, mods⟩
  | .load m next, x, cache, mods => do
      let read ← PacketView.load x m
      let unexplored := read.without (cache.load m.type m.bits).mask
      if unexplored.wildcard then runTraced (next read.value) x cache mods
      else
        let rest ← runTraced (next read.value) x (cache.modify ⟨m.type, unexplored⟩) mods
        return rest.told (.load ⟨m.type, unexplored⟩)
  | .test need next, x, cache, mods => do
      let read : MaskedBits (nbits need.type) ← PacketView.load x need.mask
      let explored := cache.load need.type need.bits.mask
      let unexplored := read.without explored.mask
      if explored.Compatible need.bits then
        if unexplored.wildcard then runTraced (next true) x cache mods
        else
          let ret := decide (unexplored.Compatible need.bits)
          let pred := need.bits.restrict unexplored.mask
          let rest ← runTraced (next ret) x
            (if ret then cache.modify ⟨need.type, unexplored⟩ else cache) mods
          return rest.told (.test ⟨need.type, pred⟩ ret)
      else runTraced (next false) x cache mods
  | .modify patch next, x, cache, mods => do
      let x ← PacketView.modify x patch
      runTraced next x (cache.modify patch) (mods.modify patch)

end

/-- `tracer::Trace`. -/
structure Trace where
  values : List TraceCall
  result : Policy

/-- `modify(mod) >> p` for each of the modifications. -/
def withMods (mods : FieldSet) (p : Policy) : Policy :=
  mods.fields.foldl (fun p mod => .sequential (.modify mod) p) p

/-- The modifications, then the program. -/
def modifying {R : Type} (fields : List Field) (h : Handler R) : Handler R :=
  fields.foldr .modify h

/-- The handler `getTraces` makes of a unit. -/
def ActionUnit.handler (unit : ActionUnit) : Handler Policy :=
  modifying unit.predActions.fields
    (match unit.body with
      | some f => f.function
      | none => .ret .id)

section

variable {V : Type} [PacketView V]

/-- `Tracer::trace`. -/
def traceUnit (x : V) (unit : ActionUnit) : Option Trace := do
  let r ← runTraced unit.handler x ∅ ∅
  return ⟨r.calls, withMods r.mods r.result⟩

def getTraces (x : V) (l : Leaf TraceTree) : Option (List Trace) := l.sets.mapM (traceUnit x)

end

/-! ## Merging -/

/-- What of the calls is not known, and what is known after them. -/
def mergeCalls : List TraceCall → FieldSet → List TraceCall
  | [], _ => []
  | .load field :: rest, cache =>
      let explored := cache.load field.type field.bits.mask
      let unexplored : Field := ⟨field.type, field.bits.without explored.mask⟩
      if unexplored.wildcard then mergeCalls rest cache
      else .load unexplored :: mergeCalls rest (cache.modify unexplored)
  | .test field result :: rest, cache =>
      let explored := cache.load field.type field.bits.mask
      let unexplored : Field := ⟨field.type, field.bits.without explored.mask⟩
      if unexplored.wildcard then mergeCalls rest cache
      else
        .test unexplored result :: mergeCalls rest
          (if result then cache.modify unexplored else cache)

/-- `mergeTrace`. -/
def mergeTrace (traces : List Trace) (cache : FieldSet) : Traversal Trace :=
  match traces with
  | [] => throw .logicError
  | first :: rest =>
      pure
        { values := mergeCalls (traces.flatMap (·.values)) cache
          result := rest.foldl (fun sum trace => sum.add trace.result) first.result }

end Drunos.Retic
