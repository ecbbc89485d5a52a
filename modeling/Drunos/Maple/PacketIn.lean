/-
# Drunos.Maple.PacketIn — how maple handles a packet-in

`MapleImpl::processPacketIn`: the flow of the packet is looked up in the trace tree
or created, the tree is augmented with the packet, and the flow is installed. When
no priority is left the tree is updated and augmented once more, with the packet as
the first attempt has left it. Flow removals are not modelled: a flow that was
created stays alive.
-/
import Drunos.Maple.Backend
import Drunos.Maple.Lookup

namespace Drunos.Maple

open Drunos.Oxm Drunos.Theory

set_option autoImplicit false

variable [OxmTypes] {D : Type}

inductive FlowState
  | egg
  | active
  | evicted
  deriving DecidableEq

/-- An installer of a flow. Its node is the one the packet is led to. -/
structure Installer where
  node : Packet
  match' : FullFieldSet

def Installer.calls (r : Runtime D) (i : Installer) : List BackendCall :=
  let leaf :=
    match r.root.lookup (answers i.node) with
    | some l => (compile r.alive (.leaf l) i.match').1
    | none => []
  .barrier :: leaf ++ [.barrier]

structure PacketIn where
  packet : Packet
  /-- It was sent by the miss flow, or for want of a rule. -/
  tableMiss : Bool

def switchOf (x : Packet) : Nat := (x switchId).toNat

structure MapleState (D : Type) where
  runtime : Runtime D
  backend : Backend
  states : FlowId → FlowState
  installers : FlowId → Option Installer

namespace MapleState

variable [Decisions D]

def initial (leftPrio rightPrio : Nat) (connections : List Nat) : MapleState D where
  runtime := .initial leftPrio rightPrio
  backend := { connections := connections, missRules := [], tables := fun _ => [] }
  states := fun _ => .egg
  installers := fun _ => none

def decision (s : MapleState D) (flow : FlowId) : D := (s.runtime.flows flow).getD default

/-- `FlowImpl::activate`. A flow that is disposable only sends packets out, and one
that was evicted goes to the switch of the packet only. -/
def activate (flow : FlowId) (x : Packet) (s : MapleState D) : MapleState D :=
  let disposable := Decisions.disposable (s.decision flow)
  let installing : Installing :=
    { flow := flow
      decided := Decisions.switches (s.decision flow)
      sent := fun dpid => !disposable && (s.states flow != .evicted || dpid == switchOf x) }
  let calls :=
    match s.installers flow with
    | some i => i.calls s.runtime
    | none => []
  { s with
      backend := calls.foldl (Backend.handle (some installing)) s.backend
      states := Function.update s.states flow (if disposable then .evicted else .active) }

/-- `Runtime::augment` for a flow: what the tracer asks of the backend is done, and
the installer is kept when there is one. -/
def augment (policy : Handler D) (x : Packet) (flow : FlowId) (s : MapleState D) :
    MapleState D × Traced :=
  let (runtime, traced) := s.runtime.augment policy x flow
  ({ s with
      runtime := runtime
      backend := traced.calls.foldl (Backend.handle none) s.backend
      installers :=
        match traced.installer with
        | some m => Function.update s.installers flow (some ⟨x, m⟩)
        | none => s.installers },
    traced)

def update (s : MapleState D) : MapleState D := { s with runtime := s.runtime.update }

/-- The state with the flow of a packet, which is new when none is found. -/
def withFlow (x : Packet) (s : MapleState D) : MapleState D × FlowId :=
  let (runtime, flow) := s.runtime.flowFor x true
  ({ s with runtime := runtime }, flow)

/-- Augmenting for a flow that is not on the switches. -/
def augmentAndInstall (policy : Handler D) (x : Packet) (flow : FlowId) (s : MapleState D) :
    MapleState D :=
  let (first, traced) := s.augment policy x flow
  match traced.thrown with
  | none => first.activate flow x
  | some .inconsistentTrace => first
  | some .priorityExceeded =>
      let (second, again) := first.update.augment policy traced.packet flow
      match again.thrown with
      | none => second.activate flow x
      | some _ => second

def processPacketIn (policy : Handler D) (s : MapleState D) (pi : PacketIn) : MapleState D :=
  let (s, flow) := s.withFlow pi.packet
  match s.states flow with
  | .active =>
      if pi.tableMiss then s.activate flow pi.packet
      else
        let decision := (policy.run pi.packet).1
        { s with
            runtime :=
              { s.runtime with flows := Function.update s.runtime.flows flow (some decision) } }
  | _ => s.augmentAndInstall policy pi.packet flow

omit [Decisions D] in
theorem augment_connections (policy : Handler D) (x : Packet) (flow : FlowId) (s : MapleState D) :
    (s.augment policy x flow).1.backend.connections = s.backend.connections :=
  Backend.foldl_connections none _ _

theorem activate_connections (flow : FlowId) (x : Packet) (s : MapleState D) :
    (s.activate flow x).backend.connections = s.backend.connections :=
  Backend.foldl_connections (some _) _ _

theorem augmentAndInstall_connections (policy : Handler D) (x : Packet) (flow : FlowId)
    (s : MapleState D) :
    (s.augmentAndInstall policy x flow).backend.connections = s.backend.connections := by
  have first := augment_connections policy x flow s
  have second := augment_connections policy (s.augment policy x flow).2.packet flow
    (s.augment policy x flow).1.update
  simp only [augmentAndInstall]
  split
  · exact (activate_connections _ _ _).trans first
  · exact first
  · split
    · exact (activate_connections _ _ _).trans (second.trans first)
    · exact second.trans first

/-- The switches stay connected. -/
theorem processPacketIn_connections (policy : Handler D) (s : MapleState D) (pi : PacketIn) :
    (s.processPacketIn policy pi).backend.connections = s.backend.connections := by
  simp only [processPacketIn]
  split
  · split
    · exact activate_connections _ _ _
    · rfl
  · exact augmentAndInstall_connections _ _ _ _

/-- No priority is left when the tree is augmented with the packet. -/
def exceeds (policy : Handler D) (s : MapleState D) (pi : PacketIn) : Bool :=
  let (s, flow) := s.withFlow pi.packet
  s.states flow ≠ .active ∧
    (s.augment policy pi.packet flow).2.thrown = some .priorityExceeded

/-- The flow table of the switch a packet is on. -/
def entries (s : MapleState D) (x : Packet) : List Entry := s.backend.tables (switchOf x)

/-- The entry matches the packet on its switch, and none that does has a higher
priority. -/
def Wins (s : MapleState D) (x : Packet) (e : Entry) : Prop :=
  (e ∈ s.entries x ∧ e.match'.test x = true) ∧
    ∀ e' ∈ s.entries x, e'.match'.test x = true → e'.prio ≤ e.prio

/-- The switches give every packet to the controller or to the flow a lookup finds. -/
def Agrees (s : MapleState D) : Prop :=
  ∀ x, switchOf x ∈ s.backend.connections → ∀ e, s.Wins x e →
    e.flow = none ∨ e.flow = s.runtime.lookup x

end MapleState

end Drunos.Maple
