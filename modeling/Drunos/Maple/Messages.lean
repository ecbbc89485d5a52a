/-
# Drunos.Maple.Messages — what maple sends to the switches

`FlowImpl` remembers for each switch the packet-in that it has to answer. It answers with
a `PacketOut`, or with the buffer id of a `FlowMod`, when it is installed on that switch.
Here `MapleImpl` handles packet-ins down to the messages, and to the exceptions: of a
decision that is undefined, and of `FluidOXMAdapter` for a field in a match or in the
modifications that OpenFlow has not.

Executed by the switches, the messages make the flow tables of `MapleState`: as long as
steps end without an exception, they are steps of `MapleState` (`processPacketIn_shows`),
and the tables agree with the trace tree (`messages_agree`). So it is when the policy asks
for fields that a match may have (`Matchable`) and puts in fields that OpenFlow has.
-/
import Drunos.Maple.Decision
import Drunos.Maple.Installed

namespace Drunos.Maple

open Drunos.Oxm Drunos.Theory Drunos.Theory.Run

set_option autoImplicit false

/-! ## How a call ends -/

inductive Ending where
  | done
  /-- By an exception, which the controller catches and logs. -/
  | thrown
  /-- A null pointer was followed. -/
  | crashed
  deriving DecidableEq

/-- The state that a call leaves. -/
structure Outcome (σ : Type) where
  state : σ
  ending : Ending

namespace Outcome

variable {σ α : Type}

def done (s : σ) : Outcome σ := ⟨s, .done⟩

def thrown (s : σ) : Outcome σ := ⟨s, .thrown⟩

def crashed (s : σ) : Outcome σ := ⟨s, .crashed⟩

def andThen (o : Outcome σ) (next : σ → Outcome σ) : Outcome σ :=
  match o.ending with
  | .done => next o.state
  | _ => o

/-- One call after the other, until one does not return. -/
def each (call : α → σ → Outcome σ) : List α → σ → Outcome σ
  | [], s => done s
  | a :: as, s => (call a s).andThen (each call as)

/-- How many of the calls return. -/
def returned (call : α → σ → Outcome σ) : List α → σ → Nat
  | [], _ => 0
  | a :: as, s =>
      match (call a s).ending with
      | .done => returned call as (call a s).state + 1
      | _ => 0

@[simp] theorem done_state (s : σ) : (done s).state = s := rfl

@[simp] theorem done_ending (s : σ) : (done s).ending = .done := rfl

@[simp] theorem done_andThen (s : σ) (next : σ → Outcome σ) : (done s).andThen next = next s := rfl

theorem andThen_keeps (I : σ → Prop) {o : Outcome σ} {next : σ → Outcome σ} (inv : I o.state)
    (kept : ∀ s, I s → I (next s).state) : I (o.andThen next).state := by
  rw [andThen]
  split
  · exact kept _ inv
  · exact inv

/-- What each call keeps is kept. -/
theorem each_keeps {call : α → σ → Outcome σ} (I : σ → Prop) {as : List α}
    (kept : ∀ a ∈ as, ∀ s, I s → I (call a s).state) : ∀ {s : σ}, I s → I (each call as s).state := by
  induction as with
  | nil => exact fun inv => inv
  | cons a as ih =>
      intro s inv
      obtain ⟨first, rest⟩ := List.forall_mem_cons.mp kept
      exact andThen_keeps I (first s inv) fun _ inv => ih rest inv

theorem andThen_done {o : Outcome σ} {next : σ → Outcome σ} :
    (o.andThen next).ending = .done ↔ o.ending = .done ∧ (next o.state).ending = .done := by
  unfold andThen
  cases ended : o.ending <;> simp [ended]

theorem andThen_state {o : Outcome σ} {next : σ → Outcome σ} (ended : o.ending = .done) :
    o.andThen next = next o.state := by
  rw [andThen, ended]

end Outcome

section

variable [OxmTypes] {H : Type}

/-! ## Messages -/

/-- `OFP_NO_BUFFER` -/
def noBuffer : BitVec 32 := 0xffffffff

namespace Ports

/-- `OFPP_CONTROLLER` -/
def controller : BitVec 32 := 0xfffffffd

/-- `OFPP_FLOOD` -/
def flood : BitVec 32 := 0xfffffffb

end Ports

/-- `of13::FlowMod` with `OFPFC_ADD`, `OFPFF_CHECK_OVERLAP` and `OFPFF_SEND_FLOW_REM`. -/
structure FlowMod where
  /-- `none` where it was never written. -/
  xid : Option (BitVec 32)
  bufferId : BitVec 32
  tableId : Nat
  priority : Nat
  /-- The flow that has the cookie, or the miss flow. -/
  flow : Option FlowId
  match' : FieldSet
  idleTimeout : Nat
  hardTimeout : Nat
  applyActions : List Action

/-- `of13::PacketOut`. -/
structure PacketOut where
  xid : Option (BitVec 32)
  bufferId : BitVec 32
  inPort : BitVec 32
  actions : List Action
  /-- The packet-in that the data is of. -/
  data : Option Nat

inductive Message where
  | flowMod (mod : FlowMod)
  | packetOut (out : PacketOut)
  /-- `OFPFC_DELETE` of all cookies of flows. -/
  | delete (match' : FieldSet)
  | barrierRequest

/-! ## FlowImpl -/

/-- `FlowImpl::SwitchInfo`. -/
structure SwitchInfo where
  packetIn : Bool := false
  bufferId : BitVec 32 := noBuffer
  inPort : BitVec 32 := Ports.controller
  /-- Not initialised by the constructor. -/
  xid : Option (BitVec 32) := none
  packetData : Option Nat := none

/-- `DecisionCompiler`. `none` is `unhandled_packet`. -/
def DecisionData.compile (dpid : Nat) (ret : List Action) : DecisionData H → Option (List Action)
  | undefined => none
  | drop => some ret
  | unicast port => some (ret ++ [.output port 0])
  | multicast ports => some (ret ++ ports.ports.map fun port => .output port 0)
  | broadcast => some (ret ++ [.output Ports.flood 0])
  | inspect sendBytesLen _ => some (ret ++ [.output Ports.controller sendBytesLen])
  | custom body => some (body.apply ret dpid)

/-- `FlowImpl::actions`. `FluidOXMAdapter` throws for modifications that OpenFlow has not. -/
def Decision.actions (mods : FieldSet) (dpid : Nat) (d : Decision H) : Option (List Action) :=
  if convertible mods then d.data.compile dpid (mods.fields.map .setField) else none

/-- The seconds a `FlowMod` has for a timeout. -/
def Duration.seconds (d : Duration) : Nat := if d = Duration.max then 0 else min d.val 65535

instance : Decisions (Decision H) where
  default := {}
  disposable d := d.base.idleTimeout = 0
  switches d :=
    match d.data with
    | .custom body => body.switches
    | _ => []

/-- The decision is not undefined, and it names connected switches only. -/
structure Decision.Installable (connections : List Nat) (d : Decision H) : Prop where
  defined : d.data.isUndefined = false
  connected : ∀ dpid ∈ Decisions.switches d, dpid ∈ connections

/-- What a flow is installed with on a switch. -/
structure Order (H : Type) where
  tableId : Nat
  priority : Nat
  flow : Option FlowId
  match' : FieldSet
  dpid : Nat
  decision : Decision H
  mods : FieldSet

def Order.actions (order : Order H) : Option (List Action) :=
  order.decision.actions order.mods order.dpid

namespace SwitchInfo

/-- The `PacketOut` for the packet-in. -/
def out (scope : SwitchInfo) (actions : List Action) : PacketOut where
  xid := scope.xid
  bufferId := scope.bufferId
  inPort := scope.inPort
  actions := actions
  data := if scope.bufferId = noBuffer then scope.packetData else none

/-- The `FlowMod` of an order. -/
def mod (order : Order H) (scope : SwitchInfo) (actions : List Action) : FlowMod where
  xid := scope.xid
  bufferId := scope.bufferId
  tableId := order.tableId
  priority := order.priority
  flow := order.flow
  match' := order.match'
  idleTimeout := order.decision.base.idleTimeout.seconds
  hardTimeout := order.decision.base.hardTimeout.seconds
  applyActions := actions

/-- `FlowImpl::packet_out`. -/
def packetOut (order : Order H) (s : SwitchInfo × List Message) : Outcome (SwitchInfo × List Message) :=
  let (scope, sent) := s
  if scope.packetIn then
    match order.actions with
    | some actions =>
        .done ({ scope with packetData := none }, sent ++ [.packetOut (scope.out actions)])
    | none => .thrown s
  else .done s

/-- `FlowImpl::flow_mod`. `make_of_match` throws for a match that OpenFlow has not. -/
def flowMod (order : Order H) (s : SwitchInfo × List Message) : Outcome (SwitchInfo × List Message) :=
  let (scope, sent) := s
  if convertible order.match' then
    match order.actions with
    | some actions => .done (scope, sent ++ [.flowMod (scope.mod order actions)])
    | none => .thrown s
  else .thrown s

/-- What `FlowImpl::install` sends. -/
def send (order : Order H) (scope : SwitchInfo) : Outcome (SwitchInfo × List Message) :=
  if Decisions.disposable order.decision then packetOut order (scope, [])
  else
    (if scope.packetIn ∧ scope.bufferId = noBuffer then packetOut order (scope, [])
      else .done (scope, [])).andThen (flowMod order)

/-- `FlowImpl::install`, for a flow that is in the given state. -/
def install (state : FlowState) (order : Order H) (scope : SwitchInfo) :
    Outcome (SwitchInfo × List Message) :=
  if state = .evicted ∧ scope.packetIn = false then .done (scope, [])
  else
    (send order scope).andThen fun (scope, sent) =>
      .done
        ({ scope with
            packetIn := false
            xid := some 0
            bufferId := noBuffer
            inPort := Ports.controller },
          sent)

end SwitchInfo

structure FlowImpl where
  state : FlowState := .egg
  installTrigger : Bool := false
  installer : Option Installer := none
  mods : FieldSet := ∅
  /-- An entry that `m_switches` does not have yet is the one that is made for it. -/
  switches : Nat → SwitchInfo := fun _ => {}

/-! ## MapleImpl -/

/-- A `of13::PacketIn`, and what comes of it. -/
structure Arrival extends PacketIn where
  xid : BitVec 32
  bufferId : BitVec 32
  inPort : BitVec 32
  /-- Which one it is; its data is freed afterwards. -/
  number : Nat
  /-- The handler of the flow takes it, if the flow inspects its packets. -/
  inspected : Bool := false
  /-- The modifications that `ModTrackingPacket` has seen. -/
  mods : FieldSet := ∅

structure MapleImpl (H : Type) where
  runtime : Runtime (Decision H)
  connections : List Nat
  table : Nat := 0
  missRules : List MissRule := []
  /-- The miss flow is at `none`. -/
  flows : Option FlowId → FlowImpl := fun _ => {}
  /-- The messages to each switch so far. -/
  sent : List (Nat × Message) := []

namespace MapleImpl

variable [Inhabited H]

def initial (leftPrio rightPrio : Nat) (connections : List Nat) : MapleImpl H where
  runtime := .initial leftPrio rightPrio
  connections := connections

/-- Of the miss flow packets are sent to the controller. -/
def decision (flow : Option FlowId) (w : MapleImpl H) : Decision H :=
  match flow with
  | none => { data := .inspect 128 default }
  | some flow => (w.runtime.flows flow).getD default

def setFlow (flow : Option FlowId) (f : FlowImpl) (w : MapleImpl H) : MapleImpl H :=
  { w with flows := Function.update w.flows flow f }

omit [Inhabited H] in
@[simp] theorem setFlow_flows (flow g : Option FlowId) (f : FlowImpl) (w : MapleImpl H) :
    (w.setFlow flow f).flows g = if g = flow then f else w.flows g := Function.update_apply ..

@[simp] theorem setFlow_decision (flow g : Option FlowId) (f : FlowImpl) (w : MapleImpl H) :
    (w.setFlow flow f).decision g = w.decision g := rfl

def trigger (on : Bool) (flow : Option FlowId) (w : MapleImpl H) : MapleImpl H :=
  w.setFlow flow { w.flows flow with installTrigger := on }

def order (prio : Nat) (flow : Option FlowId) (target : Nat × FieldSet) (w : MapleImpl H) : Order H where
  tableId := w.table
  priority := prio
  flow := flow
  match' := target.2
  dpid := target.1
  decision := w.decision flow
  mods := (w.flows flow).mods

/-- `FlowImpl::install` on a switch that the backend looks up. -/
def installOn (prio : Nat) (flow : Option FlowId) (target : Nat × FieldSet) (w : MapleImpl H) :
    Outcome (MapleImpl H) :=
  if target.1 ∈ w.connections then
    let f := w.flows flow
    let o := (f.switches target.1).install f.state (w.order prio flow target)
    { state :=
        { w.setFlow flow { f with switches := Function.update f.switches target.1 o.state.1 } with
            sent := w.sent ++ o.state.2.map fun message => (target.1, message) }
      ending := o.ending }
  else .crashed w

/-- The switches a rule goes to, in order, each with the matches. -/
def targets (m : FullFieldSet) (flow : Option FlowId) (w : MapleImpl H) : List (Nat × FieldSet) :=
  let switches := computeSwitches w.connections (Decisions.switches (w.decision flow)) m
  (switches.dedup.insertionSort (· ≤ ·)).flatMap fun dpid =>
    (m.erase switchMask).included.fields.map fun match' => (dpid, match')

/-- `MapleBackend::install` -/
def install (prio : Nat) (m : FullFieldSet) (flow : Option FlowId) (w : MapleImpl H) :
    Outcome (MapleImpl H) :=
  if (w.flows flow).installTrigger then Outcome.each (installOn prio flow) (w.targets m flow) w
  else .done w

/-- `MapleBackend::barrier_rule` -/
def barrierRule (prio : Nat) (m : FullFieldSet) (test : Field) (id : Nat) (w : MapleImpl H) :
    Outcome (MapleImpl H) :=
  if test.type = switchId then .done w
  else if w.missRules.contains (missRule prio m id) then .done w
  else
    ((trigger true none { w with missRules := missRule prio m id :: w.missRules }).install prio m
      none).andThen fun w => .done (w.trigger false none)

def sendAll (message : Message) (w : MapleImpl H) : MapleImpl H :=
  { w with sent := w.sent ++ w.connections.map fun dpid => (dpid, message) }

/-- `MapleBackend::remove` of what a match covers. -/
def remove (m : FieldSet) (w : MapleImpl H) : Outcome (MapleImpl H) :=
  let dpid := m.get switchId
  let message := Message.delete (m.erase switchMask)
  let w := { w with missRules := [] }
  if convertible (m.erase switchMask) = false then .thrown w
  else if dpid.wildcard then .done (w.sendAll message)
  else if dpid.value.toNat ∈ w.connections then
    .done { w with sent := w.sent ++ [(dpid.value.toNat, message)] }
  else .crashed w

def handle (call : BackendCall) (w : MapleImpl H) : Outcome (MapleImpl H) :=
  match call with
  | .install prio m flow => w.install prio m (some flow)
  | .barrierRule prio m test id => w.barrierRule prio m test id
  | .barrier => .done (w.sendAll .barrierRequest)
  | .remove m => w.remove m

/-- `FlowImpl::activate` -/
def activate (flow : FlowId) (w : MapleImpl H) : Outcome (MapleImpl H) :=
  let w := w.trigger true (some flow)
  match (w.flows (some flow)).installer with
  | none => .thrown w
  | some i =>
      (Outcome.each handle (i.calls w.runtime) w).andThen fun w =>
        let state := if Decisions.disposable (w.decision (some flow)) then .evicted else .active
        .done (w.setFlow (some flow) { w.flows (some flow) with state := state, installTrigger := false })

/-- `Runtime::augment`; the installer is kept when there is one. A barrier rule that throws ends the
policy. -/
def augment (policy : Handler (Decision H)) (x : Packet) (flow : FlowId) (w : MapleImpl H) :
    Outcome (MapleImpl H) × Traced :=
  let (runtime, traced) := w.runtime.augment policy x flow
  let begun := { w with runtime := runtime }
  let asked := Outcome.each handle traced.calls begun
  let keep (w : MapleImpl H) : MapleImpl H :=
    match traced.installer with
    | some m => w.setFlow (some flow) { w.flows (some flow) with installer := some ⟨x, m⟩ }
    | none => w
  let left (w' : MapleImpl H) : MapleImpl H :=
    { w' with
        runtime := w.runtime.interrupt policy x (Outcome.returned handle traced.calls begun) }
  (match asked.ending with
    | .done => .done (keep asked.state)
    | ending => ⟨left asked.state, ending⟩,
    traced)

def update (w : MapleImpl H) : MapleImpl H := { w with runtime := w.runtime.update }

/-- The flow of a packet, which is new when none is found. -/
def withFlow (x : Packet) (w : MapleImpl H) : MapleImpl H × FlowId :=
  match w.runtime.lookup x with
  | some flow => (w, flow)
  | none =>
      let (runtime, flow) := w.runtime.newFlow
      ({ w with runtime := runtime, flows := Function.update w.flows (some flow) {} }, flow)

/-- `FlowImpl::packet_in` -/
def arrive (flow : FlowId) (e : Arrival) (w : MapleImpl H) : MapleImpl H :=
  let f := w.flows (some flow)
  let scope : SwitchInfo :=
    { packetIn := true
      bufferId := e.bufferId
      inPort := e.inPort
      xid := some e.xid
      packetData := some e.number }
  w.setFlow (some flow) { f with switches := Function.update f.switches (switchOf e.packet) scope }

/-- `FlowImpl::mods`, and `activate`. -/
def modify (flow : FlowId) (mods : FieldSet) (w : MapleImpl H) : MapleImpl H :=
  w.setFlow (some flow) { w.flows (some flow) with mods := mods }

/-- Augmenting for a flow that is not on the switches. -/
def augmentAndInstall (policy : Handler (Decision H)) (e : Arrival) (flow : FlowId)
    (w : MapleImpl H) : Outcome (MapleImpl H) :=
  let (first, traced) := w.augment policy e.packet flow
  first.andThen fun w =>
    match traced.thrown with
    | none => (w.modify flow e.mods).activate flow
    | some .inconsistentTrace => .thrown w
    | some .priorityExceeded =>
        let (second, again) := w.update.augment policy traced.packet flow
        second.andThen fun w =>
          match again.thrown with
          | none => (w.modify flow e.mods).activate flow
          | some _ => .thrown w

/-- The flow inspects the packet itself (`FlowImpl::preprocess`). -/
def preprocess (flow : FlowId) (e : Arrival) (w : MapleImpl H) : Bool :=
  match (w.decision (some flow)).data with
  | .inspect _ _ => e.inspected
  | _ => false

def processPacketIn (policy : Handler (Decision H)) (w : MapleImpl H) (e : Arrival) :
    Outcome (MapleImpl H) :=
  let (w, flow) := w.withFlow e.packet
  if w.preprocess flow e then .done w
  else
    let w := w.arrive flow e
    match (w.flows (some flow)).state with
    | .active =>
        if e.tableMiss then w.activate flow
        else
          let decision := (policy.run e.packet).1
          .done
            { w with
                runtime :=
                  { w.runtime with flows := Function.update w.runtime.flows flow (some decision) } }
    | _ => w.augmentAndInstall policy e flow

def step (policy : Handler (Decision H)) (w : MapleImpl H) (e : Arrival) : MapleImpl H :=
  (w.processPacketIn policy e).state

end MapleImpl

/-! ## What can be sent -/

/-- A match may ask for it: OpenFlow has it, or it is the switch. -/
def Matchable (t : OxmType) : Prop := openflow t = true ∨ t = switchId

/-- The match asks for fields of these types only. -/
def Asks (types : OxmType → Prop) (m : FullFieldSet) : Prop :=
  ∀ t, m.included.elements t ≠ [] → types t

section

variable {types : OxmType → Prop} {m : FullFieldSet} {f : Field}

theorem Asks.add (asks : Asks types m) (allowed : types f.type) : Asks types (m.add f) := by
  intro t some
  by_cases own : t = f.type
  · exact own ▸ allowed
  · exact asks t (by rwa [← MultiFieldSet.elements_add_of_ne m.included own])

theorem Asks.exclude (asks : Asks types m) : Asks types (m.exclude f) := asks

/-- Every match that is picked of it can be sent, but for the switch. -/
theorem Asks.convertible (asks : Asks Matchable m) {fs : FieldSet}
    (picked : fs ∈ (m.erase switchMask).included.fields) : convertible fs = true := by
  refine List.all_eq_true.mpr fun f mem => ?_
  have some : (m.erase switchMask).included.elements f.type ≠ [] :=
    MultiFieldSet.fields_entry picked (by rw [FieldSet.mem_fields.mp mem]; rfl)
  have other : f.type ≠ switchId := by
    intro own
    rw [own] at some
    exact some (MultiFieldSet.elements_erase_self m.included rfl)
  rw [show (m.erase switchMask).included.elements f.type = m.included.elements f.type from
    MultiFieldSet.elements_erase_of_ne m.included other] at some
  exact (asks f.type some).resolve_right other

end

/-- The match of the call can be sent. -/
def BackendCall.Sendable : BackendCall → Prop
  | .install _ m _ => Asks Matchable m
  | .barrierRule _ m _ _ => Asks Matchable m
  | _ => True

/-! ## What the switches do -/

/-- What a message does to the table of maple. -/
def Message.execute (table : List Entry) : Message → List Entry
  | flowMod mod => addEntry ⟨mod.priority, mod.match', mod.flow⟩ table
  | delete match' => table.filter fun e => !covered match' e.match'
  | _ => table

namespace MapleImpl

/-- The table of a switch, which executes its messages in order. -/
def tables (w : MapleImpl H) (dpid : Nat) : List Entry :=
  ((w.sent.filter fun m => m.1 = dpid).map Prod.snd).foldl Message.execute []

/-- The state that `MapleState` has. -/
def shown (w : MapleImpl H) : MapleState (Decision H) where
  runtime := w.runtime
  backend := { connections := w.connections, missRules := w.missRules, tables := w.tables }
  states flow := (w.flows (some flow)).state
  installers flow := (w.flows (some flow)).installer

end MapleImpl

/-! ## Installing -/

section

variable {state : FlowState} {order : Order H} {scope : SwitchInfo}

namespace SwitchInfo

theorem packetOut_cases (order : Order H) (scope : SwitchInfo) (sent : List Message) :
    (scope.packetIn = false ∧ packetOut order (scope, sent) = .done (scope, sent)) ∨
      scope.packetIn = true ∧
        ((∃ actions, order.actions = some actions ∧ packetOut order (scope, sent) =
            .done ({ scope with packetData := none }, sent ++ [.packetOut (scope.out actions)])) ∨
          packetOut order (scope, sent) = .thrown (scope, sent)) := by
  cases packetIn : scope.packetIn with
  | false => exact .inl ⟨rfl, by simp [packetOut, packetIn]⟩
  | true =>
      refine .inr ⟨rfl, ?_⟩
      cases acts : order.actions with
      | none => exact .inr (by simp [packetOut, packetIn, acts])
      | some actions => exact .inl ⟨actions, rfl, by simp [packetOut, packetIn, acts]⟩

theorem flowMod_cases (order : Order H) (scope : SwitchInfo) (sent : List Message) :
    (∃ actions, order.actions = some actions ∧ flowMod order (scope, sent) =
        .done (scope, sent ++ [.flowMod (scope.mod order actions)])) ∨
      flowMod order (scope, sent) = .thrown (scope, sent) := by
  by_cases takes : convertible order.match' = true
  · cases acts : order.actions with
    | none => exact .inr (by simp [flowMod, takes, acts])
    | some actions => exact .inl ⟨actions, rfl, by simp [flowMod, takes, acts]⟩
  · exact .inr (by simp [flowMod, takes])

/-- An answer to the packet-in, if there is one and the rule does not take the buffer, and then the rule,
if the flow is not disposable; or one of them throws. -/
theorem send_cases (order : Order H) (scope : SwitchInfo) :
    (∃ scope' outs mods, send order scope = .done (scope', outs ++ mods) ∧
      (if scope.packetIn ∧ (Decisions.disposable order.decision ∨ scope.bufferId = noBuffer) then
        ∃ actions, order.actions = some actions ∧ outs = [.packetOut (scope.out actions)]
      else outs = []) ∧
      if Decisions.disposable order.decision then mods = []
      else ∃ actions, order.actions = some actions ∧ mods = [.flowMod (scope.mod order actions)]) ∨
    ∃ scope' outs, send order scope = .thrown (scope', outs) ∧
      (scope'.packetIn = scope.packetIn ∧ scope'.bufferId = scope.bufferId) ∧
      (outs = [] ∨ scope.packetIn = true ∧ ∃ actions, outs = [.packetOut (scope.out actions)]) := by
  cases disposable : Decisions.disposable order.decision with
  | true =>
      simp only [send, disposable, if_true, true_or, and_true]
      rcases packetOut_cases order scope [] with ⟨none, same⟩ | ⟨some, ⟨actions, acts, same⟩ | same⟩
      · exact .inl ⟨_, [], [], same, by simp [none], rfl⟩
      · exact .inl ⟨_, _, [], by rw [same, List.append_nil, List.nil_append], by simp [some, acts], rfl⟩
      · exact .inr ⟨_, _, same, ⟨rfl, rfl⟩, .inl rfl⟩
  | false =>
      simp only [send, disposable, Bool.false_eq_true, if_false, false_or]
      by_cases unbuffered : scope.packetIn = true ∧ scope.bufferId = noBuffer
      · simp only [if_pos unbuffered]
        rcases packetOut_cases order scope [] with ⟨none, -⟩ | ⟨some, ⟨actions, acts, same⟩ | same⟩
        · exact absurd unbuffered.1 (by simp [none])
        · -- what is sent before does not change what the rule is made of
          rw [same, Outcome.done_andThen]
          rcases flowMod_cases order { scope with packetData := none }
              ([] ++ [.packetOut (scope.out actions)]) with ⟨actions', acts', told⟩ | told
          · exact .inl ⟨_, _, _, told, ⟨actions, acts, rfl⟩, actions', acts', rfl⟩
          · exact .inr ⟨_, _, told, ⟨rfl, rfl⟩, .inr ⟨some, actions, rfl⟩⟩
        · exact .inr ⟨_, _, by rw [same]; rfl, ⟨rfl, rfl⟩, .inl rfl⟩
      · simp only [if_neg unbuffered, Outcome.done_andThen]
        rcases flowMod_cases order scope [] with ⟨actions, acts, told⟩ | told
        · exact .inl ⟨_, [], _, told, rfl, actions, acts, rfl⟩
        · exact .inr ⟨_, _, told, ⟨rfl, rfl⟩, .inl rfl⟩

/-- What installing on a switch comes to: nothing, an answer and a rule, or an exception. -/
theorem install_cases (state : FlowState) (order : Order H) (scope : SwitchInfo) :
    (state = .evicted ∧ scope.packetIn = false ∧ scope.install state order = .done (scope, [])) ∨
      (¬(state = .evicted ∧ scope.packetIn = false) ∧
        ∃ scope' outs mods, scope.install state order = .done (scope', outs ++ mods) ∧
          (scope'.packetIn = false ∧ scope'.bufferId = noBuffer) ∧
          (if scope.packetIn ∧ (Decisions.disposable order.decision ∨ scope.bufferId = noBuffer) then
            ∃ actions, order.actions = some actions ∧ outs = [.packetOut (scope.out actions)]
          else outs = []) ∧
          if Decisions.disposable order.decision then mods = []
          else ∃ actions, order.actions = some actions ∧ mods = [.flowMod (scope.mod order actions)]) ∨
      ∃ scope' outs, scope.install state order = .thrown (scope', outs) ∧
        (scope'.packetIn = scope.packetIn ∧ scope'.bufferId = scope.bufferId) ∧
        (outs = [] ∨ scope.packetIn = true ∧ ∃ actions, outs = [.packetOut (scope.out actions)]) := by
  by_cases idle : state = .evicted ∧ scope.packetIn = false
  · exact .inl ⟨idle.1, idle.2, if_pos idle⟩
  · right
    rw [install, if_neg idle]
    rcases send_cases order scope with ⟨scope', outs, mods, same, out, mod⟩ | ⟨scope', outs, same, kept, out⟩
    · rw [same, Outcome.done_andThen]
      exact .inl ⟨idle, _, outs, mods, rfl, ⟨rfl, rfl⟩, out, mod⟩
    · exact .inr ⟨scope', outs, by rw [same]; rfl, kept, out⟩

end SwitchInfo

/-- A switch is told to add the rule, unless the flow is disposable. -/
theorem SwitchInfo.install_executes (done : (scope.install state order).ending = .done)
    (runs : state ≠ .evicted ∨ Decisions.disposable order.decision = true) (table : List Entry) :
    (scope.install state order).state.2.foldl Message.execute table =
      if Decisions.disposable order.decision then table
      else addEntry ⟨order.priority, order.match', order.flow⟩ table := by
  rcases install_cases state order scope with
    ⟨evicted, -, same⟩ | ⟨-, scope', outs, mods, same, -, out, mod⟩ | ⟨scope', outs, same, -⟩
  · rw [same, if_pos (runs.resolve_left fun others => others evicted)]
    rfl
  · have silent : outs.foldl Message.execute table = table := by
      split at out
      · obtain ⟨actions, -, rfl⟩ := out
        rfl
      · rw [out]
        rfl
    rw [same, Outcome.done_state, List.foldl_append, silent]
    split at mod
    · rw [if_pos ‹_›, mod]
      rfl
    · obtain ⟨actions, -, rfl⟩ := mod
      rw [if_neg ‹_›]
      rfl
  · rw [same] at done
    cases done

/-- Only an undefined decision is not handled, and only fields that OpenFlow has not cannot be sent. -/
theorem SwitchInfo.install_done (order : Order H) (defined : order.decision.data.isUndefined = false)
    (mods : convertible order.mods = true) (match' : convertible order.match' = true)
    (state : FlowState) (scope : SwitchInfo) : (scope.install state order).ending = .done := by
  obtain ⟨actions, acts⟩ : ∃ actions, order.actions = some actions := by
    rw [Order.actions, Decision.actions, if_pos mods]
    cases data : order.decision.data <;> simp_all [DecisionData.compile, DecisionData.isUndefined]
  have out (s : SwitchInfo × List Message) : (packetOut order s).ending = .done := by
    rw [packetOut]
    split <;> simp [acts]
  have mod (s : SwitchInfo × List Message) : (flowMod order s).ending = .done := by
    simp [flowMod, match', acts]
  have sends : (send order scope).ending = .done := by
    rw [send]
    split
    · exact out _
    · refine Outcome.andThen_done.mpr ⟨?_, mod _⟩
      split
      · exact out _
      · rfl
  rw [install]
  split
  · rfl
  · exact Outcome.andThen_done.mpr ⟨sends, rfl⟩

end

namespace MapleImpl

variable [Inhabited H] {w w' w'' : MapleImpl H} {flow : Option FlowId} {prio : Nat}

/-- Nothing has changed but what the flows know of switches, and the messages. -/
structure Frame (w w' : MapleImpl H) : Prop where
  runtime : w'.runtime = w.runtime
  connections : w'.connections = w.connections
  table : w'.table = w.table
  state : ∀ f, (w'.flows f).state = (w.flows f).state
  installTrigger : ∀ f, (w'.flows f).installTrigger = (w.flows f).installTrigger
  installer : ∀ f, (w'.flows f).installer = (w.flows f).installer
  mods : ∀ f, (w'.flows f).mods = (w.flows f).mods

omit [Inhabited H] in
theorem Frame.refl (w : MapleImpl H) : Frame w w :=
  ⟨rfl, rfl, rfl, fun _ => rfl, fun _ => rfl, fun _ => rfl, fun _ => rfl⟩

omit [Inhabited H] in
theorem Frame.trans (first : Frame w w') (second : Frame w' w'') : Frame w w'' where
  runtime := second.runtime.trans first.runtime
  connections := second.connections.trans first.connections
  table := second.table.trans first.table
  state f := (second.state f).trans (first.state f)
  installTrigger f := (second.installTrigger f).trans (first.installTrigger f)
  installer f := (second.installer f).trans (first.installer f)
  mods f := (second.mods f).trans (first.mods f)

theorem Frame.decision (frame : Frame w w') (f : Option FlowId) : w'.decision f = w.decision f := by
  cases f with
  | none => rfl
  | some flow => simp [MapleImpl.decision, frame.runtime]

/-- Installing on a connected switch. -/
theorem installOn_spec (prio : Nat) (flow : Option FlowId) (target : Nat × FieldSet) (w : MapleImpl H) :
    w.installOn prio flow target = .crashed w ∨
      ∃ o, ((w.flows flow).switches target.1).install (w.flows flow).state (w.order prio flow target) = o ∧
        w.installOn prio flow target =
          { state :=
              { w.setFlow flow
                  { w.flows flow with
                      switches := Function.update (w.flows flow).switches target.1 o.state.1 } with
                  sent := w.sent ++ o.state.2.map fun message => (target.1, message) }
            ending := o.ending } := by
  by_cases connected : target.1 ∈ w.connections
  · exact .inr ⟨_, rfl, if_pos connected⟩
  · exact .inl (if_neg connected)

omit [Inhabited H] in
theorem frame_switches (flow : Option FlowId) (switches : Nat → SwitchInfo) (sent : List (Nat × Message))
    (w : MapleImpl H) :
    Frame w { w.setFlow flow { w.flows flow with switches := switches } with sent := sent } where
  runtime := rfl
  connections := rfl
  table := rfl
  state f := by by_cases own : f = flow <;> simp [setFlow, own]
  installTrigger f := by by_cases own : f = flow <;> simp [setFlow, own]
  installer f := by by_cases own : f = flow <;> simp [setFlow, own]
  mods f := by by_cases own : f = flow <;> simp [setFlow, own]

theorem installOn_frame (prio : Nat) (flow : Option FlowId) (target : Nat × FieldSet) (w : MapleImpl H) :
    Frame w (w.installOn prio flow target).state := by
  rcases installOn_spec prio flow target w with same | ⟨o, -, same⟩
  · rw [same]
    exact .refl w
  · rw [same]
    exact frame_switches flow _ _ w

omit [Inhabited H] in
theorem tables_append {messages : List (Nat × Message)} (sent : w'.sent = w.sent ++ messages) (dpid : Nat) :
    w'.tables dpid =
      ((messages.filter fun m => m.1 = dpid).map Prod.snd).foldl Message.execute (w.tables dpid) := by
  simp [tables, sent]

omit [Inhabited H] in
theorem to_one (messages : List Message) (d dpid : Nat) :
    ((messages.map fun message => (d, message)).filter fun m => m.1 = dpid).map Prod.snd =
      if dpid = d then messages else [] := by
  by_cases here : dpid = d
  · simp [here, List.filter_map, Function.comp_def]
  · simp [here, Ne.symm here, List.filter_map, Function.comp_def]

theorem installOn_tables {target : Nat × FieldSet}
    (done : (w.installOn prio flow target).ending = .done)
    (runs : (w.flows flow).state ≠ .evicted ∨ Decisions.disposable (w.decision flow) = true) (dpid : Nat) :
    (w.installOn prio flow target).state.tables dpid =
      if dpid = target.1 ∧ Decisions.disposable (w.decision flow) = false then
        addEntry ⟨prio, target.2, flow⟩ (w.tables dpid)
      else w.tables dpid := by
  rcases installOn_spec prio flow target w with same | ⟨o, ran, same⟩
  · rw [same] at done
    cases done
  · rw [same] at done ⊢
    rw [tables_append (w := w) rfl, to_one]
    subst ran
    by_cases here : dpid = target.1
    · rw [if_pos here, SwitchInfo.install_executes done runs]
      cases disposable : Decisions.disposable (w.decision flow) <;> simp [order, disposable, here]
    · simp [here]

/-- A flow that is not disposable is added on the switches in turn. -/
theorem each_installOn_tables {targets : List (Nat × FieldSet)}
    (done : (Outcome.each (installOn prio flow) targets w).ending = .done)
    (runs : (w.flows flow).state ≠ .evicted ∨ Decisions.disposable (w.decision flow) = true) (dpid : Nat) :
    (Outcome.each (installOn prio flow) targets w).state.tables dpid =
      if Decisions.disposable (w.decision flow) then w.tables dpid
      else (targets.filter fun t => t.1 = dpid).foldl (fun table t => addEntry ⟨prio, t.2, flow⟩ table)
        (w.tables dpid) := by
  induction targets generalizing w with
  | nil => simp [Outcome.each, Outcome.done]
  | cons target targets ih =>
      obtain ⟨first, rest⟩ := Outcome.andThen_done.mp done
      have frame := installOn_frame prio flow target w
      rw [Outcome.each, Outcome.andThen_state first, ih rest (by rwa [frame.state, frame.decision]),
        installOn_tables first runs, frame.decision]
      cases disposable : Decisions.disposable (w.decision flow) with
      | true => simp
      | false =>
          by_cases here : target.1 = dpid
          · simp [here]
          · simp [here, Ne.symm here]

theorem install_frame (prio : Nat) (m : FullFieldSet) (flow : Option FlowId) (w : MapleImpl H) :
    Frame w (w.install prio m flow).state := by
  rw [install]
  split
  · exact Outcome.each_keeps (Frame w ·) (fun target _ w' frame => frame.trans (installOn_frame ..)) (.refl w)
  · exact .refl w

theorem install_missRules (prio : Nat) (m : FullFieldSet) (flow : Option FlowId) (w : MapleImpl H) :
    (w.install prio m flow).state.missRules = w.missRules := by
  rw [install]
  split
  · refine Outcome.each_keeps (fun w' : MapleImpl H => w'.missRules = w.missRules) (fun target _ w' same => ?_) rfl
    rcases installOn_spec prio flow target w' with stays | ⟨o, -, goes⟩
    · rw [stays]
      exact same
    · rw [goes]
      exact same
  · rfl

omit [Inhabited H] in
theorem flatMap_at {switches : List Nat} (nodup : switches.Nodup) (fields : List FieldSet) (dpid : Nat) :
    (switches.flatMap fun d => fields.map fun match' => (d, match')).filter (fun t => t.1 = dpid) =
      if dpid ∈ switches then fields.map fun match' => (dpid, match') else [] := by
  induction switches with
  | nil => rfl
  | cons d switches ih =>
      obtain ⟨new, nodup⟩ := List.nodup_cons.mp nodup
      rw [List.flatMap_cons, List.filter_append, ih nodup]
      by_cases here : d = dpid
      · subst here
        simp [new, List.filter_map, Function.comp_def]
      · simp [here, Ne.symm here, List.filter_map, Function.comp_def]

theorem targets_at (m : FullFieldSet) (flow : Option FlowId) (w : MapleImpl H) (dpid : Nat) :
    (w.targets m flow).filter (fun t => t.1 = dpid) =
      if dpid ∈ computeSwitches w.connections (Decisions.switches (w.decision flow)) m then
        (m.erase switchMask).included.fields.map fun match' => (dpid, match')
      else [] := by
  have nodup := (List.perm_insertionSort (· ≤ ·)
    (computeSwitches w.connections (Decisions.switches (w.decision flow)) m).dedup).nodup_iff.mpr
      (List.nodup_dedup _)
  rw [targets, flatMap_at nodup]
  simp only [(List.perm_insertionSort _ _).mem_iff, List.mem_dedup]

/-- **Installing tells the switches to do what `Backend.install` does.** -/
theorem install_shows {m : FullFieldSet} (sent : Nat → Bool)
    (done : (w.install prio m flow).ending = .done) (on : (w.flows flow).installTrigger = true)
    (runs : (w.flows flow).state ≠ .evicted ∨ Decisions.disposable (w.decision flow) = true)
    (sends : ∀ dpid, sent dpid = !Decisions.disposable (w.decision flow)) :
    (w.install prio m flow).state.shown.backend =
      w.shown.backend.install prio m flow (Decisions.switches (w.decision flow)) sent := by
  have frame := install_frame prio m flow w
  have tables : (w.install prio m flow).state.tables =
      (w.shown.backend.install prio m flow (Decisions.switches (w.decision flow)) sent).tables := by
    funext dpid
    rw [install, if_pos on] at done ⊢
    rw [each_installOn_tables done runs, targets_at]
    show _ = if dpid ∈ computeSwitches w.connections _ m ∧ sent dpid = true then _ else w.tables dpid
    rw [sends]
    cases disposable : Decisions.disposable (w.decision flow) with
    | true => simp
    | false =>
        by_cases goes : dpid ∈ computeSwitches w.connections (Decisions.switches (w.decision flow)) m
        · simp only [goes, if_true, Bool.not_false, and_self, if_false, Bool.false_eq_true,
            List.foldl_map]
          rfl
        · simp [goes]
  simp only [shown, frame.connections, install_missRules, tables]
  rfl

theorem each_installOn_done {targets : List (Nat × FieldSet)}
    (sendable : ∀ target ∈ targets, target.1 ∈ w.connections ∧ convertible target.2 = true)
    (defined : (w.decision flow).data.isUndefined = false) (mods : convertible (w.flows flow).mods = true) :
    (Outcome.each (installOn prio flow) targets w).ending = .done := by
  induction targets generalizing w with
  | nil => rfl
  | cons target targets ih =>
      obtain ⟨⟨here, takes⟩, later⟩ := List.forall_mem_cons.mp sendable
      have frame := installOn_frame prio flow target w
      have first : (w.installOn prio flow target).ending = .done := by
        rw [installOn, if_pos here]
        exact SwitchInfo.install_done (w.order prio flow target) defined mods takes _ _
      refine Outcome.andThen_done.mpr ⟨first, ih ?_ ?_ ?_⟩
      · rw [frame.connections]
        exact later
      · rw [frame.decision]
        exact defined
      · rw [frame.mods]
        exact mods

/-- A rule whose match has only fields that a match may have is installed, if the decision can be and
the modifications are of fields that OpenFlow has. -/
theorem install_done {m : FullFieldSet} (matchable : Asks Matchable m)
    (installable : (w.decision flow).Installable w.connections)
    (mods : convertible (w.flows flow).mods = true) : (w.install prio m flow).ending = .done := by
  rw [install]
  split
  · refine each_installOn_done (fun target mem => ?_) installable.defined mods
    obtain ⟨dpid, goes, fields⟩ := List.mem_flatMap.mp mem
    obtain ⟨match', picked, rfl⟩ := List.mem_map.mp fields
    refine ⟨?_, matchable.convertible picked⟩
    rw [(List.perm_insertionSort _ _).mem_iff, List.mem_dedup, computeSwitches] at goes
    have goes := List.mem_of_mem_filter goes
    have among : dpid ∈ if (Decisions.switches (w.decision flow)).isEmpty then w.connections
        else Decisions.switches (w.decision flow) := by
      split at goes
      · exact goes
      · exact List.mem_of_mem_filter goes
    split at among
    · exact among
    · exact installable.connected dpid among
  · rfl

/-! ## The calls of the backend -/

/-- Just the given flow is being installed. -/
structure Triggered (installing : Option Installing) (w : MapleImpl H) : Prop where
  flows : ∀ flow, (w.flows (some flow)).installTrigger = true ↔ ∃ i, installing = some i ∧ i.flow = flow
  miss : (w.flows none).installTrigger = false
  missState : (w.flows none).state = .egg
  mods : ∀ f, convertible (w.flows f).mods = true
  decided : ∀ i, installing = some i →
    i.decided = Decisions.switches (w.decision (some i.flow)) ∧
      (∀ dpid, i.sent dpid = !Decisions.disposable (w.decision (some i.flow))) ∧
      ((w.flows (some i.flow)).state ≠ .evicted ∨
        Decisions.disposable (w.decision (some i.flow)) = true)

theorem Triggered.frame {installing : Option Installing} (triggered : Triggered installing w)
    (frame : Frame w w') : Triggered installing w' where
  flows flow := by rw [frame.installTrigger]; exact triggered.flows flow
  miss := (frame.installTrigger none).trans triggered.miss
  missState := (frame.state none).trans triggered.missState
  mods f := by rw [frame.mods]; exact triggered.mods f
  decided i given := by
    rw [frame.decision, frame.state]
    exact triggered.decided i given

section

variable (on : Bool) (flow f : Option FlowId) (w : MapleImpl H)

omit [Inhabited H]

@[simp] theorem trigger_state : ((w.trigger on flow).flows f).state = (w.flows f).state := by
  by_cases own : f = flow <;> simp [trigger, setFlow, own]

@[simp] theorem trigger_installer : ((w.trigger on flow).flows f).installer = (w.flows f).installer := by
  by_cases own : f = flow <;> simp [trigger, setFlow, own]

@[simp] theorem trigger_mods : ((w.trigger on flow).flows f).mods = (w.flows f).mods := by
  by_cases own : f = flow <;> simp [trigger, setFlow, own]

@[simp] theorem trigger_switches : ((w.trigger on flow).flows f).switches = (w.flows f).switches := by
  by_cases own : f = flow <;> simp [trigger, setFlow, own]

@[simp] theorem trigger_installTrigger :
    ((w.trigger on flow).flows f).installTrigger =
      if f = flow then on else (w.flows f).installTrigger := by
  by_cases own : f = flow <;> simp [trigger, setFlow, own]

end

/-- A barrier rule is installed, if its match can be sent. -/
theorem barrierRule_shows {installing : Option Installing} (triggered : Triggered installing w)
    (prio : Nat) {m : FullFieldSet} (test : Field) (id : Nat) (matchable : Asks Matchable m) :
    let o := w.barrierRule prio m test id
    o.ending = .done ∧ Frame w o.state ∧
      o.state.shown.backend = w.shown.backend.barrierRule prio m test id := by
  simp only [barrierRule, Backend.barrierRule, List.contains_iff_mem]
  by_cases switch : test.type = switchId
  · simp only [if_pos switch]
    exact ⟨rfl, .refl w, rfl⟩
  · by_cases held : missRule prio m id ∈ w.missRules
    · simp only [if_neg switch, if_pos held]
      exact ⟨rfl, .refl w, (if_pos held).symm⟩
    · simp only [if_neg switch, if_neg held]
      set started : MapleImpl H :=
        trigger true none { w with missRules := missRule prio m id :: w.missRules } with begins
      have on : (started.flows none).installTrigger = true := by simp [begins]
      have idle : (started.flows none).state ≠ .evicted := by simp [begins, triggered.missState]
      have done : (started.install prio m none).ending = .done :=
        install_done matchable ⟨rfl, fun _ mem => absurd mem List.not_mem_nil⟩
          (by simpa [begins] using triggered.mods none)
      have shows_ := install_shows (fun _ => true) done on (.inl idle) fun _ => by
        simp [MapleImpl.decision, Decisions.disposable, Duration.max]
      have frame := install_frame prio m none started
      rw [Outcome.andThen_state done]
      refine ⟨rfl, ?_, ?_⟩
      · exact {
          runtime := frame.runtime
          connections := frame.connections
          table := frame.table
          state := fun f => by rw [Outcome.done, trigger_state, frame.state, begins, trigger_state]
          installTrigger := fun f => by
            rw [Outcome.done, trigger_installTrigger, frame.installTrigger, begins,
              trigger_installTrigger]
            split
            · rw [‹f = none›, triggered.miss]
            · rfl
          installer := fun f => by
            rw [Outcome.done, trigger_installer, frame.installer, begins, trigger_installer]
          mods := fun f => by rw [Outcome.done, trigger_mods, frame.mods, begins, trigger_mods] }
      · exact shows_.trans (if_neg held).symm

omit [Inhabited H] in
theorem barrier_frame (w : MapleImpl H) :
    Frame w (w.sendAll .barrierRequest) ∧ (w.sendAll .barrierRequest).shown.backend = w.shown.backend := by
  refine ⟨⟨rfl, rfl, rfl, fun _ => rfl, fun _ => rfl, fun _ => rfl, fun _ => rfl⟩, ?_⟩
  have same : (w.sendAll .barrierRequest).tables = w.tables := by
    funext dpid
    rw [tables_append (w := w) rfl]
    induction w.connections with
    | nil => rfl
    | cons d connections ih =>
        by_cases here : d = dpid
        · simpa [here, Message.execute] using ih
        · simpa [here] using ih
  simp only [shown, same]
  rfl

/-- The call does to the switches what `Backend.handle` does. -/
theorem handle_shows {installing : Option Installing} {call : BackendCall}
    (triggered : Triggered installing w) (keeps : ∀ m, call ≠ .remove m) (sendable : call.Sendable)
    (done : (w.handle call).ending = .done) :
    Frame w (w.handle call).state ∧
      (w.handle call).state.shown.backend = w.shown.backend.handle installing call := by
  cases call with
  | install prio m flow =>
      refine ⟨install_frame .., ?_⟩
      by_cases on : (w.flows (some flow)).installTrigger = true
      · obtain ⟨i, rfl, rfl⟩ := (triggered.flows flow).mp on
        obtain ⟨decided, sends, runs⟩ := triggered.decided i rfl
        rw [handle, install_shows i.sent done on runs sends, ← decided]
        exact (if_pos rfl).symm
      · have others : w.shown.backend.handle installing (.install prio m flow) = w.shown.backend := by
          cases installing with
          | none => rfl
          | some i => exact if_neg fun own => on ((triggered.flows flow).mpr ⟨i, rfl, own⟩)
        rw [others, handle, install, if_neg on]
        rfl
  | barrierRule prio m test id => exact (barrierRule_shows triggered prio test id sendable).2
  | barrier => exact barrier_frame w
  | remove m => exact absurd rfl (keeps m)

/-- So do calls one after the other. -/
theorem each_handle_shows {installing : Option Installing} {calls : List BackendCall}
    (triggered : Triggered installing w) (keeps : ∀ m, BackendCall.remove m ∉ calls)
    (sendable : ∀ call ∈ calls, call.Sendable)
    (done : (Outcome.each handle calls w).ending = .done) :
    Frame w (Outcome.each handle calls w).state ∧
      (Outcome.each handle calls w).state.shown.backend =
        calls.foldl (Backend.handle installing) w.shown.backend := by
  induction calls generalizing w with
  | nil => exact ⟨.refl w, rfl⟩
  | cons call calls ih =>
      obtain ⟨first, rest⟩ := Outcome.andThen_done.mp done
      obtain ⟨sends, sendsLater⟩ := List.forall_mem_cons.mp sendable
      obtain ⟨frame, backend⟩ := handle_shows triggered
        (fun m same => keeps m (same ▸ List.mem_cons_self)) sends first
      obtain ⟨later, backends⟩ := ih (triggered.frame frame)
        (fun m mem => keeps m (List.mem_cons_of_mem _ mem)) sendsLater rest
      rw [Outcome.each, Outcome.andThen_state first, List.foldl_cons, ← backend]
      exact ⟨frame.trans later, backends⟩

/-- The calls return, if their matches can be sent and the flows of their rules may be installed. -/
theorem each_handle_done {installing : Option Installing} {calls : List BackendCall}
    (triggered : Triggered installing w) (keeps : ∀ m, BackendCall.remove m ∉ calls)
    (sendable : ∀ call ∈ calls, call.Sendable)
    (installable : ∀ i, installing = some i → (w.decision (some i.flow)).Installable w.connections) :
    (Outcome.each handle calls w).ending = .done := by
  induction calls generalizing w with
  | nil => rfl
  | cons call calls ih =>
      obtain ⟨sends, sendsLater⟩ := List.forall_mem_cons.mp sendable
      have first : (w.handle call).ending = .done := by
        cases call with
        | install prio m flow =>
            by_cases on : (w.flows (some flow)).installTrigger = true
            · obtain ⟨i, given, rfl⟩ := (triggered.flows flow).mp on
              exact install_done sends (installable i given) (triggered.mods _)
            · rw [handle, install, if_neg on]
              rfl
        | barrierRule prio m test id => exact (barrierRule_shows triggered prio test id sends).1
        | barrier => rfl
        | remove m => exact absurd List.mem_cons_self (keeps m)
      obtain ⟨frame, -⟩ := handle_shows triggered
        (fun m same => keeps m (same ▸ List.mem_cons_self)) sends first
      refine Outcome.andThen_done.mpr ⟨first, ih (triggered.frame frame)
        (fun m mem => keeps m (List.mem_cons_of_mem _ mem)) sendsLater fun i given => ?_⟩
      rw [frame.decision, frame.connections]
      exact installable i given

theorem each_handle_runs {installing : Option Installing} (calls : List BackendCall)
    (triggered : Triggered installing w) (keeps : ∀ m, BackendCall.remove m ∉ calls)
    (sendable : ∀ call ∈ calls, call.Sendable)
    (installable : ∀ i, installing = some i → (w.decision (some i.flow)).Installable w.connections) :
    ∃ w', Outcome.each handle calls w = .done w' ∧ Frame w w' ∧
      w'.shown.backend = calls.foldl (Backend.handle installing) w.shown.backend := by
  have done := each_handle_done triggered keeps sendable installable
  refine ⟨_, ?_, each_handle_shows triggered keeps sendable done⟩
  generalize Outcome.each handle calls w = o at *
  obtain ⟨state, ending⟩ := o
  cases done
  rfl

/-! ## Handling a packet-in -/

/-- No flow is being installed. One that is active can be installed again, one that was evicted is
disposable, and one that is not created yet has never been installed. What flows have can be sent. -/
structure Idle (w : MapleImpl H) : Prop where
  triggers : ∀ f, (w.flows f).installTrigger = false
  missState : (w.flows none).state = .egg
  active : ∀ flow, (w.flows (some flow)).state = .active →
    (w.flows (some flow)).installer.isSome = true
  evicted : ∀ flow, (w.flows (some flow)).state = .evicted →
    Decisions.disposable (w.decision (some flow)) = true
  unborn : ∀ flow, w.runtime.nextFlow ≤ flow →
    (w.flows (some flow)).state = .egg ∧ (w.flows (some flow)).installer = none
  mods : ∀ f, convertible (w.flows f).mods = true
  sendable : ∀ f i, (w.flows f).installer = some i → Asks Matchable i.match'

theorem idle_initial (left right : Nat) (connections : List Nat) :
    Idle (initial left right connections : MapleImpl H) where
  triggers _ := rfl
  missState := rfl
  active _ state := nomatch state
  evicted _ state := nomatch state
  unborn _ _ := ⟨rfl, rfl⟩
  mods _ := rfl
  sendable _ _ none := nomatch none

theorem Idle.triggered (idle : Idle w) : Triggered none w where
  flows flow := by simp [idle.triggers]
  miss := idle.triggers none
  missState := idle.missState
  mods := idle.mods
  decided _ none := nomatch none

omit [Inhabited H] in
theorem calls_keep (r : Runtime (Decision H)) (i : Installer) (m : FieldSet) :
    BackendCall.remove m ∉ i.calls r := by
  rw [Installer.calls]
  cases r.root.lookup (answers i.node) with
  | none => simp
  | some l =>
      simp only [compile]
      split <;> simp

omit [Inhabited H] in
theorem calls_sendable (r : Runtime (Decision H)) {i : Installer} (asks : Asks Matchable i.match') :
    ∀ call ∈ i.calls r, call.Sendable := by
  rw [Installer.calls]
  cases r.root.lookup (answers i.node) with
  | none => simp [BackendCall.Sendable]
  | some l =>
      simp only [compile]
      split <;> simp [BackendCall.Sendable, asks]

/-- **Activating a flow does to the switches what `MapleState.activate` does.** -/
theorem activate_shows {flow : FlowId} (idle : Idle w) (x : Packet) {i : Installer}
    (held : (w.flows (some flow)).installer = some i)
    (installable : (w.decision (some flow)).Installable w.connections)
    (created : flow < w.runtime.nextFlow) :
    (w.activate flow).ending = .done ∧ Idle (w.activate flow).state ∧
      (w.activate flow).state.shown = w.shown.activate flow x := by
  have triggered : Triggered
      (some { flow := flow
              decided := Decisions.switches (w.decision (some flow))
              sent := fun dpid => !Decisions.disposable (w.decision (some flow)) &&
                ((w.flows (some flow)).state != .evicted || dpid == switchOf x) })
      (w.trigger true (some flow)) := by
    refine ⟨fun f => ?_, ?_, ?_, fun f => ?_, ?_⟩
    · by_cases own : f = flow
      · simp [own]
      · simp [own, Ne.symm own, idle.triggers]
    · simp [idle.triggers]
    · simp [idle.missState]
    · rw [trigger_mods]
      exact idle.mods f
    · rintro i' given
      obtain rfl := Option.some.inj given
      refine ⟨rfl, fun dpid => ?_, ?_⟩
      · show (!Decisions.disposable (w.decision (some flow)) && _) =
          !Decisions.disposable (w.decision (some flow))
        by_cases evicted : (w.flows (some flow)).state = .evicted
        · simp [idle.evicted flow evicted]
        · simp [evicted]
      · rw [trigger_state]
        exact (em _).symm.imp_right (idle.evicted flow)
  obtain ⟨w₂, runs, frame, backend⟩ := each_handle_runs _ triggered (calls_keep w.runtime i)
    (calls_sendable w.runtime (idle.sendable _ i held)) (by
    rintro i' given
    obtain rfl := Option.some.inj given
    exact installable)
  have decision (f : Option FlowId) : w₂.decision f = w.decision f := frame.decision f
  have ended : w.activate flow = .done (w₂.setFlow (some flow)
      { w₂.flows (some flow) with
          state := if Decisions.disposable (w.decision (some flow)) then .evicted else .active
          installTrigger := false }) := by
    have kept : ((w.trigger true (some flow)).flows (some flow)).installer = some i := by simp [held]
    simp only [activate, kept]
    rw [show (w.trigger true (some flow)).runtime = w.runtime from rfl, runs, Outcome.done_andThen,
      decision]
  rw [ended]
  refine ⟨rfl, ⟨fun f => ?_, ?_, fun f => ?_, fun f => ?_, fun f above => ?_, fun f => ?_, fun f => ?_⟩, ?_⟩
  · rw [Outcome.done_state, setFlow_flows]
    split
    · rfl
    · rw [frame.installTrigger, trigger_installTrigger, if_neg ‹_›, idle.triggers]
  · rw [Outcome.done_state, setFlow_flows, if_neg (by simp), frame.state, trigger_state, idle.missState]
  · rw [Outcome.done_state, setFlow_flows]
    split
    · simp [frame.installer, held]
    · rw [frame.state, frame.installer, trigger_state, trigger_installer]
      exact idle.active f
  · rw [Outcome.done_state, setFlow_flows, setFlow_decision, decision]
    split
    · rename_i own
      obtain rfl := Option.some.inj own
      intro evicted
      by_contra lasting
      simp [lasting] at evicted
    · rw [frame.state, trigger_state]
      exact idle.evicted f
  · have above : w.runtime.nextFlow ≤ f := frame.runtime ▸ above
    have other : some f ≠ some flow := fun own =>
      Nat.ne_of_gt (Nat.lt_of_lt_of_le created above) (Option.some.inj own)
    rw [Outcome.done_state, setFlow_flows, if_neg other, frame.state, frame.installer, trigger_state,
      trigger_installer]
    exact idle.unborn f above
  · have kept : (w₂.flows f).mods = (w.flows f).mods := by rw [frame.mods, trigger_mods]
    rw [Outcome.done_state, setFlow_flows]
    split
    · rw [← ‹f = some flow›, kept]
      exact idle.mods f
    · rw [kept]
      exact idle.mods f
  · have kept : (w₂.flows f).installer = (w.flows f).installer := by
      rw [frame.installer, trigger_installer]
    rw [Outcome.done_state, setFlow_flows]
    split
    · rw [← ‹f = some flow›, kept]
      exact idle.sendable f
    · rw [kept]
      exact idle.sendable f
  · have held' : w.shown.installers flow = some i := held
    have states : (fun f => ((w₂.setFlow (some flow)
        { w₂.flows (some flow) with
            state := if Decisions.disposable (w.decision (some flow)) then .evicted else .active
            installTrigger := false }).flows (some f)).state) =
        Function.update w.shown.states flow
          (if Decisions.disposable (w.decision (some flow)) then .evicted else .active) := by
      funext f
      by_cases own : f = flow
      · simp [own]
      · simp [own, frame.state, shown]
    have installers : (fun f => ((w₂.setFlow (some flow)
        { w₂.flows (some flow) with
            state := if Decisions.disposable (w.decision (some flow)) then .evicted else .active
            installTrigger := false }).flows (some f)).installer) = w.shown.installers := by
      funext f
      by_cases own : f = flow
      · simp [own, frame.installer, shown]
      · simp [own, frame.installer, shown]
    have backends : w₂.shown.backend = (w.shown.activate flow x).backend := by
      rw [backend, MapleState.activate]
      simp only [held']
      rfl
    have runtime : w₂.runtime = w.runtime := frame.runtime
    refine (congr (congr (congr (congrArg MapleState.mk runtime) backends) states) installers).trans ?_
    rfl

omit [Inhabited H] in
theorem asks_nothing {types : OxmType → Prop} :
    (∀ call ∈ ([] : List BackendCall), ∃ prio m test n, call = .barrierRule prio m test n ∧ Asks types m) ∧
      ∀ m, none = some m → Asks types m :=
  ⟨fun _ mem => absurd mem List.not_mem_nil, fun m none => absurd none.symm (Option.some_ne_none m)⟩

omit [Inhabited H] in
/-- A tracer asks for barrier rules only. Their matches, and the one of the installer, ask for what the
policy has asked for. -/
theorem trace_asks (types : OxmType → Prop) (flow : FlowId) (last : Packet)
    (calls : List (TraceCall × Packet)) : ∀ (c : Cursor) (id : Nat) (node : Node),
      (∀ call ∈ calls, types call.1.field.type) → Asks types c.match' →
        (∀ call ∈ (trace flow last calls c id node).calls,
          ∃ prio m test n, call = .barrierRule prio m test n ∧ Asks types m) ∧
        ∀ m, (trace flow last calls c id node).installer = some m → Asks types m := by
  induction calls with
  | nil =>
      intro c id node _ asks
      rw [trace]
      cases node with
      | unexplored =>
          rw [finish]
          split
          · exact asks_nothing
          · exact ⟨asks_nothing.1, fun m own => Option.some.inj own ▸ asks⟩
      | leaf l => exact ⟨asks_nothing.1, fun m own => Option.some.inj own ▸ asks⟩
      | test need info pos neg => exact asks_nothing
      | load mask cases => exact asks_nothing
  | cons call calls ih =>
      intro c id node told asks
      obtain ⟨allowed, later⟩ := List.forall_mem_cons.mp told
      obtain ⟨call, y⟩ := call
      cases call with
      | load data =>
          have next (node : Node) := ih (c.load data) id node later (asks.add allowed)
          cases node with
          | unexplored => exact next _
          | leaf l => exact asks_nothing
          | test need info pos neg => exact asks_nothing
          | load mask cases =>
              rw [trace]
              split
              · exact next _
              · exact asks_nothing
      | test pred ret =>
          have next (prio id : Nat) (node : Node) := ih (c.test pred ret prio) id node later (by
            cases ret with
            | true => exact asks.add allowed
            | false => exact asks.exclude)
          cases node with
          | leaf l => exact asks_nothing
          | load mask cases => exact asks_nothing
          | unexplored =>
              rw [trace]
              split
              · exact asks_nothing
              · obtain ⟨rules, installer⟩ := next c.middle (id + 1) .unexplored
                refine ⟨fun call mem => ?_, installer⟩
                rcases List.mem_cons.mp mem with rfl | later
                · exact ⟨_, _, _, _, rfl, asks.add allowed⟩
                · exact rules call later
          | test need info pos neg =>
              rw [trace]
              split
              · exact next _ _ _
              · exact asks_nothing

omit [Inhabited H] in
/-- A policy tells a tracer of the fields it asks for. -/
theorem traceable_reads {types : OxmType → Prop} {R : Type} (h : Handler R) : ∀ {x : Packet}
    {cache : FieldSet}, h.Reads types → ∀ c ∈ (traceable h x cache).calls, types c.1.field.type := by
  induction h with
  | ret r => exact fun _ c mem => absurd mem List.not_mem_nil
  | modify patch next ih => exact fun reads => ih reads
  | load m next ih =>
      rintro x cache ⟨allowed, reads⟩
      rw [traceable]
      split
      · exact ih _ (reads _)
      · exact List.forall_mem_cons.mpr ⟨allowed, ih _ (reads _)⟩
  | test need next ih =>
      rintro x cache ⟨allowed, reads⟩
      rw [traceable]
      split
      · split
        · exact ih _ (reads _)
        · exact List.forall_mem_cons.mpr ⟨allowed, ih _ (reads _)⟩
      · exact ih _ (reads _)

omit [Inhabited H] in
/-- What augmenting asks the backend for can be sent, if the policy asks for what a match may have. -/
theorem augment_sendable {policy : Handler (Decision H)} (reads : policy.Reads Matchable) (x : Packet)
    (flow : FlowId) (r : Runtime (Decision H)) :
    (∀ call ∈ (r.augment policy x flow).2.calls, call.Sendable) ∧
      (∀ m, BackendCall.remove m ∉ (r.augment policy x flow).2.calls) ∧
      ∀ m, (r.augment policy x flow).2.installer = some m → Asks Matchable m := by
  obtain ⟨rules, installer⟩ := trace_asks Matchable flow (traceable policy x ∅).packet
    (traceable policy x ∅).calls r.cursor r.nextId r.root (traceable_reads policy reads)
    fun _ none => absurd rfl none
  refine ⟨fun call mem => ?_, fun m mem => ?_, installer⟩
  · obtain ⟨prio, m, test, n, rfl, asks⟩ := rules call mem
    exact asks
  · obtain ⟨_, _, _, _, rule, -⟩ := rules _ mem
    cases rule

omit [Inhabited H] in
/-- What augmenting decides, it decides on its flow. -/
theorem augment_flows (policy : Handler (Decision H)) (x : Packet) (flow : FlowId)
    (r : Runtime (Decision H)) (f : FlowId) :
    (r.augment policy x flow).1.flows f = r.flows f ∨
      (f = flow ∧ (r.augment policy x flow).1.flows f = some (policy.run x).1) := by
  have decision : (traceable policy x ∅).result = (policy.run x).1 := by
    rw [← traceable_run policy (FieldSet.apply_empty x)]
  simp only [Runtime.augment]
  split
  · by_cases own : f = flow
    · exact .inr ⟨own, by simp [own, decision]⟩
    · exact .inl (Function.update_of_ne own _ _)
  · exact .inl rfl

/-- **Augmenting does to the switches what `MapleState.augment` does.** -/
theorem augment_shows {policy : Handler (Decision H)} (reads : policy.Reads Matchable) {x : Packet}
    {flow : FlowId} (idle : Idle w) (created : flow < w.runtime.nextFlow)
    (stays : (w.flows (some flow)).state = .evicted → w.decision (some flow) = (policy.run x).1) :
    ∃ w', (w.augment policy x flow).1 = .done w' ∧ Idle w' ∧
      w'.shown = (w.shown.augment policy x flow).1 := by
  have triggered : Triggered none { w with runtime := (w.runtime.augment policy x flow).1 } :=
    ⟨idle.triggered.flows, idle.triggered.miss, idle.missState, idle.mods, fun _ none => nomatch none⟩
  obtain ⟨sendable, keeps, installed⟩ := augment_sendable reads x flow w.runtime
  obtain ⟨w₁, runs, frame, backend⟩ := each_handle_runs
    (w.runtime.augment policy x flow).2.calls triggered keeps sendable fun _ none => nomatch none
  have evicted (f : FlowId) (state : (w₁.flows (some f)).state = .evicted) :
      Decisions.disposable (w₁.decision (some f)) = true := by
    rw [frame.state] at state
    have before := idle.evicted f state
    rw [frame.decision]
    rcases augment_flows policy x flow w.runtime f with same | ⟨rfl, decided⟩
    · rwa [MapleImpl.decision, same]
    · rw [stays state] at before
      rwa [MapleImpl.decision, decided]
  have active (f : FlowId) (state : (w₁.flows (some f)).state = .active) :
      (w₁.flows (some f)).installer.isSome = true := by
    rw [frame.installer]
    exact idle.active f ((frame.state (some f)).symm.trans state)
  have unborn (f : FlowId) (above : w₁.runtime.nextFlow ≤ f) :
      f ≠ flow ∧ (w₁.flows (some f)).state = .egg ∧ (w₁.flows (some f)).installer = none := by
    have above : w.runtime.nextFlow ≤ f := by
      rw [frame.runtime] at above
      exact above
    rw [frame.state, frame.installer]
    exact ⟨Nat.ne_of_gt (Nat.lt_of_lt_of_le created above), idle.unborn f above⟩
  have triggers (f : Option FlowId) : (w₁.flows f).installTrigger = false :=
    (frame.installTrigger f).trans (idle.triggers f)
  have mods (f : Option FlowId) : convertible (w₁.flows f).mods = true := frame.mods f ▸ idle.mods f
  have sendable (f : Option FlowId) (i : Installer) (held : (w₁.flows f).installer = some i) :
      Asks Matchable i.match' := idle.sendable f i ((frame.installer f).symm.trans held)
  have missState : (w₁.flows none).state = .egg := (frame.state none).trans idle.missState
  have runtime : w₁.runtime = (w.runtime.augment policy x flow).1 := frame.runtime
  have shown : w₁.shown = { w.shown with
      runtime := (w.runtime.augment policy x flow).1
      backend := (w.runtime.augment policy x flow).2.calls.foldl (Backend.handle none) w.shown.backend } := by
    refine congr (congr (congr (congrArg MapleState.mk runtime) backend) ?_) ?_
    · funext f
      exact frame.state (some f)
    · funext f
      exact frame.installer (some f)
  cases held : (w.runtime.augment policy x flow).2.installer with
  | none =>
      refine ⟨w₁, ?_, ⟨triggers, missState, active, evicted, fun f above => (unborn f above).2, mods,
        sendable⟩, ?_⟩
      · simp only [augment, runs, Outcome.done_ending, Outcome.done_state, held]
      · rw [shown]
        simp only [MapleState.augment, show w.shown.runtime = w.runtime from rfl, held]
  | some m =>
      refine ⟨w₁.setFlow (some flow) { w₁.flows (some flow) with installer := some ⟨x, m⟩ }, ?_,
        ⟨fun f => ?_, ?_, fun f => ?_, fun f => ?_, fun f above => ?_, fun f => ?_, fun f i own => ?_⟩, ?_⟩
      · simp only [augment, runs, Outcome.done_ending, Outcome.done_state, held]
      · rw [setFlow_flows]
        split
        · exact triggers _
        · exact triggers f
      · rw [setFlow_flows, if_neg (by simp), missState]
      · rw [setFlow_flows]
        split
        · exact fun _ => rfl
        · exact active f
      · rw [setFlow_flows, setFlow_decision]
        split
        · rename_i own
          exact own ▸ evicted f
        · exact evicted f
      · obtain ⟨other, new⟩ := unborn f above
        rw [setFlow_flows, if_neg fun own => other (Option.some.inj own)]
        exact new
      · rw [setFlow_flows]
        split
        · exact mods _
        · exact mods f
      · rw [setFlow_flows] at own
        split at own
        · obtain rfl := Option.some.inj own
          exact installed m held
        · exact sendable f i own
      · have installers : (fun f => ((w₁.setFlow (some flow)
            { w₁.flows (some flow) with installer := some ⟨x, m⟩ }).flows (some f)).installer) =
              Function.update w.shown.installers flow (some ⟨x, m⟩) := by
          funext f
          by_cases own : f = flow
          · simp [own]
          · simp [own, frame.installer, MapleImpl.shown]
        have states : (fun f => ((w₁.setFlow (some flow)
            { w₁.flows (some flow) with installer := some ⟨x, m⟩ }).flows (some f)).state) =
              w.shown.states := by
          funext f
          by_cases own : f = flow
          · simp [own, frame.state, MapleImpl.shown]
          · simp [own, frame.state, MapleImpl.shown]
        simp only [MapleState.augment, show w.shown.runtime = w.runtime from rfl, held]
        exact congr (congr (congr (congrArg MapleState.mk runtime) backend) states) installers

theorem withFlow_shows (idle : Idle w) (x : Packet) :
    Idle (w.withFlow x).1 ∧ (w.withFlow x).1.shown = (w.shown.withFlow x).1 ∧
      (w.withFlow x).2 = (w.shown.withFlow x).2 ∧
      ((w.withFlow x).1 = w ∧ w.runtime.lookup x = some (w.withFlow x).2 ∨
        ((w.withFlow x).1.flows (some (w.withFlow x).2) = {} ∧
          (w.withFlow x).1.decision (some (w.withFlow x).2) = default)) := by
  cases found : w.runtime.lookup x with
  | some flow =>
      have same : w.withFlow x = (w, flow) := by simp [withFlow, found]
      have same' : w.shown.withFlow x = (w.shown, flow) := by
        simp [MapleState.withFlow, Runtime.flowFor, found, shown]
      rw [same, same']
      exact ⟨idle, rfl, rfl, .inl ⟨rfl, rfl⟩⟩
  | none =>
      have same : w.withFlow x =
          ({ w with
              runtime := w.runtime.newFlow.1
              flows := Function.update w.flows (some w.runtime.nextFlow) {} }, w.runtime.nextFlow) := by
        simp [withFlow, found, Runtime.newFlow]
      have same' : w.shown.withFlow x =
          ({ w.shown with runtime := w.runtime.newFlow.1 }, w.runtime.nextFlow) := by
        simp [MapleState.withFlow, Runtime.flowFor, found, shown, Runtime.newFlow]
      obtain ⟨state, installer⟩ := idle.unborn w.runtime.nextFlow le_rfl
      rw [same, same']
      refine ⟨⟨fun f => ?_, ?_, fun f => ?_, fun f => ?_, fun f above => ?_, fun f => ?_, fun f i => ?_⟩,
        ?_, rfl, .inr ⟨?_, ?_⟩⟩
      · by_cases own : f = some w.runtime.nextFlow
        · simp [own]
        · simp [own, idle.triggers]
      · simp [idle.missState]
      · by_cases own : f = w.runtime.nextFlow
        · simp [own]
        · simpa [own] using idle.active f
      · by_cases own : f = w.runtime.nextFlow
        · simp [own]
        · simpa [own, MapleImpl.decision, Runtime.newFlow] using idle.evicted f
      · have above : w.runtime.nextFlow + 1 ≤ f := above
        have own : f ≠ w.runtime.nextFlow := Nat.ne_of_gt above
        simpa [own] using idle.unborn f (Nat.le_of_lt above)
      · by_cases own : f = some w.runtime.nextFlow
        · simp only [own, Function.update_self]
          rfl
        · simpa [own] using idle.mods f
      · by_cases own : f = some w.runtime.nextFlow
        · simp [own]
        · simpa [own] using idle.sendable f i
      · refine congr (congrArg (MapleState.mk _ _) ?_) ?_
        · funext f
          by_cases own : f = w.runtime.nextFlow
          · simp [own, state, shown]
          · simp [own, shown]
        · funext f
          by_cases own : f = w.runtime.nextFlow
          · simp [own, installer, shown]
          · simp [own, shown]
      · simp
      · simp [MapleImpl.decision, Runtime.newFlow]

/-- Of a flow its state and its installer are shown. -/
theorem setFlow_shows {flow : FlowId} {f : FlowImpl} (state : f.state = (w.flows (some flow)).state)
    (installer : f.installer = (w.flows (some flow)).installer)
    (trigger : f.installTrigger = (w.flows (some flow)).installTrigger)
    (mods : Idle w → convertible f.mods = true) :
    (w.setFlow (some flow) f).shown = w.shown ∧ (Idle w → Idle (w.setFlow (some flow) f)) := by
  have states (g : Option FlowId) : ((w.setFlow (some flow) f).flows g).state = (w.flows g).state := by
    rw [setFlow_flows]
    split
    · rw [state, ‹g = some flow›]
    · rfl
  have installers (g : Option FlowId) :
      ((w.setFlow (some flow) f).flows g).installer = (w.flows g).installer := by
    rw [setFlow_flows]
    split
    · rw [installer, ‹g = some flow›]
    · rfl
  have triggers (g : Option FlowId) :
      ((w.setFlow (some flow) f).flows g).installTrigger = (w.flows g).installTrigger := by
    rw [setFlow_flows]
    split
    · rw [trigger, ‹g = some flow›]
    · rfl
  refine ⟨?_, fun idle => ⟨fun g => ?_, ?_, fun g => ?_, fun g => ?_, fun g above => ?_, fun g => ?_,
    fun g i held => ?_⟩⟩
  · simp only [shown, states, installers]
    rfl
  · rw [triggers, idle.triggers]
  · rw [states, idle.missState]
  · rw [states, installers]
    exact idle.active g
  · rw [states, setFlow_decision]
    exact idle.evicted g
  · rw [states, installers]
    exact idle.unborn g above
  · rw [setFlow_flows]
    split
    · exact mods idle
    · exact idle.mods g
  · rw [installers] at held
    exact idle.sendable g i held

theorem arrive_shows (flow : FlowId) (e : Arrival) (w : MapleImpl H) :
    (w.arrive flow e).shown = w.shown ∧ (Idle w → Idle (w.arrive flow e)) :=
  setFlow_shows rfl rfl rfl fun idle => idle.mods _

theorem modify_shows (flow : FlowId) {mods : FieldSet} (sends : convertible mods = true)
    (w : MapleImpl H) :
    (w.modify flow mods).shown = w.shown ∧ (Idle w → Idle (w.modify flow mods)) :=
  setFlow_shows rfl rfl rfl fun _ => sends

/-- Deciding an active flow anew. -/
theorem decide_idle (idle : Idle w) {flow : FlowId} (active : (w.flows (some flow)).state = .active)
    (d : Decision H) :
    Idle { w with runtime := { w.runtime with flows := Function.update w.runtime.flows flow (some d) } } where
  triggers := idle.triggers
  missState := idle.missState
  active := idle.active
  evicted f evicted := by
    have other : f ≠ flow := by
      rintro rfl
      rw [active] at evicted
      cases evicted
    simpa [MapleImpl.decision, other] using idle.evicted f evicted
  unborn := idle.unborn
  mods := idle.mods
  sendable := idle.sendable

/-- No priority is left for the packet, and the flow does not take it itself. -/
def exceeds (policy : Handler (Decision H)) (w : MapleImpl H) (e : Arrival) : Bool :=
  !(w.withFlow e.packet).1.preprocess (w.withFlow e.packet).2 e &&
    MapleState.exceeds policy w.shown e.toPacketIn

section

variable {policy : Handler (Decision H)} {e : Arrival}

/-- Augmenting installs the flow of the packet. -/
theorem augmentAndInstall_shows (flow : FlowId) (whole : policy.WholeFields)
    (unmasked : policy.Unmasked switchId) (reads : policy.Reads Matchable)
    (sends : convertible e.mods = true)
    (installable : ∀ x, (policy.run x).1.Installable w.connections) (idle : Idle w)
    (installed : Installed policy w.shown) (usable : Usable policy w.runtime e.packet flow)
    (same : ∀ l, w.runtime.root.lookup (answers e.packet) = some l → l.flow = flow)
    (stays : (w.flows (some flow)).state = .evicted → w.decision (some flow) = (policy.run e.packet).1)
    (fits : (w.runtime.augment policy e.packet flow).2.thrown ≠ some .priorityExceeded) :
    ∃ w', w.augmentAndInstall policy e flow = .done w' ∧ Idle w' ∧
      w'.shown = w.shown.augmentAndInstall policy e.packet flow := by
  obtain ⟨w₁, ran, idle₁, shown₁⟩ := augment_shows reads idle usable.created stays
  obtain ⟨installed₁, finished⟩ := augment_installed whole unmasked installed usable same fits
  obtain ⟨m, l, installer, leaf, own⟩ := trace_installs (traceable_told policy e.packet) finished
  obtain ⟨shown₂, idle₂⟩ := modify_shows flow sends w₁
  rw [shown₁] at shown₂
  have runtime : (w₁.modify flow e.mods).runtime = (w.runtime.augment policy e.packet flow).1 :=
    congrArg MapleState.runtime shown₂
  have held : ((w₁.modify flow e.mods).flows (some flow)).installer = some ⟨e.packet, m⟩ := by
    have kept : (w₁.modify flow e.mods).shown.installers flow =
        (w.shown.augment policy e.packet flow).1.installers flow :=
      congrFun (congrArg MapleState.installers shown₂) flow
    refine kept.trans ?_
    rw [MapleState.augment]
    simp only [show (w.shown.runtime.augment policy e.packet flow).2.installer = some m from installer,
      Function.update_self]
  have decision : (w₁.modify flow e.mods).decision (some flow) = (policy.run e.packet).1 := by
    have found : (w.runtime.augment policy e.packet flow).1.lookup e.packet = some flow :=
      own ▸ installed₁.lookup leaf
    rw [MapleImpl.decision, runtime]
    exact congrArg (Option.getD · default) (installed₁.sound.lookup found)
  have connections : (w₁.modify flow e.mods).connections = w.connections :=
    (congrArg (fun s => s.backend.connections) shown₂).trans
      (MapleState.augment_connections policy e.packet flow w.shown)
  have created : flow < (w₁.modify flow e.mods).runtime.nextFlow := by
    rw [runtime]
    exact usable.created
  obtain ⟨done, idle₃, shown₃⟩ := activate_shows (idle₂ idle₁) e.packet held
    (by rw [decision, connections]; exact installable e.packet) created
  refine ⟨_, ?_, idle₃, ?_⟩
  · have thrown : (w.augment policy e.packet flow).2.thrown = none := finished
    simp only [augmentAndInstall, ran, Outcome.done_andThen, thrown]
    generalize (w₁.modify flow e.mods).activate flow = o at *
    obtain ⟨state, ending⟩ := o
    cases done
    rfl
  · rw [shown₃, shown₂]
    simp only [MapleState.augmentAndInstall, finished]

/-- Handling a packet-in of a flow. -/
theorem processPacketIn_eq {w₁ : MapleImpl H} {flow : FlowId} (ran : w.withFlow e.packet = (w₁, flow)) :
    w.processPacketIn policy e =
      if w₁.preprocess flow e then .done w₁
      else
        match (w₁.flows (some flow)).state with
        | .active =>
            if e.tableMiss then (w₁.arrive flow e).activate flow
            else .done
              { w₁.arrive flow e with
                  runtime :=
                    { w₁.runtime with
                        flows := Function.update w₁.runtime.flows flow (some (policy.run e.packet).1) } }
        | _ => (w₁.arrive flow e).augmentAndInstall policy e flow := by
  have states : ((w₁.arrive flow e).flows (some flow)).state = (w₁.flows (some flow)).state := by
    simp [arrive]
  rw [processPacketIn, ran]
  simp only [states]
  rfl

/-- **Handling a packet-in does to the switches what `MapleState.processPacketIn` does**, unless the
flow takes the packet. -/
theorem processPacketIn_shows (whole : policy.WholeFields) (unmasked : policy.Unmasked switchId)
    (reads : policy.Reads Matchable) (sends : convertible e.mods = true)
    (installable : ∀ x, (policy.run x).1.Installable w.connections) (idle : Idle w)
    (installed : Installed policy w.shown) (fits : w.exceeds policy e = false) :
    ∃ w', w.processPacketIn policy e = .done w' ∧ Idle w' ∧
      (w'.shown = w.shown ∨
        MapleState.exceeds policy w.shown e.toPacketIn = false ∧
          w'.shown = w.shown.processPacketIn policy e.toPacketIn) := by
  obtain ⟨idle₁, shown₁, flow₁, new⟩ := withFlow_shows idle e.packet
  obtain ⟨installed₁, usable, same⟩ := withFlow_installed installed e.packet
  have fits : (w.withFlow e.packet).1.preprocess (w.withFlow e.packet).2 e = false →
      MapleState.exceeds policy w.shown e.toPacketIn = false := fun plain => by
    simpa [exceeds, plain] using fits
  rw [← shown₁] at installed₁ usable same
  rw [← flow₁] at usable same
  have pair : w.shown.withFlow e.packet = ((w.withFlow e.packet).1.shown, (w.withFlow e.packet).2) :=
    Prod.ext shown₁.symm flow₁.symm
  have connections : (w.withFlow e.packet).1.connections = w.connections :=
    congrArg (fun s => s.backend.connections) shown₁
  generalize ran : w.withFlow e.packet = r at *
  obtain ⟨w₁, flow⟩ := r
  dsimp only at idle₁ shown₁ flow₁ new installed₁ usable same fits pair connections
  -- a flow that is not new has been found for the packet
  have found (state : (w₁.flows (some flow)).state ≠ .egg) :
      w₁ = w ∧ w.runtime.lookup e.packet = some flow :=
    new.resolve_right fun fresh => state (by rw [fresh.1])
  have decided (state : (w₁.flows (some flow)).state ≠ .egg) :
      w₁.decision (some flow) = (policy.run e.packet).1 := by
    obtain ⟨rfl, lookup⟩ := found state
    exact congrArg (Option.getD · default) (installed.sound.lookup lookup)
  cases taken : w₁.preprocess flow e with
  | true =>
      have same : w₁ = w := by
        refine (new.resolve_right fun fresh => ?_).1
        rw [preprocess, fresh.2] at taken
        cases taken
      refine ⟨w₁, ?_, idle₁, .inl (by rw [same])⟩
      rw [processPacketIn_eq ran, taken, if_pos rfl]
  | false =>
      obtain ⟨shown₂, idle₂⟩ := arrive_shows flow e w₁
      have states : ((w₁.arrive flow e).flows (some flow)).state = (w₁.flows (some flow)).state := by
        simp [arrive]
      have decision : (w₁.arrive flow e).decision (some flow) = w₁.decision (some flow) := rfl
      have showing : w.shown.processPacketIn policy e.toPacketIn =
          match (w₁.flows (some flow)).state with
          | .active =>
              if e.tableMiss then w₁.shown.activate flow e.packet
              else
                { w₁.shown with
                    runtime :=
                      { w₁.runtime with
                          flows := Function.update w₁.runtime.flows flow (some (policy.run e.packet).1) } }
          | _ => w₁.shown.augmentAndInstall policy e.packet flow := by
        rw [MapleState.processPacketIn, pair]
        rfl
      rw [processPacketIn_eq ran, taken, if_neg Bool.false_ne_true, showing]
      have plain := fits taken
      simp only [plain, true_and]
      have augments (idles : (w₁.flows (some flow)).state ≠ .active) :
          ∃ w', (w₁.arrive flow e).augmentAndInstall policy e flow = .done w' ∧ Idle w' ∧
            (w'.shown = w.shown ∨ w'.shown = w₁.shown.augmentAndInstall policy e.packet flow) := by
        rw [MapleState.exceeds, pair, decide_eq_false_iff_not, not_and] at plain
        obtain ⟨w₃, ended, idle₃, shown₃⟩ := augmentAndInstall_shows (w := w₁.arrive flow e) (e := e)
          flow whole unmasked reads sends (fun x => connections ▸ installable x) (idle₂ idle₁)
          (shown₂ ▸ installed₁) usable same
          (fun evicted => decided (by rw [← states, evicted]; simp)) (plain idles)
        exact ⟨w₃, ended, idle₃, .inr (by rw [shown₃, shown₂])⟩
      cases state : (w₁.flows (some flow)).state with
      | egg => exact augments (by simp [state])
      | evicted => exact augments (by simp [state])
      | active =>
          have known : (w₁.flows (some flow)).state ≠ .egg := by simp [state]
          dsimp only
          split
          · obtain ⟨i, held⟩ := Option.isSome_iff_exists.mp (idle₁.active flow state)
            obtain ⟨done, idle₃, shown₃⟩ := activate_shows (idle₂ idle₁) e.packet (i := i)
              (by simp [arrive, held])
              (by
                rw [decision, decided known]
                exact connections ▸ installable e.packet)
              usable.created
            refine ⟨_, ?_, idle₃, .inr (by rw [shown₃, shown₂])⟩
            generalize (w₁.arrive flow e).activate flow = o at *
            obtain ⟨state, ending⟩ := o
            cases done
            rfl
          · refine ⟨_, rfl, decide_idle (idle₂ idle₁) (states.trans state) _, .inr ?_⟩
            rw [← shown₂]
            rfl

/-- What holds between the packet-ins of a run. -/
structure Running (policy : Handler (Decision H)) (connections : List Nat) (w : MapleImpl H) : Prop where
  idle : Idle w
  installed : Installed policy w.shown
  connections : w.connections = connections

theorem Running.initial (policy : Handler (Decision H)) (left right : Nat) (connections : List Nat) :
    Running policy connections (initial left right connections) where
  idle := idle_initial left right connections
  installed := installed_initial policy left right connections
  connections := rfl

theorem Running.step {connections : List Nat} (whole : policy.WholeFields)
    (unmasked : policy.Unmasked switchId) (reads : policy.Reads Matchable)
    (installable : ∀ x, (policy.run x).1.Installable connections) (running : Running policy connections w)
    (sends : convertible e.mods = true) (fits : w.exceeds policy e = false) :
    (w.processPacketIn policy e).ending = .done ∧ Running policy connections (w.step policy e) := by
  obtain ⟨idle, installed, rfl⟩ := running
  obtain ⟨w', ended, idle', shows_⟩ := processPacketIn_shows whole unmasked reads sends installable idle installed fits
  rw [MapleImpl.step, ended]
  refine ⟨rfl, idle', ?_, ?_⟩
  · rcases shows_ with same | ⟨plain, steps⟩
    · exact same ▸ installed
    · exact steps ▸ processPacketIn_installed whole unmasked installed plain
  · rcases shows_ with same | ⟨-, steps⟩
    · exact congrArg (fun s => s.backend.connections) same
    · exact (congrArg (fun s => s.backend.connections) steps).trans
        (MapleState.processPacketIn_connections policy w.shown e.toPacketIn)

/-- **In every run in which no packet-in finds the priorities used up, of a policy that asks for fields
that a match may have and puts in fields that OpenFlow has, no step is left by an exception, and the
switches that execute the messages sent to them give every packet to the controller or to the flow a
lookup finds for it.** -/
theorem messages_agree (whole : policy.WholeFields) (unmasked : policy.Unmasked switchId)
    (reads : policy.Reads Matchable) (left right : Nat) (connections : List Nat)
    (installable : ∀ x, (policy.run x).1.Installable connections) (es : List Arrival)
    (runs : Each (step policy) (fun w e => w.exceeds policy e = false ∧ convertible e.mods = true)
      (.initial left right connections) es) :
    Each (step policy) (fun w e => (w.processPacketIn policy e).ending = .done)
        (.initial left right connections) es ∧
      (final (step policy) (.initial left right connections) es).shown.Agrees := by
  have kept (w : MapleImpl H) (e : Arrival) (running : Running policy connections w)
      (runs : w.exceeds policy e = false ∧ convertible e.mods = true) :=
    running.step whole unmasked reads installable runs.2 runs.1
  have start := Running.initial policy left right connections
  exact ⟨runs.imp _ (fun w e inv runs => (kept w e inv runs).2) (fun w e inv runs => (kept w e inv runs).1) start,
    (runs.invariant _ (fun w e inv runs => (kept w e inv runs).2) start).installed.agrees⟩

end

end MapleImpl

end

section

open scoped Drunos.Oxm.OpenflowBasic

/-- Packets to the port of the web go out on port 1, all others nowhere. -/
def web : Handler (Decision Unit) :=
  .test (.exactly tcpDst 80) fun web =>
    .ret { data := if web then .unicast 1 else .drop, base := Base.lowerIdle 60 {} }

theorem web_wholeFields : web.WholeFields :=
  ⟨Field.exactly_exact _ _, fun _ => trivial⟩

theorem web_unmasked : web.Unmasked switchId := fun _ => trivial

theorem web_reads : web.Reads Matchable := ⟨.inl (by decide), fun _ => trivial⟩

theorem web_data (x : Packet) : (web.run x).1.data = .unicast 1 ∨ (web.run x).1.data = .drop := by
  show (if _ then _ else _) = _ ∨ (if _ then _ else _) = _
  split
  · exact .inl rfl
  · exact .inr rfl

/-- A packet-in of the TCP port on switch 1. -/
def missing (n : BitVec 16) (bufferId : BitVec 32) : Arrival where
  packet := toPort n
  tableMiss := true
  xid := 7
  bufferId := bufferId
  inPort := 3
  number := 0

/-- Three packets, the first in a buffer of the switch. -/
theorem MapleImpl.messages_agree_web :
    let es := [missing 80 5, missing 22 noBuffer, missing 80 noBuffer]
    Each (MapleImpl.step web) (fun w e => (w.processPacketIn web e).ending = .done) (.initial 1 65535 [1]) es ∧
      (final (MapleImpl.step web) (.initial 1 65535 [1]) es).shown.Agrees :=
  MapleImpl.messages_agree web_wholeFields web_unmasked web_reads 1 65535 [1]
    (fun x => by
      refine ⟨?_, fun dpid mem => ?_⟩
      · rcases web_data x with data | data <;> rw [data] <;> rfl
      · exfalso
        rcases web_data x with data | data <;> simp [Decisions.switches, data] at mem)
    _ (by decide +kernel)

end

end Drunos.Maple
