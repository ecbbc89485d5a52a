/-
# Drunos.Maple.TraceTree — the trace tree of a policy

`TraceTree.cc` without virtual loads. A tree holds what a policy asked on the
packets it was augmented with (`augment`), with a priority at each test and each
flow; a packet is looked up in it (`lookup`), it is compiled to rules for the
backend (`commit`), and its priorities are spread out anew (`update`).

The tracer walks down the tree with what the policy asks and changes the nodes it
passes. Here it is a function from the tree to the tree (`trace`), which returns
the tree as it is when an exception is thrown as well. The leaves hold flows by
weak pointers: `flows` has the decision of each flow that is still alive.
-/
import Drunos.Maple.TraceablePacket
import Drunos.Oxm.MultiFieldSet
import Mathlib.Data.Rat.Floor

namespace Drunos.Maple

open Drunos.Oxm Drunos.Theory Drunos.Theory.Exploration

set_option autoImplicit false

variable [OxmTypes]

abbrev FlowId := Nat

/-- What a `test_node` has besides its field and branches. -/
structure TestNode where
  id : Nat
  prio : Nat
  deriving DecidableEq

structure FlowNode where
  flow : FlowId
  prio : Nat
  deriving DecidableEq

/-- `TraceTree::node`. -/
abbrev Node := Tree Mask Nat Field TestNode FlowNode

/-- What a tree asks of its backend. -/
inductive BackendCall where
  | install (priority : Nat) (match' : FullFieldSet) (flow : FlowId)
  | barrierRule (priority : Nat) (match' : FullFieldSet) (test : Field) (id : Nat)
  | barrier
  | remove (match' : FieldSet)

/-! ## Compiler -/

/-- The field of a case of a load node. -/
def caseField (mask : Mask) (bits : Nat) : Field := .ofMask mask (BitVec.ofNat _ bits)

/-- The calls for a subtree, and `match` as they leave it. -/
def compile (alive : FlowId → Bool) : Node → FullFieldSet → List BackendCall × FullFieldSet
  | .unexplored, m => ([], m)
  | .leaf l, m => (if alive l.flow then [.install l.prio m l.flow] else [], m)
  | .test need info pos neg, m =>
      let (negative, m) := compile alive neg (m.exclude need)
      let m := (m.includeMask need.mask).add need
      let (positive, m') := compile alive pos m
      (negative ++ .barrierRule info.prio m need info.id :: positive, m'.erase need.mask)
  | .load mask cases, m => compileCases mask cases m
where
  compileCases (mask : Mask) : List (Nat × Node) → FullFieldSet → List BackendCall × FullFieldSet
    | [], m => ([], m)
    | (bits, node) :: rest, m =>
        let (calls, m) := compile alive node (m.add (caseField mask bits))
        let (later, m) := compileCases mask rest (m.erase mask)
        (calls ++ later, m)

/-! ## TracerImpl -/

inductive TraceError
  | inconsistentTrace
  | priorityExceeded
  deriving DecidableEq

/-- Where the tracer is in the priority space, and what it has matched. -/
structure Cursor where
  leftPrio : Nat
  rightPrio : Nat
  match' : FullFieldSet

def Cursor.load (c : Cursor) (data : Field) : Cursor := { c with match' := c.match'.add data }

def Cursor.test (c : Cursor) (pred : Field) (ret : Bool) (prio : Nat) : Cursor :=
  if ret then { c with leftPrio := prio, match' := c.match'.add pred }
  else { c with rightPrio := prio, match' := c.match'.exclude pred }

def Cursor.middle (c : Cursor) : Nat := (c.leftPrio + c.rightPrio) / 2

/-- There is no priority left between the two. -/
def Cursor.exceeded (c : Cursor) : Bool := c.middle ≤ c.leftPrio ∨ c.middle ≥ c.rightPrio

/-- What has become of a node, and of the augmentation. -/
structure Traced where
  node : Node
  thrown : Option TraceError
  /-- The policy has returned. -/
  decided : Bool
  /-- The packet as the policy has left it. -/
  packet : Packet
  calls : List BackendCall
  /-- The match the returned installer compiles the leaf with. -/
  installer : Option FullFieldSet
  nextId : Nat

def thrown (error : TraceError) (decided : Bool) (x : Packet) (nextId : Nat) (node : Node) :
    Traced where
  node := node
  thrown := some error
  decided := decided
  packet := x
  calls := []
  installer := none
  nextId := nextId

/-- `finish`, once the leaf is there. -/
def installing (x : Packet) (c : Cursor) (nextId : Nat) (l : FlowNode) : Traced where
  node := .leaf l
  thrown := none
  decided := true
  packet := x
  calls := []
  installer := some c.match'
  nextId := nextId

def finish (flow : FlowId) (x : Packet) (c : Cursor) (nextId : Nat) : Node → Traced
  | .unexplored =>
      if c.exceeded then thrown .priorityExceeded true x nextId .unexplored
      else installing x c nextId { flow := flow, prio := c.middle }
  | .leaf l => installing x c nextId { l with flow := flow }
  | node => thrown .inconsistentTrace true x nextId node

/-- The tracer at a node, with what is still to come: the calls of the policy, each
with the packet at that moment, and then `finish`. -/
def trace (flow : FlowId) (last : Packet) :
    List (TraceCall × Packet) → Cursor → Nat → Node → Traced
  | [], c, id, node => finish flow last c id node
  | (.load data, x) :: calls, c, id, node =>
      match node with
      | .unexplored =>
          let r := trace flow last calls (c.load data) id .unexplored
          { r with node := .load data.mask [(valueBits data, r.node)] }
      | .load mask cases =>
          if mask = data.mask then
            let r := trace flow last calls (c.load data) id (Tree.caseAt (valueBits data) cases)
            { r with node := .load mask (Tree.setCase (valueBits data) r.node cases) }
          else thrown .inconsistentTrace false x id node
      | node => thrown .inconsistentTrace false x id node
  | (.test pred ret, x) :: calls, c, id, node =>
      match node with
      | .unexplored =>
          if c.exceeded then thrown .priorityExceeded false x id .unexplored
          else
            let r := trace flow last calls (c.test pred ret c.middle) (id + 1) .unexplored
            { r with
              node := .test pred { id := id, prio := c.middle }
                (if ret then r.node else .unexplored) (if ret then .unexplored else r.node)
              calls := .barrierRule c.middle (c.match'.add pred) pred id :: r.calls }
      | .test need info pos neg =>
          if need = pred then
            let r := trace flow last calls (c.test pred ret info.prio) id (if ret then pos else neg)
            { r with node := .test need info (if ret then r.node else pos) (if ret then neg else r.node) }
          else thrown .inconsistentTrace false x id node
      | node => thrown .inconsistentTrace false x id node

/-- The tree and the next id when the barrier rule of the test that is new after `n` others throws: the
node of this test is there, and the policy goes no further. -/
def interrupted : List (TraceCall × Packet) → Nat → Cursor → Nat → Node → Node × Nat
  | [], _, _, id, node => (node, id)
  | (.load data, _) :: calls, n, c, id, node =>
      match node with
      | .unexplored =>
          let (next, id) := interrupted calls n (c.load data) id .unexplored
          (.load data.mask [(valueBits data, next)], id)
      | .load mask cases =>
          let (next, id) := interrupted calls n (c.load data) id (Tree.caseAt (valueBits data) cases)
          (.load mask (Tree.setCase (valueBits data) next cases), id)
      | node => (node, id)
  | (.test pred ret, _) :: calls, n, c, id, node =>
      match node with
      | .unexplored =>
          let info : TestNode := { id := id, prio := c.middle }
          match n with
          | 0 => (.test pred info .unexplored .unexplored, id + 1)
          | n + 1 =>
              let (next, id) := interrupted calls n (c.test pred ret c.middle) (id + 1) .unexplored
              (.test pred info (if ret then next else .unexplored) (if ret then .unexplored else next), id)
      | .test need info pos neg =>
          let (next, id) := interrupted calls n (c.test pred ret info.prio) id (if ret then pos else neg)
          (.test need info (if ret then next else pos) (if ret then neg else next), id)
      | node => (node, id)

/-! ## PriorityUpdater -/

/-- `DepthCounter`: the tests and ends of a subtree. -/
def depthCount : Node → Nat
  | .unexplored => 1
  | .leaf _ => 1
  | .test _ _ pos neg => depthCount pos + depthCount neg + 1
  | .load _ cases => casesCount cases
where
  casesCount : List (Nat × Node) → Nat
    | [] => 0
    | (_, node) :: rest => max (depthCount node) (casesCount rest)

def average (left right : ℚ) (k m : Nat) : ℚ := (left * m + right * k) / (m + k)

/-- `std::round` of a priority. -/
def roundPrio (q : ℚ) : Nat := (q + 1 / 2).floor.toNat

/-- `PriorityAssigner`, with its doubles as rationals. -/
def assignPriorities (left right : ℚ) : Node → Node
  | .unexplored => .unexplored
  | .leaf l => .leaf { l with prio := roundPrio (average left right 1 1) }
  | .test need info pos neg =>
      let prio := average left right (depthCount neg) (depthCount pos)
      .test need { info with prio := roundPrio prio }
        (assignPriorities prio right pos) (assignPriorities left prio neg)
  | .load mask cases => .load mask (assignCases left right cases)
where
  assignCases (left right : ℚ) : List (Nat × Node) → List (Nat × Node)
    | [] => []
    | (bits, node) :: rest => (bits, assignPriorities left right node) :: assignCases left right rest

/-! ## The tree and the runtime -/

/-- A `Runtime`: the tree with its priority space, the ids given to tests, and the
flows. -/
structure Runtime (D : Type) where
  root : Node
  leftPrio : Nat
  rightPrio : Nat
  nextId : Nat
  /-- The decision of each flow that is alive. -/
  flows : FlowId → Option D
  nextFlow : FlowId

variable {D : Type}

namespace Runtime

def initial (leftPrio rightPrio : Nat) : Runtime D where
  root := .unexplored
  leftPrio := leftPrio
  rightPrio := rightPrio
  nextId := 1
  flows := fun _ => none
  nextFlow := 0

def alive (r : Runtime D) (flow : FlowId) : Bool := (r.flows flow).isSome

/-- `TraceTree::lookup`. -/
def lookup (r : Runtime D) (x : Packet) : Option FlowId :=
  match r.root.lookup (answers x) with
  | some l => if r.alive l.flow then some l.flow else none
  | none => none

def cursor (r : Runtime D) : Cursor := ⟨r.leftPrio, r.rightPrio, ∅⟩

/-- `Runtime::augment` on a packet, for a flow. -/
def augment (policy : Handler D) (x : Packet) (flow : FlowId) (r : Runtime D) : Runtime D × Traced :=
  let run := traceable policy x ∅
  let traced := trace flow run.packet run.calls r.cursor r.nextId r.root
  ({ r with
      root := traced.node
      nextId := traced.nextId
      flows :=
        if traced.decided then Function.update r.flows flow (some run.result) else r.flows },
    traced)

/-- What `augment` leaves when the barrier rule of the test that is new after `n` others throws. -/
def interrupt (policy : Handler D) (x : Packet) (n : Nat) (r : Runtime D) : Runtime D :=
  let (root, nextId) := interrupted (traceable policy x ∅).calls n r.cursor r.nextId r.root
  { r with root := root, nextId := nextId }

/-- A new flow, with the decision flows are created with. -/
def newFlow [Inhabited D] (r : Runtime D) : Runtime D × FlowId :=
  ({ r with
      flows := Function.update r.flows r.nextFlow (some default)
      nextFlow := r.nextFlow + 1 },
    r.nextFlow)

/-- The last pointer to a flow is gone. -/
def release (flow : FlowId) (r : Runtime D) : Runtime D :=
  { r with flows := Function.update r.flows flow none }

/-- `TraceTree::update`. -/
def update (r : Runtime D) : Runtime D :=
  { r with root := assignPriorities r.leftPrio r.rightPrio r.root }

/-- `TraceTree::commit`. -/
def commit (r : Runtime D) : List BackendCall :=
  .remove ∅ :: .barrier :: (compile r.alive r.root ∅).1 ++ [.barrier]

end Runtime

end Drunos.Maple
