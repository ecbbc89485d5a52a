/-
# Drunos.Retic.TraceTree — what packet functions did on earlier packets

`trace_tree.cc` and `traverse_trace_tree.cc`. A leaf of a diagram whose actions are
packet functions has a tree of what the functions asked about the packets so far. At a
leaf of such a tree is the policy they returned, with its diagram, whose leaves have
trees in turn.

`Augmention` walks down a tree with what was asked about one more packet and adds what
is not there. It changes the nodes it passes; here it returns the tree as it is
afterwards, with the way it has gone, so that the diagram at the end of it can be
replaced by what becomes of it (`Tree.put`).
-/
import Drunos.Retic.Compiler
import Drunos.Retic.Translator
import Drunos.Maple.TraceablePacket

namespace Drunos.Retic

open Drunos.Oxm Drunos.Theory Drunos.Theory.Exploration Drunos.Maple

set_option autoImplicit false

variable [OxmTypes]

/-- `trace_tree::leaf_node`. -/
structure LeafNode (D : Type) where
  p : Policy
  katDiagram : D

inductive TraceTree where
  | mk (node : Tree Mask Nat Field Unit (LeafNode (Diagram TraceTree)))

instance : Inhabited TraceTree := ⟨.mk .unexplored⟩

/-- The diagrams the controller keeps. -/
abbrev Fdd := Diagram TraceTree

/-- `trace_tree::node`. -/
abbrev TraceNode := Tree Mask Nat Field Unit (LeafNode Fdd)

def TraceTree.node : TraceTree → TraceNode
  | mk node => node

inductive TraverseError where
  /-- A packet does not have the field. -/
  | outOfRange
  | inconsistentTrace
  /-- There are no traces to merge. -/
  | logicError
  deriving DecidableEq

/-- Going through a diagram may throw, and does not end where a compilation does not. -/
abbrev Traversal := ExceptT TraverseError Option

/-- What a packet answers or throws. -/
def ofPacket {α : Type} : Option α → Traversal α
  | some a => pure a
  | none => throw .outOfRange

def ofCompiler {α : Type} (result : Option α) : Traversal α := ExceptT.lift result

/-! ## trace_tree::Traverser -/

/-- What an answer says of the packet. -/
def noteAnswer (known : FieldSet) : Asked Mask Nat Field → FieldSet
  | .load m bits => known.modify (.ofMask m (BitVec.ofNat _ bits))
  | .test need true => known.modify need
  | .test _ false => known

/-- Where a packet leads: the way, and the leaf at its end if that was explored. -/
structure Found where
  path : List (Asked Mask Nat Field)
  leaf : Option (LeafNode Fdd)

/-- The match the traverser returns. -/
def Found.match' (found : Found) : FieldSet := found.path.foldl noteAnswer ∅

def Found.past (asked : Asked Mask Nat Field) (found : Found) : Found :=
  { found with path := asked :: found.path }

section

variable {V : Type} [PacketView V]

/-- `trace_tree::Traverser::operator()`. -/
def findLeaf (x : V) : TraceNode → Traversal Found
  | .unexplored => pure ⟨[], none⟩
  | .leaf l => pure ⟨[], some l⟩
  | .test need _ pos neg => do
      if ← ofPacket (PacketView.test x need) then
        return (← findLeaf x pos).past (.test need true)
      else
        return (← findLeaf x neg).past (.test need false)
  | .load mask cases => do
      let read ← ofPacket (PacketView.load x mask)
      findCase mask read.value.toNat cases
where
  findCase (mask : Mask) (bits : Nat) : List (Nat × TraceNode) → Traversal Found
    | [] => pure ⟨[], none⟩
    | (u, node) :: rest =>
        if u = bits then do
          return (← findLeaf x node).past (.load mask bits)
        else findCase mask bits rest

end

/-! ## Augmention -/

structure Augmention where
  match' : FieldSet
  prioDown : Nat
  prioUp : Nat

namespace Augmention

/-- `uint16_t prio_middle`. -/
def prioMiddle (a : Augmention) : Nat := (a.prioUp + a.prioDown) / 2

def load (a : Augmention) (field : Field) : Augmention :=
  { a with match' := a.match'.modify field }

/-- The priorities are 16 bits each. -/
def test (a : Augmention) (field : Field) (result : Bool) : Augmention :=
  if result then
    { a with match' := a.match'.modify field, prioDown := (a.prioMiddle + 1) % 65536 }
  else { a with prioUp := (a.prioMiddle + 65535) % 65536 }

end Augmention

/-- What has become of a node, and the way to the leaf below it. -/
structure Augmented where
  node : TraceNode
  path : List (Asked Mask Nat Field)
  leaf : LeafNode Fdd
  match' : FieldSet
  calls : List BackendCall

/-- `Augmention::finish`: the policy and its diagram, installed if there is a backend. -/
def finish (backend : Bool) (p : Policy) (a : Augmention) : TraceNode → Traversal Augmented
  | .test .. => throw .inconsistentTrace
  | .load .. => throw .inconsistentTrace
  | _ => do
      let d ← ofCompiler (compile p)
      let translated := translate d a.match' { prioDown := a.prioDown, prioUp := a.prioUp }
      let leaf : LeafNode Fdd := ⟨p, if backend then translated.diagram else d⟩
      return {
        node := .leaf leaf
        path := []
        leaf
        match' := a.match'
        calls := if backend then translated.calls else [] }

/-- The augmention at a node with the trace still to come, and then `finish`. -/
def augment (backend : Bool) (p : Policy) :
    List TraceCall → Augmention → TraceNode → Traversal Augmented
  | [], a, node => finish backend p a node
  | .load field :: trace, a, node =>
      match node with
      | .unexplored => do
          let r ← augment backend p trace (a.load field) .unexplored
          return { r with
            node := .load field.mask [(valueBits field, r.node)]
            path := .load field.mask (valueBits field) :: r.path }
      | .load mask cases => do
          if mask = field.mask then
            let r ← augment backend p trace (a.load field) (Tree.caseAt (valueBits field) cases)
            return { r with
              node := .load mask (Tree.setCase (valueBits field) r.node cases)
              path := .load mask (valueBits field) :: r.path }
          else throw .inconsistentTrace
      | _ => throw .inconsistentTrace
  | .test field result :: trace, a, node =>
      match node with
      | .unexplored => do
          let r ← augment backend p trace (a.test field result) .unexplored
          return { r with
            node := if result then .test field () r.node .unexplored
              else .test field () .unexplored r.node
            path := .test field result :: r.path
            calls := (if backend then [.installBarrier (a.match'.modify field) a.prioMiddle]
              else []) ++ r.calls }
      | .test need note pos neg => do
          if need = field then
            let r ← augment backend p trace (a.test field result) (if result then pos else neg)
            return { r with
              node := if result then .test need note r.node neg else .test need note pos r.node
              path := .test need result :: r.path }
          else throw .inconsistentTrace
      -- no branch of the source is for these: the augmention stays at the node
      | node => augment backend p trace (a.test field result) node

end Drunos.Retic
