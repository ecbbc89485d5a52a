/-
# Drunos.Retic.Traverser — the leaf of a packet

`traverse_fdd.cc`. A packet is taken down a diagram. At a leaf with packet functions
the tree of the leaf says what policy they return for it; if it does not, the functions
are run and the tree is augmented. Then the diagram of that policy is taken.

The source changes the trees in place. Here the traversal returns the diagram as it is
afterwards, with the leaf and with what was told to the backend.
-/
import Drunos.Retic.Tracer

namespace Drunos.Retic

open Drunos.Oxm Drunos.Theory Drunos.Theory.Exploration Drunos.Maple

set_option autoImplicit false

variable [OxmTypes]

/-- There is a packet function among the actions. -/
def Leaf.hasBody {T : Type} (l : Leaf T) : Bool := l.sets.any fun unit => unit.body.isSome

/-- The leaf with another tree. -/
def Leaf.setNode (l : Leaf TraceTree) (node : TraceNode) : Leaf TraceTree :=
  { l with mapleTree := .mk node }

/-- What a traversal leaves, and what it returns. -/
structure Traversed where
  diagram : Fdd
  leaf : Leaf TraceTree
  calls : List BackendCall

section

variable {V : Type} [PacketView V]

/-- `PlainTraverser`. -/
def plainLeaf (x : V) : Fdd → Traversal (Leaf TraceTree)
  | .leaf l => pure l
  | .node field pos neg => do
      if ← ofPacket (PacketView.test x field) then plainLeaf x pos else plainLeaf x neg

/-- `leaf_is_temporary`. -/
def leafIsTemporary (x : V) (d : Fdd) : Traversal Bool := do
  let l ← plainLeaf x d
  return l.flowSettings.hardTimeout = 0

/-- The leaf of the tree, unless its functions have to be run anew. -/
def usable (x : V) : Option (LeafNode Fdd) → Traversal (Option (LeafNode Fdd))
  | none => pure none
  | some leaf => do
      if ← leafIsTemporary x leaf.katDiagram then return none else return some leaf

/-- The functions of a leaf are run on the packet and its tree is augmented. -/
def explore (backend : Bool) (x : V) (l : Leaf TraceTree) (match' : FieldSet) :
    Traversal Augmented := do
  let traces ← ofPacket (getTraces x l)
  let merged ← mergeTrace traces match'
  augment backend merged.result merged.values
    { match', prioDown := l.prioDown, prioUp := l.prioUp } l.mapleTree.node

/-- `fdd::Traverser::operator()`. -/
def Diagram.traverse (backend : Bool) (x : V) (d : Fdd) (match' : FieldSet) : Traversal Traversed :=
  match d with
  | .node field pos neg => do
      if ← ofPacket (PacketView.test x field) then
        let r ← pos |>.traverse backend x (match'.modify field)
        return { r with diagram := .node field r.diagram neg }
      else
        let r ← neg |>.traverse backend x match'
        return { r with diagram := .node field pos r.diagram }
  | .leaf l => do
      if l.hasBody then
        let found ← findLeaf x l.mapleTree.node
        match ← usable x found.leaf with
        | some known =>
            let r ← known.katDiagram |>.traverse backend x (fieldSetUnion match' found.match')
            let node := Tree.put { known with katDiagram := r.diagram } found.path l.mapleTree.node
            return { r with diagram := .leaf (l.setNode node) }
        | none =>
            let a ← explore backend x l match'
            let r ← a.leaf.katDiagram |>.traverse backend x (fieldSetUnion a.match' found.match')
            let node := Tree.put { a.leaf with katDiagram := r.diagram } a.path a.node
            return { diagram := .leaf (l.setNode node), leaf := r.leaf, calls := a.calls ++ r.calls }
      else return ⟨.leaf l, l, []⟩
partial_fixpoint

export Diagram (traverse)

/-! ## One step of a traversal -/

variable {x : V} {backend : Bool} {l : Leaf TraceTree} {match' : FieldSet} {found : Found}
  {r : Traversed}

theorem traverse_plain (plain : l.hasBody = false) :
    traverse backend x (.leaf l) match' = pure ⟨.leaf l, l, []⟩ := by
  rw [traverse, if_neg (by simp [plain])]

/-- The tree knows the packet. -/
theorem traverse_hit {leaf : LeafNode Fdd} (body : l.hasBody = true)
    (find : findLeaf x l.mapleTree.node = pure found) (use : usable x found.leaf = pure (some leaf))
    (next : traverse backend x leaf.katDiagram (fieldSetUnion match' found.match') = pure r) :
    traverse backend x (.leaf l) match' = pure
      { r with
        diagram := .leaf (l.setNode
          (Tree.put { leaf with katDiagram := r.diagram } found.path l.mapleTree.node)) } := by
  rw [traverse, if_pos body, find, pure_bind, use, pure_bind]
  simp only [next, pure_bind]

/-- The functions are run on the packet. -/
theorem traverse_miss {a : Augmented} (body : l.hasBody = true)
    (find : findLeaf x l.mapleTree.node = pure found) (use : usable x found.leaf = pure none)
    (explored : explore backend x l match' = pure a)
    (next : traverse backend x a.leaf.katDiagram (fieldSetUnion a.match' found.match') = pure r) :
    traverse backend x (.leaf l) match' = pure
      { diagram := .leaf (l.setNode (Tree.put { a.leaf with katDiagram := r.diagram } a.path a.node))
        leaf := r.leaf
        calls := a.calls ++ r.calls } := by
  rw [traverse, if_pos body, find, pure_bind, use, pure_bind]
  simp only [explored, next, pure_bind]

end

end Drunos.Retic
