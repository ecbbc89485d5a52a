/-
# Drunos.Topology.Graph — the graph of switches and links

`TopologyGraph` of `Topology.hh`: an undirected multigraph of switches. A vertex
is made for a datapath id when it is first asked for, and carries it, so a vertex
is its datapath id here. An edge joins the vertices of the two switches of its
`link_property`; every link has weight 1.

What boost does to the edges is a parameter, `AdjacencyList`, with what its documentation
says; that it keeps them in a list, in the order they came in, is one instance.
-/
import Drunos.Topology.Location
import Mathlib.Combinatorics.SimpleGraph.Metric

namespace Drunos.Topology

set_option autoImplicit false

structure LinkProperty where
  source : SwitchAndPort
  target : SwitchAndPort
  deriving DecidableEq

namespace LinkProperty

/-- The edge of the link joins the two vertices. -/
def joins (l : LinkProperty) (u v : BitVec 64) : Bool :=
  (l.source.dpid = u && l.target.dpid = v) || (l.source.dpid = v && l.target.dpid = u)

/-- The port is one of the two ends. -/
def hasEnd (l : LinkProperty) (p : SwitchAndPort) : Bool := l.source = p || l.target = p

theorem joins_iff {l : LinkProperty} {u v : BitVec 64} :
    l.joins u v = true ↔
      l.source.dpid = u ∧ l.target.dpid = v ∨ l.source.dpid = v ∧ l.target.dpid = u := by
  simp [joins]

theorem joins_comm (l : LinkProperty) (u v : BitVec 64) : l.joins u v = l.joins v u := by
  rw [Bool.eq_iff_iff, joins_iff, joins_iff, or_comm]

theorem hasEnd_iff {l : LinkProperty} {p : SwitchAndPort} :
    l.hasEnd p = true ↔ l.source = p ∨ l.target = p := by
  simp [hasEnd]

end LinkProperty

/-- The operations of boost's `adjacency_list` on the edges of a graph, in whatever order it keeps them. -/
class AdjacencyList where
  addEdge : LinkProperty → List LinkProperty → List LinkProperty
  removeEdge : BitVec 64 → BitVec 64 → List LinkProperty → List LinkProperty
  edge : BitVec 64 → BitVec 64 → List LinkProperty → Option LinkProperty
  /-- An edge is added beside those there may be between the two vertices. -/
  addEdge_perm : ∀ link edges, (addEdge link edges).Perm (link :: edges)
  /-- All edges between the two vertices are removed. -/
  removeEdge_perm : ∀ u v edges, (removeEdge u v edges).Perm (edges.filter fun l => !l.joins u v)
  /-- One of the edges between the two vertices is found, if there are any. -/
  edge_isSome : ∀ {u v edges}, (∃ l ∈ edges, l.joins u v = true) → (edge u v edges).isSome = true
  edge_found : ∀ {u v edges link}, edge u v edges = some link → link ∈ edges ∧ link.joins u v = true

/-- The edges in the order they came in. -/
scoped instance EdgeList.adjacencyList : AdjacencyList where
  addEdge link edges := edges ++ [link]
  removeEdge u v edges := edges.filter fun l => !l.joins u v
  edge u v edges := edges.find? fun l => l.joins u v
  addEdge_perm _ _ := List.perm_append_singleton _ _
  removeEdge_perm _ _ _ := .refl _
  edge_isSome some := List.find?_isSome.mpr some
  edge_found found := by
    have joins := List.find?_some found
    exact ⟨List.mem_of_find?_eq_some found, joins⟩

structure TopologyGraph where
  vertices : List (BitVec 64) := []
  edges : List LinkProperty := []

namespace TopologyGraph

/-- `TopologyImpl::vertex`. -/
def vertex (dpid : BitVec 64) (g : TopologyGraph) : TopologyGraph :=
  if dpid ∈ g.vertices then g else { g with vertices := g.vertices ++ [dpid] }

/-- `add_edge`. -/
def addEdge [AdjacencyList] (link : LinkProperty) (g : TopologyGraph) : TopologyGraph :=
  { g with edges := AdjacencyList.addEdge link g.edges }

/-- `remove_edge`. -/
def removeEdge [AdjacencyList] (u v : BitVec 64) (g : TopologyGraph) : TopologyGraph :=
  { g with edges := AdjacencyList.removeEdge u v g.edges }

/-- `edge`. -/
def edge [AdjacencyList] (u v : BitVec 64) (g : TopologyGraph) : Option LinkProperty :=
  AdjacencyList.edge u v g.edges

@[simp] theorem vertex_edges (dpid : BitVec 64) (g : TopologyGraph) :
    (g.vertex dpid).edges = g.edges := by
  unfold vertex
  split <;> rfl

end TopologyGraph

/-! ## What the links connect -/

/-- Two switches are adjacent when a link joins them. -/
def linkGraph (links : List LinkProperty) : SimpleGraph (BitVec 64) where
  Adj u v := u ≠ v ∧ ∃ l ∈ links, l.joins u v = true
  symm := ⟨fun _ _ ⟨ne, l, mem, joins⟩ => ⟨ne.symm, l, mem, by rwa [l.joins_comm]⟩⟩
  loopless := ⟨fun _ adj => adj.1 rfl⟩

/-- Some link has its ends at the two ports. -/
def Linked (links : List LinkProperty) (a b : SwitchAndPort) : Prop :=
  ∃ l ∈ links, l.source = a ∧ l.target = b ∨ l.source = b ∧ l.target = a

end Drunos.Topology
