/-
# Drunos.Topology.Route — the routes of the learning switch

`Topology::computeRoute` walks from the source to the target along the predecessor
map of Dijkstra's algorithm, and `route_policy` of `LearningSwitch.cc` pairs the
ports of the links into an in port and an out port for each switch. Where the
predecessor map describes shortest paths (`ShortestPaths`), a packet that starts at
the source port is forwarded once by each switch of the route and comes out at the
port of the target (`learningRoute_forwards`).
-/
import Drunos.Topology.Graph
import Mathlib.Tactic.SplitIfs

namespace Drunos.Topology

open Drunos.Oxm Drunos.Retic
open scoped Drunos.Oxm.OpenflowBasic

set_option autoImplicit false

/-! ## The code -/

/-- The loop of `Topology::computeRoute` from a vertex on, with the predecessors
that Dijkstra's algorithm found. There is no result where a predecessor is not
adjacent, or where the loop does not end. -/
def TopologyGraph.computeRoute [AdjacencyList] (g : TopologyGraph) (p : BitVec 64 → BitVec 64) (v : BitVec 64) :
    Option (List SwitchAndPort) :=
  if v = p v then some []
  else do
    let link ← g.edge v (p v)
    let rest ← g |>.computeRoute p (p v)
    if link.source.dpid = v then return link.source :: link.target :: rest
    else return link.target :: link.source :: rest
partial_fixpoint

export TopologyGraph (computeRoute)

/-- The member of a route's policy for one switch. -/
def hopPolicy (dpid : BitVec 64) (inport outport : BitVec 32) : Policy :=
  .sequential (.sequential (.filter (switchIdIs dpid)) (.filter (inPortIs inport))) (fwd outport)

/-- The loop of `route_policy`; an invalid route throws. -/
def routePolicyFrom : List SwitchAndPort → Policy → Option Policy
  | [], p => some p
  | [_], _ => none
  | a :: b :: route, p =>
      if a.dpid ≠ b.dpid then none
      else routePolicyFrom route (p.add (hopPolicy a.dpid a.port b.port))

def routePolicy (route : List SwitchAndPort) : Option Policy :=
  if route.length % 2 ≠ 0 then none else routePolicyFrom route .stop

/-- What the handler of `LearningSwitch` returns once it knows both locations. -/
def learningRoute [AdjacencyList] (g : TopologyGraph) (p : BitVec 64 → BitVec 64) (source target : SwitchAndPort) :
    Option Policy := do
  let route ← computeRoute ((g.vertex source.dpid).vertex target.dpid) p source.dpid
  if !route.isEmpty || target.dpid = source.dpid then
    routePolicy (source :: route ++ [target])
  else return .stop

/-! ## Shortest paths -/

/-- `p` is a predecessor map for shortest paths to the target. -/
structure ShortestPaths (g : TopologyGraph) (target : BitVec 64) (p : BitVec 64 → BitVec 64) :
    Prop where
  root : p target = target
  /-- From a vertex that is reached the next one is adjacent and one link nearer. -/
  reached : ∀ v, v ≠ target → (linkGraph g.edges).Reachable v target →
    (linkGraph g.edges).Adj v (p v) ∧
      (linkGraph g.edges).dist v target = (linkGraph g.edges).dist (p v) target + 1
  unreached : ∀ v, ¬(linkGraph g.edges).Reachable v target → p v = v

/-! ## Hops -/

structure Hop where
  dpid : BitVec 64
  inPort : BitVec 32
  outPort : BitVec 32

/-- The two locations of a hop, as they stand in a route. -/
def Hop.ends (h : Hop) : List SwitchAndPort := [⟨h.dpid, h.inPort⟩, ⟨h.dpid, h.outPort⟩]

/-- Hops from a location to a target, along links. -/
inductive Hops (links : List LinkProperty) : SwitchAndPort → SwitchAndPort → List Hop → Prop
  | last {a target : SwitchAndPort} (here : a.dpid = target.dpid) :
      Hops links a target [⟨a.dpid, a.port, target.port⟩]
  | hop {a out next target : SwitchAndPort} {rest : List Hop} (here : a.dpid = out.dpid)
      (linked : Linked links out next) (after : Hops links next target rest) :
      Hops links a target (⟨a.dpid, a.port, out.port⟩ :: rest)

/-- The route policy of hops is the sum of their policies. -/
theorem routePolicyFrom_hops {hops : List Hop} : ∀ {route : List SwitchAndPort} {p : Policy},
    route = hops.flatMap Hop.ends →
      routePolicyFrom route p =
        some (hops.foldl (fun sum h => Policy.add sum (hopPolicy h.dpid h.inPort h.outPort)) p) := by
  induction hops with
  | nil =>
      rintro _ p rfl
      rfl
  | cons h hops ih =>
      rintro _ p rfl
      rw [List.flatMap_cons, List.foldl_cons, ← ih rfl]
      exact if_neg fun ne => ne rfl

theorem routePolicy_hops {hops : List Hop} {route : List SwitchAndPort}
    (same : route = hops.flatMap Hop.ends) :
    routePolicy route =
      some (hops.foldl (fun sum h => Policy.add sum (hopPolicy h.dpid h.inPort h.outPort)) .stop) := by
  have even : route.length % 2 = 0 := by
    rw [same]
    clear same
    induction hops with
    | nil => rfl
    | cons h hops ih =>
        rw [List.flatMap_cons, List.length_append, Hop.ends, List.length_cons, List.length_singleton]
        omega
  rw [routePolicy, if_neg (by omega), routePolicyFrom_hops same]

/-- The walk along shortest paths makes hops, each nearer to the target. -/
theorem computeRoute_hops [AdjacencyList] {g : TopologyGraph} {target : SwitchAndPort} {p : BitVec 64 → BitVec 64}
    (paths : ShortestPaths g target.dpid p) (n : Nat) : ∀ {a : SwitchAndPort},
      (linkGraph g.edges).Reachable a.dpid target.dpid →
      (linkGraph g.edges).dist a.dpid target.dpid = n →
      ∃ route hops, computeRoute g p a.dpid = some route ∧ Hops g.edges a target hops ∧
        a :: route ++ [target] = hops.flatMap Hop.ends ∧
        (hops.map Hop.dpid).Nodup ∧
        ∀ h ∈ hops, (linkGraph g.edges).dist h.dpid target.dpid ≤ n := by
  induction n with
  | zero =>
      intro a reached dist
      have here : a.dpid = target.dpid := by
        rcases SimpleGraph.dist_eq_zero_iff_eq_or_not_reachable.mp dist with same | not
        · exact same
        · exact absurd reached not
      refine ⟨[], _, ?_, .last here, ?_, List.nodup_singleton _, ?_⟩
      · rw [computeRoute, if_pos (by rw [here, paths.root])]
      · show [a, target] = [⟨a.dpid, a.port⟩, ⟨a.dpid, target.port⟩]
        rw [here, ← here]
        exact congrArg (fun t => [a, t]) (SwitchAndPort.ext here.symm rfl)
      · intro h mem
        rw [List.mem_singleton.mp mem, dist]
  | succ n ih =>
      intro a reached dist
      have ne : a.dpid ≠ target.dpid := fun same => by
        rw [same, SimpleGraph.dist_self] at dist
        cases dist
      obtain ⟨adj, nearer⟩ := paths.reached _ ne reached
      obtain ⟨apart, l, mem, joins⟩ := adj
      -- some link is found, and it may lie either way round
      obtain ⟨link, found⟩ : ∃ link, g.edge a.dpid (p a.dpid) = some link :=
        Option.isSome_iff_exists.mp (AdjacencyList.edge_isSome ⟨l, mem, joins⟩)
      obtain ⟨memLink, joinsLink⟩ : link ∈ g.edges ∧ link.joins a.dpid (p a.dpid) = true :=
        AdjacencyList.edge_found found
      obtain ⟨out, next, here, there, linked, taken⟩ : ∃ out next : SwitchAndPort,
          a.dpid = out.dpid ∧ p a.dpid = next.dpid ∧ Linked g.edges out next ∧
            ∀ rest, (if link.source.dpid = a.dpid then
              some (link.source :: link.target :: rest)
            else some (link.target :: link.source :: rest)) = some (out :: next :: rest) := by
        rcases LinkProperty.joins_iff.mp joinsLink with ⟨source, dest⟩ | ⟨source, dest⟩
        · exact ⟨link.source, link.target, source.symm, dest.symm,
            ⟨link, memLink, .inl ⟨rfl, rfl⟩⟩, fun rest => if_pos source⟩
        · exact ⟨link.target, link.source, dest.symm, source.symm,
            ⟨link, memLink, .inr ⟨rfl, rfl⟩⟩,
            fun rest => if_neg fun same => apart (same.symm.trans source)⟩
      have reachedNext : (linkGraph g.edges).Reachable next.dpid target.dpid := by
        have step : (linkGraph g.edges).Adj a.dpid next.dpid := there ▸ ⟨apart, l, mem, joins⟩
        exact step.symm.reachable.trans reached
      have distNext : (linkGraph g.edges).dist next.dpid target.dpid = n := by
        rw [← there]
        omega
      obtain ⟨rest, hops, result, along, flat, nodup, bound⟩ := ih reachedNext distNext
      refine ⟨out :: next :: rest, _, ?_, .hop here linked along, ?_, ?_, ?_⟩
      · rw [computeRoute, if_neg apart, found]
        simp only [Option.bind_eq_bind, Option.bind_some, Option.pure_def]
        rw [there, result]
        exact taken rest
      · rw [List.flatMap_cons, ← flat]
        have same : out = ⟨a.dpid, out.port⟩ := SwitchAndPort.ext here.symm rfl
        exact congrArg (fun o => a :: o :: (next :: rest ++ [target])) same
      · refine List.nodup_cons.mpr ⟨fun mem => ?_, nodup⟩
        obtain ⟨h, memH, same⟩ := List.mem_map.mp mem
        have near := bound h memH
        rw [same, dist] at near
        omega
      · intro h mem
        rcases List.mem_cons.mp mem with rfl | later
        · exact Nat.le_of_eq dist
        · exact Nat.le_succ_of_le (bound h later)

/-! ## Forwarding -/

theorem hopPolicy_outputs (dpid : BitVec 64) (inport outport : BitVec 32) (x : Packet) :
    (hopPolicy dpid inport outport).outputs x =
      if switchIdOf x = dpid then
        if inPortOf x = inport then {x.modify (outPortIs outport)} else 0
      else 0 := by
  rw [hopPolicy, Policy.outputs, Policy.outputs_filter_sequential, Policy.outputs]
  simp only [test_switchIdIs, test_inPortIs]
  split_ifs
  · rw [Multiset.singleton_bind]
    rfl
  · rfl
  · rfl

/-- Each switch of the hops sends what comes in at its in port to its out port. -/
theorem hops_outputs {hops : List Hop} (nodup : (hops.map Hop.dpid).Nodup) {h : Hop}
    (mem : h ∈ hops) {x : Packet} (here : switchIdOf x = h.dpid) (port : inPortOf x = h.inPort) :
    (hops.foldl (fun sum h => Policy.add sum (hopPolicy h.dpid h.inPort h.outPort)) .stop).outputs x =
      {x.modify (outPortIs h.outPort)} := by
  rw [Policy.outputs_foldl_add, Policy.outputs, zero_add]
  simp only [hopPolicy_outputs]
  have one := (sum_map_key Hop.dpid
    (fun h => if inPortOf x = h.inPort then ({x.modify (outPortIs h.outPort)} : Multiset Packet) else 0)
    (switchIdOf x) nodup).1 h mem here.symm
  rw [one, if_pos port]

/-- **Where the two switches are connected, the learning switch finds a route, and its
policy takes a packet from the source port along links to the target: each switch is
visited once at most, has one output for the packet, and the last one is the port of
the target.** -/
theorem learningRoute_forwards [AdjacencyList] {g : TopologyGraph} {source target : SwitchAndPort}
    {p : BitVec 64 → BitVec 64} (paths : ShortestPaths g target.dpid p)
    (connected : (linkGraph g.edges).Reachable source.dpid target.dpid) :
    ∃ policy hops, learningRoute g p source target = some policy ∧
      Hops g.edges source target hops ∧ (hops.map Hop.dpid).Nodup ∧
      ∀ h ∈ hops, ∀ x : Packet, switchIdOf x = h.dpid → inPortOf x = h.inPort →
        policy.outputs x = {x.modify (outPortIs h.outPort)} := by
  have same : ((g.vertex source.dpid).vertex target.dpid).edges = g.edges := by simp
  have paths' : ShortestPaths ((g.vertex source.dpid).vertex target.dpid) target.dpid p :=
    ⟨paths.root, same ▸ paths.reached, same ▸ paths.unreached⟩
  obtain ⟨route, hops, result, along, flat, nodup, -⟩ :=
    computeRoute_hops paths' _ (same ▸ connected) rfl
  refine ⟨_, hops, ?_, same ▸ along, nodup, fun h mem x here port => hops_outputs nodup mem here port⟩
  have taken : (!route.isEmpty || decide (target.dpid = source.dpid)) = true := by
    cases route with
    | nil =>
        -- the walk ends at once at the target only
        have stays : source.dpid = p source.dpid := by
          by_contra moves
          rw [computeRoute, if_neg moves] at result
          obtain ⟨link, -, result⟩ := Option.bind_eq_some_iff.mp result
          obtain ⟨rest, -, result⟩ := Option.bind_eq_some_iff.mp result
          split at result <;> cases result
        by_contra far
        have ne : source.dpid ≠ target.dpid := fun eq => far (by simp [eq])
        exact (paths.reached _ ne connected).1.1 stays
    | cons a route => rfl
  rw [learningRoute, result]
  simp only [Option.bind_eq_bind, Option.bind_some]
  rw [if_pos (by simpa using taken)]
  exact routePolicy_hops flat

open scoped EdgeList in
/-- Two switches and the link between them, from the far switch to the near one. -/
theorem learningRoute_forwards_pair :
    let g : TopologyGraph := { vertices := [1, 2], edges := [⟨⟨2, 20⟩, ⟨1, 10⟩⟩] }
    ∃ policy hops, learningRoute g (fun v => if v = 1 then 2 else v) ⟨1, 5⟩ ⟨2, 7⟩ = some policy ∧
      Hops g.edges ⟨1, 5⟩ ⟨2, 7⟩ hops ∧ (hops.map Hop.dpid).Nodup ∧
      ∀ h ∈ hops, ∀ x : Packet, switchIdOf x = h.dpid → inPortOf x = h.inPort →
        policy.outputs x = {x.modify (outPortIs h.outPort)} := by
  intro g
  have adj : (linkGraph g.edges).Adj 1 2 := ⟨by decide, _, List.mem_singleton_self _, by decide⟩
  -- no other switch has a link
  have alone : ∀ v, v ≠ 2 → (linkGraph g.edges).Reachable v 2 → v = 1 := by
    rintro v ne ⟨walk⟩
    cases walk with
    | nil => exact absurd rfl ne
    | cons step rest =>
        obtain ⟨-, l, mem, joins⟩ := step
        rw [List.mem_singleton.mp mem, LinkProperty.joins_iff] at joins
        rcases joins with ⟨source, -⟩ | ⟨-, here⟩
        · exact absurd source.symm ne
        · exact here.symm
  refine learningRoute_forwards ⟨rfl, fun v ne reached => ?_, fun v not => if_neg ?_⟩ adj.reachable
  · rw [alone v ne reached, if_pos rfl, SimpleGraph.dist_self, SimpleGraph.dist_eq_one_iff_adj.mpr adj]
    exact ⟨adj, rfl⟩
  · rintro rfl
    exact not adj.reachable

end Drunos.Topology
