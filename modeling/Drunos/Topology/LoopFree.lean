/-
# Drunos.Topology.LoopFree — broadcasts do not circulate

Whenever the spanning tree is computed, the links with both ports enabled for
broadcast should form no cycle. Most events keep it so, since they clear the flag
`computed` or disable ports. The timer enables the links of the tree and no others
if the ports of the links are known to it as such; and a port that comes up in between
must not enable a link. `loopFree_run` follows this along runs.

A link that is discovered before its switch is enough to make the timer follow a
null `SwitchSTP` (`earlyLink_null`).
-/
import Drunos.Topology.SpanningTree
import Mathlib.Data.List.Nodup

namespace Drunos.Topology

open Drunos.Theory.Run

set_option autoImplicit false

/-! ## Forests of links -/

/-- No link joins two switches that the other ones connect. -/
def Forest (links : List LinkProperty) : Prop :=
  ∀ l ∈ links, ¬(linkGraph (links.erase l)).Reachable l.source.dpid l.target.dpid

/-- A spanning forest of the links. All links have the same weight, so that each of
them is a minimum one. -/
structure SpanningForest (links tree : List LinkProperty) : Prop where
  subset : ∀ l ∈ tree, l ∈ links
  forest : Forest tree
  spans : ∀ u v, (linkGraph links).Reachable u v → (linkGraph tree).Reachable u v

theorem linkGraph_mono {fewer links : List LinkProperty} (sub : ∀ l ∈ fewer, l ∈ links) :
    linkGraph fewer ≤ linkGraph links := by
  rintro u v ⟨ne, l, mem, joins⟩
  exact ⟨ne, l, sub l mem, joins⟩

/-- Fewer links of a forest are a forest. -/
theorem Forest.of_subperm {fewer links : List LinkProperty} (forest : Forest links)
    (sub : fewer.Subperm links) : Forest fewer := by
  intro l mem connected
  exact forest l (sub.subset mem) (connected.mono (linkGraph_mono fun m other =>
    (sub.erase l).subset other))

/-! ## Ports of the network -/

namespace SwitchList

def portAt (p : SwitchAndPort) (l : SwitchList) : Option Port := (l.find p.dpid).bind (·.port p.port)

variable {l : SwitchList} {p q : SwitchAndPort}

theorem portAt_assign (d : BitVec 64) (sw : SwitchSTP) :
    (l.assign d sw).portAt p = if p.dpid = d then sw.port p.port else l.portAt p := by
  rw [portAt, find_assign]
  split
  · rfl
  · rfl

theorem portAt_erase (d : BitVec 64) :
    (l.erase d).portAt p = if p.dpid = d then none else l.portAt p := by
  rw [portAt, find_erase]
  split
  · rfl
  · rfl

theorem portAt_resetBroadcast :
    (l.map SwitchSTP.resetBroadcast).portAt p =
      (l.portAt p).map fun q => if q.toSwitch then { q with broadcast := false } else q := by
  rw [portAt, find_map, portAt]
  cases found : l.find p.dpid with
  | none => rfl
  | some sw =>
      simp only [Option.map_some, Option.bind_some, SwitchSTP.resetBroadcast,
        SwitchSTP.port_mapPorts]
      congr 1
      funext q
      cases q with
      | mk number broadcast toSwitch => cases toSwitch <;> rfl

theorem eq_iff_port (same : p.dpid = q.dpid) : p = q ↔ p.port = q.port := by
  cases p; cases q
  simp_all

end SwitchList

namespace STP

open SwitchList

variable {l : SwitchList} {p q : SwitchAndPort}

/-- Enabling a port of a listed switch changes that port, if it exists. -/
theorem enable_listed (listed : (l.find q.dpid).isSome = true) :
    ∃ l', enable l q = some l' ∧ (∀ d, (l'.find d).isSome = (l.find d).isSome) ∧
      ∀ p, l'.portAt p =
        if p = q then (l.portAt p).map fun r => { r with broadcast := true } else l.portAt p := by
  obtain ⟨sw, found⟩ := Option.isSome_iff_exists.mp listed
  rw [enable, found, Option.map_some]
  refine ⟨_, rfl, fun d => ?_, fun p => ?_⟩
  · split
    · rw [find_assign]
      by_cases same : d = q.dpid
      · simp [same, found]
      · rw [if_neg same]
    · rfl
  · have atSwitch : p.dpid = q.dpid → l.portAt p = sw.port p.port := by
      intro here
      simp [portAt, here, found]
    split
    · rename_i existing
      rw [portAt_assign, SwitchSTP.port_setBroadcast]
      by_cases here : p.dpid = q.dpid
      · simp only [if_pos here, atSwitch here, eq_iff_port here]
      · have other : p ≠ q := fun same => here (congrArg SwitchAndPort.dpid same)
        rw [if_neg here, if_neg other]
    · rename_i absent
      by_cases same : p = q
      · have none : l.portAt p = none := by
          rw [atSwitch (congrArg SwitchAndPort.dpid same), same]
          simpa [SwitchSTP.existsPort] using absent
        simp [none]
      · rw [if_neg same]

/-- Enabling ports of listed switches enables these ports and no others. -/
theorem enable_run : ∀ (ports : List SwitchAndPort) (l : SwitchList),
    (∀ p ∈ ports, (l.find p.dpid).isSome = true) →
      ∃ l', ports.foldlM enable l = some l' ∧ ∀ p, l'.portAt p =
        if p ∈ ports then (l.portAt p).map fun r => { r with broadcast := true } else l.portAt p
  | [], l, _ => ⟨l, rfl, fun p => by simp⟩
  | q :: ports, l, listed => by
      obtain ⟨first, rest⟩ := List.forall_mem_cons.mp listed
      obtain ⟨l₁, one, same, ports₁⟩ := enable_listed first
      obtain ⟨l₂, more, ports₂⟩ := enable_run ports l₁ fun p mem => by rw [same, rest p mem]
      refine ⟨l₂, by rw [List.foldlM_cons, one]; exact more, fun p => ?_⟩
      rw [ports₂, ports₁]
      by_cases here : p = q
      · rw [if_pos here, here, if_pos List.mem_cons_self]
        split <;> simp [Function.comp_def]
      · by_cases later : p ∈ ports <;> simp [here, later]

/-- Flooding leaves the switch at the port. -/
def enabled (p : SwitchAndPort) (s : STP) : Bool :=
  (s.switchList.find p.dpid).any fun sw => p.port ∈ sw.getEnabledPorts

/-- `onPortUp` makes a port. -/
def Makes (p : SwitchAndPort) (s : STP) : Prop :=
  (s.switchList.find p.dpid).isSome = true ∧ p.port < OFPP_MAX ∧ s.switchList.portAt p = none

theorem enabled_iff {s : STP} {p : SwitchAndPort} :
    s.enabled p = true ↔ ∃ q, s.switchList.portAt p = some q ∧ q.broadcast = true := by
  rw [enabled, portAt]
  cases found : s.switchList.find p.dpid with
  | none => simp
  | some sw => simp [SwitchSTP.mem_getEnabledPorts]

end STP

/-! ## The network -/

namespace Network

def links (s : Network) : List LinkProperty := s.topology.graph.edges

/-- The links a broadcast is flooded through. -/
def enabledLinks (s : Network) : List LinkProperty :=
  s.links.filter fun l => s.stp.enabled l.source && s.stp.enabled l.target

/-- One event; after a null `SwitchSTP` was followed there is no network. -/
def step [AdjacencyList] (kruskal : TopologyGraph → List LinkProperty) (s : Option Network) (e : NetworkEvent) :
    Option Network :=
  s.bind fun s => s.handle kruskal e

/-- The event follows no null `SwitchSTP`, and if the tree is computed after it, the
enabled links form no cycle. -/
def LoopFree [AdjacencyList] (kruskal : TopologyGraph → List LinkProperty) (s : Option Network)
    (e : NetworkEvent) : Prop :=
  ∃ s', step kruskal s e = some s' ∧ (s'.stp.computed = true → Forest s'.enabledLinks)

/-- Kruskal's algorithm returns a minimum spanning forest when the timer asks it. -/
def Spans (kruskal : TopologyGraph → List LinkProperty) (s : Option Network) : NetworkEvent → Prop
  | .timer => ∀ known, s = some known → known.stp.computed = false →
      SpanningForest known.links (kruskal known.topology.graph)
  | _ => True

/-- What the timer needs to compute the tree: each link is there once, has a port of its
own, and ends at known switches, at ports that are marked unless they are missing. -/
structure Ready (s : Network) : Prop where
  nodup : s.links.Nodup
  own : ∀ l ∈ s.links, ∃ p, l.hasEnd p = true ∧ ∀ m ∈ s.links, m.hasEnd p = true → m = l
  listed : ∀ l ∈ s.links, ∀ p, l.hasEnd p = true →
    (s.stp.switchList.find p.dpid).isSome = true
  marked : ∀ l ∈ s.links, ∀ p, l.hasEnd p = true →
    ∀ q, s.stp.switchList.portAt p = some q → q.toSwitch = true

/-- A port that is made while the tree is computed enables no link. -/
def Quiet (port : SwitchAndPort) (s : Network) : Prop :=
  s.stp.Makes port → ∀ l ∈ s.links, l.hasEnd port = true →
    s.stp.enabled l.source = false ∧ s.stp.enabled l.target = false

def Orderly (s : Option Network) : NetworkEvent → Prop
  | .timer => ∀ known, s = some known → known.stp.computed = false → known.Ready
  | .portUp port => ∀ known, s = some known → known.stp.computed = true → known.Quiet port
  | _ => True

/-- What every event keeps. -/
structure Settled (s : Network) : Prop where
  noLoop : ∀ l ∈ s.links, l.source.dpid ≠ l.target.dpid
  forest : s.stp.computed = true → Forest s.enabledLinks

theorem Settled.initial : Settled {} :=
  ⟨fun _ mem => absurd mem List.not_mem_nil, fun computed => by cases computed⟩

variable {s : Network} {kruskal : TopologyGraph → List LinkProperty}

theorem hasEnd_source (l : LinkProperty) : l.hasEnd l.source = true := by
  simp [LinkProperty.hasEnd]

theorem hasEnd_target (l : LinkProperty) : l.hasEnd l.target = true := by
  simp [LinkProperty.hasEnd]

namespace Settled

/-! ## One event -/

/-- An event that enables no link. -/
theorem of_fewer (settled : s.Settled) {stp : STP} (computed : stp.computed = s.stp.computed)
    (fewer : ∀ l ∈ s.links, stp.enabled l.source = true → stp.enabled l.target = true →
      s.stp.enabled l.source = true ∧ s.stp.enabled l.target = true) :
    Settled { s with stp } where
  noLoop := settled.noLoop
  forest := by
    intro isComputed
    refine (settled.forest (computed ▸ isComputed)).of_subperm (List.Sublist.subperm ?_)
    have narrowed : enabledLinks { s with stp } =
        s.enabledLinks.filter fun l => stp.enabled l.source && stp.enabled l.target := by
      rw [enabledLinks, enabledLinks, List.filter_filter]
      refine List.filter_congr fun l mem => ?_
      have both := fewer l mem
      rw [Bool.eq_iff_iff]
      simp only [Bool.and_eq_true]
      exact ⟨fun on => ⟨on, both on.1 on.2⟩, And.left⟩
    rw [narrowed]
    exact List.filter_sublist

/-- A switch comes anew, without ports. -/
theorem switchDiscovered (settled : s.Settled) (d : BitVec 64) :
    Settled { s with stp := s.stp.onSwitchDiscovered d } := by
  have fewer : ∀ p, (s.stp.onSwitchDiscovered d).enabled p = true → s.stp.enabled p = true := by
    intro p on
    rw [STP.enabled_iff] at on ⊢
    obtain ⟨q, found, broadcast⟩ := on
    rw [STP.onSwitchDiscovered, SwitchList.portAt_assign] at found
    split at found
    · cases found
    · exact ⟨q, found, broadcast⟩
  exact settled.of_fewer rfl fun l _ first second => ⟨fewer _ first, fewer _ second⟩

theorem switchDown (settled : s.Settled) (d : BitVec 64) :
    Settled { s with stp := s.stp.onSwitchDown d } := by
  have fewer : ∀ p, (s.stp.onSwitchDown d).enabled p = true → s.stp.enabled p = true := by
    intro p on
    rw [STP.enabled_iff] at on ⊢
    obtain ⟨q, found, broadcast⟩ := on
    rw [STP.onSwitchDown, SwitchList.portAt_erase] at found
    split at found
    · cases found
    · exact ⟨q, found, broadcast⟩
  exact settled.of_fewer rfl fun l _ first second => ⟨fewer _ first, fewer _ second⟩

theorem switchUp (settled : s.Settled) (d : BitVec 64) :
    Settled { s with stp := s.stp.onSwitchUp d } := by
  unfold STP.onSwitchUp
  split
  · exact settled.switchDiscovered d
  · exact settled

/-- A port that comes up is enabled, the others are as they were. -/
theorem enabled_portUp {stp : STP} {q p : SwitchAndPort}
    (on : (stp.onPortUp q).enabled p = true) :
    stp.enabled p = true ∨ p = q ∧ stp.Makes q := by
  unfold STP.onPortUp at on
  cases found : stp.switchList.find q.dpid with
  | none =>
      rw [found] at on
      exact .inl on
  | some sw =>
      simp only [found] at on
      by_cases usual : q.port < OFPP_MAX
      · rw [if_pos usual, STP.enabled_iff, SwitchList.portAt_assign] at on
        rw [STP.enabled_iff]
        obtain ⟨r, port, broadcast⟩ := on
        have atSwitch : ∀ p, p.dpid = q.dpid → stp.switchList.portAt p = sw.port p.port := by
          intro p here
          simp [SwitchList.portAt, here, found]
        by_cases here : p.dpid = q.dpid
        · rw [if_pos here, SwitchSTP.port_newPort] at port
          by_cases same : p.port = q.port
          · rw [if_pos same] at port
            cases existing : sw.port q.port with
            | none =>
                exact .inr ⟨(SwitchList.eq_iff_port here).mpr same, by rw [found]; rfl, usual,
                  by rw [atSwitch q rfl, existing]⟩
            | some r' =>
                rw [existing, Option.getD_some] at port
                exact .inl ⟨r, by rw [atSwitch p here, same, existing, port], broadcast⟩
          · rw [if_neg same] at port
            exact .inl ⟨r, by rw [atSwitch p here, port], broadcast⟩
        · rw [if_neg here] at port
          exact .inl ⟨r, port, broadcast⟩
      · rw [if_neg usual] at on
        exact .inl on

theorem portUp (settled : s.Settled) {q : SwitchAndPort}
    (quiet : s.stp.computed = true → s.Quiet q) :
    Settled { s with stp := s.stp.onPortUp q } := by
  have computed : (s.stp.onPortUp q).computed = s.stp.computed := by
    unfold STP.onPortUp
    split
    · split <;> rfl
    · rfl
  cases isComputed : s.stp.computed with
  | false => exact ⟨settled.noLoop, fun on => by rw [computed, isComputed] at on; cases on⟩
  | true =>
      refine settled.of_fewer computed fun l mem first second => ?_
      have different := settled.noLoop l mem
      rcases enabled_portUp first with source | ⟨isNew, missing⟩
      · rcases enabled_portUp second with target | ⟨isNew, missing⟩
        · exact ⟨source, target⟩
        · -- the target is new, so the source would have to be disabled
          have off := (quiet isComputed missing l mem (isNew ▸ hasEnd_target l)).1
          rw [off] at source
          cases source
      · rcases enabled_portUp second with target | ⟨isNew', -⟩
        · have off := (quiet isComputed missing l mem (isNew ▸ hasEnd_source l)).2
          rw [off] at target
          cases target
        · exact absurd (by rw [isNew, isNew']) different

theorem linkBroken [AdjacencyList] (settled : s.Settled) (a b : SwitchAndPort) :
    Settled ⟨s.stp.onLinkBroken, s.topology.linkBroken a b⟩ := by
  have sub : (links ⟨s.stp.onLinkBroken, s.topology.linkBroken a b⟩).Perm
      (s.links.filter fun l => !l.joins a.dpid b.dpid) := by
    simpa [links, TopologyState.linkBroken, TopologyState.addEvent, TopologyGraph.removeEdge] using
      AdjacencyList.removeEdge_perm a.dpid b.dpid s.topology.graph.edges
  refine ⟨fun l mem => ?_, fun computed => by cases computed⟩
  exact settled.noLoop l (List.mem_filter.mp (sub.mem_iff.mp mem)).1

/-- A port of a switch that is not listed is not enabled. -/
theorem not_enabled {stp : STP} {p : SwitchAndPort}
    (unknown : (stp.switchList.find p.dpid).isNone = true) : stp.enabled p = false := by
  rw [STP.enabled, Option.isNone_iff_eq_none.mp unknown]
  rfl

/-- A link clears the flag, or it is not enabled because one of its switches is not
listed. -/
theorem linkDiscovered [AdjacencyList] (settled : s.Settled) (a b : SwitchAndPort) (rand : Nat) :
    Settled ⟨s.stp.onLinkDiscovered a b, s.topology.linkDiscovered a b rand⟩ := by
  by_cases loop : a.dpid = b.dpid
  · -- the graph leaves a loop out
    have same : s.topology.linkDiscovered a b rand = s.topology := if_pos loop
    rw [same]
    refine ⟨settled.noLoop, ?_⟩
    unfold STP.onLinkDiscovered
    split
    · exact settled.forest
    · split
      · exact settled.forest
      · exact fun computed => by cases computed
  · have edges : ∀ stp, (links ⟨stp, s.topology.linkDiscovered a b rand⟩).Perm (⟨a, b⟩ :: s.links) := by
      intro stp
      simpa [links, TopologyState.linkDiscovered, loop, TopologyState.addEvent,
        TopologyGraph.addEdge] using AdjacencyList.addEdge_perm ⟨a, b⟩ s.topology.graph.edges
    have silent : (s.stp.enabled a && s.stp.enabled b) = false → s.stp.computed = true →
        Forest (enabledLinks ⟨s.stp, s.topology.linkDiscovered a b rand⟩) := by
      intro off computed
      have same : (enabledLinks ⟨s.stp, s.topology.linkDiscovered a b rand⟩).Perm s.enabledLinks := by
        have filtered := (edges s.stp).filter fun l => s.stp.enabled l.source && s.stp.enabled l.target
        rwa [List.filter_cons_of_neg (by simp [off])] at filtered
      exact (settled.forest computed).of_subperm same.subperm
    refine ⟨fun l mem => ?_, ?_⟩
    · rcases List.mem_cons.mp ((edges _).mem_iff.mp mem) with rfl | before
      · exact loop
      · exact settled.noLoop l before
    · unfold STP.onLinkDiscovered
      split
      · exact silent (by rw [not_enabled ‹_›, Bool.false_and])
      · split
        · exact silent (by rw [not_enabled (p := b) ‹_›, Bool.and_false])
        · exact fun computed => by cases computed

/-- The timer enables the ports of the tree: then the enabled links are in the tree. -/
theorem timer (settled : s.Settled) (ready : s.stp.computed = false → s.Ready)
    {tree : List LinkProperty} (spanning : s.stp.computed = false → SpanningForest s.links tree) :
    ∃ stp, s.stp.computeSpanningTree tree = some stp ∧ Settled { s with stp } := by
  unfold STP.computeSpanningTree
  cases computed : s.stp.computed with
  | true => exact ⟨s.stp, rfl, settled⟩
  | false =>
      have ready := ready computed
      have spanning := spanning computed
      have ofTree : ∀ p, p ∈ STP.treePorts tree ↔ ∃ l ∈ tree, l.hasEnd p = true := by
        intro p
        simp only [STP.treePorts, List.mem_flatMap, List.mem_cons, List.not_mem_nil, or_false,
          LinkProperty.hasEnd_iff]
        exact exists_congr fun l => and_congr_right fun _ => or_congr eq_comm eq_comm
      obtain ⟨list, enabled, ports⟩ := STP.enable_run (STP.treePorts tree)
        (s.stp.switchList.map SwitchSTP.resetBroadcast) fun p mem => by
          obtain ⟨l, mem, isEnd⟩ := (ofTree p).mp mem
          rw [SwitchList.find_map, Option.isSome_map]
          exact ready.listed l (spanning.subset l mem) p isEnd
      -- an end of a link is enabled for the tree only
      have member : ∀ l ∈ s.links, ∀ p, l.hasEnd p = true →
          STP.enabled p ⟨list, true⟩ = true → ∃ m ∈ tree, m.hasEnd p = true := by
        intro l mem p isEnd on
        obtain ⟨q, found, broadcast⟩ := STP.enabled_iff.mp on
        refine (ofTree p).mp ?_
        by_contra other
        rw [ports, if_neg other, SwitchList.portAt_resetBroadcast, Option.map_eq_some_iff] at found
        obtain ⟨r, found, rfl⟩ := found
        rw [if_pos (ready.marked l mem p isEnd r found)] at broadcast
        cases broadcast
      refine ⟨⟨list, true⟩, by simp [enabled], ⟨settled.noLoop, fun _ => ?_⟩⟩
      refine spanning.forest.of_subperm (List.subperm_of_subset (ready.nodup.filter _) ?_)
      intro l mem
      obtain ⟨mem, both⟩ := List.mem_filter.mp mem
      obtain ⟨source, target⟩ := Bool.and_eq_true_iff.mp both
      obtain ⟨p, isEnd, only⟩ := ready.own l mem
      have on : STP.enabled p ⟨list, true⟩ = true := by
        rcases LinkProperty.hasEnd_iff.mp isEnd with rfl | rfl
        · exact source
        · exact target
      obtain ⟨m, inTree, there⟩ := member l mem p isEnd on
      rwa [← only m (spanning.subset m inTree) there]

end Settled

/-! ## Whole runs -/

theorem handle_settled [AdjacencyList] (settled : s.Settled) {e : NetworkEvent} (orderly : Orderly (some s) e)
    (spans : Spans kruskal (some s) e) : ∃ s', s.handle kruskal e = some s' ∧ s'.Settled := by
  cases e with
  | switchDiscovered dpid => exact ⟨_, rfl, settled.switchDiscovered dpid⟩
  | switchUp dpid => exact ⟨_, rfl, settled.switchUp dpid⟩
  | switchDown dpid => exact ⟨_, rfl, settled.switchDown dpid⟩
  | portUp port => exact ⟨_, rfl, settled.portUp (orderly s rfl)⟩
  | linkDiscovered a b rand => exact ⟨_, rfl, settled.linkDiscovered a b rand⟩
  | linkBroken a b => exact ⟨_, rfl, settled.linkBroken a b⟩
  | timer =>
      obtain ⟨stp, computed, settled'⟩ := settled.timer (orderly s rfl) (spans s rfl)
      exact ⟨_, by rw [handle, computed]; rfl, settled'⟩

/-- **Broadcasts do not circulate, and no null `SwitchSTP` is followed, along every run
in which the tree is computed only while the ports of the links are known, and no port
that comes up enables a link.** -/
theorem loopFree_run [AdjacencyList] {kruskal : TopologyGraph → List LinkProperty} {es : List NetworkEvent}
    (spans : Each (step kruskal) (Spans kruskal) (some {}) es)
    (orderly : Each (step kruskal) Orderly (some {}) es) :
    Each (step kruskal) (LoopFree kruskal) (some {}) es := by
  suffices run : ∀ (es : List NetworkEvent) (s : Network), s.Settled →
      Each (step kruskal) (Spans kruskal) (some s) es →
      Each (step kruskal) Orderly (some s) es →
      Each (step kruskal) (LoopFree kruskal) (some s) es from run es {} .initial spans orderly
  intro es
  induction es with
  | nil => exact fun _ _ _ _ => trivial
  | cons e es ih =>
      rintro s settled ⟨spans, laterSpans⟩ ⟨orderly, laterOrderly⟩
      obtain ⟨s', result, settled'⟩ := handle_settled settled orderly spans
      have next : step kruskal (some s) e = some s' := result
      rw [next] at laterSpans laterOrderly
      refine ⟨⟨s', next, settled'.forest⟩, ?_⟩
      rw [next]
      exact ih s' settled' laterSpans laterOrderly

/-- One link between two switches is a spanning forest of itself. -/
theorem spanningForest_single {l : LinkProperty} (different : l.source.dpid ≠ l.target.dpid) :
    SpanningForest [l] [l] := by
  refine ⟨fun _ => id, fun m mem connected => ?_, fun _ _ => id⟩
  rw [List.mem_singleton.mp mem, List.erase_cons_head] at connected
  have none : linkGraph [] = ⊥ := by
    ext u v
    simp [linkGraph]
  rw [none, SimpleGraph.reachable_bot] at connected
  exact different connected

open scoped EdgeList in
/-- A link is discovered between two known switches, and the timer computes the tree. -/
theorem loopFree_knownSwitches :
    Each (step TopologyGraph.edges) (LoopFree TopologyGraph.edges) (some {})
      [.switchDiscovered 1, .switchDiscovered 2, .linkDiscovered ⟨1, 1⟩ ⟨2, 1⟩ 0, .timer] := by
  refine loopFree_run ⟨trivial, trivial, trivial, fun known same _ => ?_, trivial⟩
    ⟨trivial, trivial, trivial, fun known same _ => ?_, trivial⟩
  · have links : known.links = [⟨⟨1, 1⟩, ⟨2, 1⟩⟩] := by
      rw [← Option.some.inj same]
      decide
    rw [show TopologyGraph.edges known.topology.graph = known.links from rfl, links]
    exact spanningForest_single (by decide)
  · have links : known.links = [⟨⟨1, 1⟩, ⟨2, 1⟩⟩] := by
      rw [← Option.some.inj same]
      decide
    have ports : ∀ p ∈ [(⟨1, 1⟩ : SwitchAndPort), ⟨2, 1⟩],
        (known.stp.switchList.find p.dpid).isSome = true ∧
        known.stp.switchList.portAt p = some ⟨1, false, true⟩ := by
      rw [← Option.some.inj same]
      decide
    have ends : ∀ p, LinkProperty.hasEnd ⟨⟨1, 1⟩, ⟨2, 1⟩⟩ p = true →
        p ∈ [(⟨1, 1⟩ : SwitchAndPort), ⟨2, 1⟩] := by
      intro p isEnd
      rcases LinkProperty.hasEnd_iff.mp isEnd with rfl | rfl <;> simp
    refine ⟨?_, ?_, ?_, ?_⟩ <;> simp only [links, List.mem_singleton, forall_eq]
    · exact List.nodup_singleton _
    · exact ⟨⟨1, 1⟩, by decide, fun _ => trivial⟩
    · exact fun p isEnd => (ports p (ends p isEnd)).1
    · intro p isEnd q found
      rw [(ports p (ends p isEnd)).2] at found
      rw [← Option.some.inj found]

/-- A link is discovered before the second switch. -/
def earlyLink : List NetworkEvent :=
  [.switchDiscovered 1, .linkDiscovered ⟨1, 1⟩ ⟨2, 1⟩ 0, .timer]

open scoped EdgeList in
/-- The timer follows the null pointer it has made for the second switch. -/
theorem earlyLink_null :
    Each (step TopologyGraph.edges) (Spans TopologyGraph.edges) (some {}) earlyLink ∧
      ¬Each (step TopologyGraph.edges) (LoopFree TopologyGraph.edges) (some {}) earlyLink := by
  refine ⟨⟨trivial, trivial, fun known same _ => ?_, trivial⟩, ?_⟩
  · have links : known.links = [⟨⟨1, 1⟩, ⟨2, 1⟩⟩] := by
      rw [← Option.some.inj same]
      decide
    rw [show TopologyGraph.edges known.topology.graph = known.links from rfl, links]
    exact spanningForest_single (by decide)
  · rintro ⟨-, -, ⟨s', result, -⟩, -⟩
    have null : step TopologyGraph.edges (step TopologyGraph.edges (step TopologyGraph.edges
        (some {}) (.switchDiscovered 1)) (.linkDiscovered ⟨1, 1⟩ ⟨2, 1⟩ 0)) .timer = none := rfl
    rw [null] at result
    cases result

end Network

end Drunos.Topology
